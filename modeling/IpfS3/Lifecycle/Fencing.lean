import IpfS3.Lifecycle.Execution

/-!
# Claims are fenced

`RowStep` lists what one transaction can do to one row: nothing, a claim, an exhaustion, or an
operation of the worker whose claim the row carries.  Only a claim writes the epoch, and it writes a
greater one, so a claim that has been followed by another one never meets its row again
(`claims_fenced`).
-/

namespace IpfS3.Lifecycle

open Fallible Keyset Table Transactions ActionTables List Option

variable {t t' : ActionTables} {id : Text} {row row' : LifecycleActionRow}
  {claim : ClaimedLifecycleAction} {claims : List ClaimedLifecycleAction} {op : ActionOperation}

/-! ## Operations that present a claim -/

theorem get_updateRows (p : LifecycleActionRow → Bool) (f : LifecycleActionRow → LifecycleActionRow)
    (hf : ∀ row, (f row).id = row.id) (t : ActionTables) (id : Text) :
    (t.updateRows p f hf).1.actions.get id =
      (t.actions.get id).map fun row => if p row then f row else row :=
  Keyed.get_update hf t.actions id

theorem activeClaimCondition_iff : activeClaimCondition claim row = true ↔
    row.id = claim.action.id ∧ (∃ leaseUntil, row.state = .claimed claim.workerId leaseUntil) ∧
      row.claimEpoch = claim.claimEpoch := by
  unfold activeClaimCondition
  cases hstate : row.state with
  | claimed claimedBy leaseUntil =>
    simp only [Bool.and_eq_true, beq_iff_eq, LifecycleActionState.claimed.injEq]
    constructor
    · rintro ⟨⟨hid, rfl⟩, hepoch⟩
      exact ⟨hid, ⟨leaseUntil, rfl, rfl⟩, hepoch⟩
    · rintro ⟨hid, ⟨-, hworker, -⟩, hepoch⟩
      exact ⟨⟨hid, hworker⟩, hepoch⟩
  | pending => simp
  | succeeded finishedAt => simp
  | cancelled finishedAt => simp
  | failedSafe finishedAt => simp

/-- The columns of an action that no statement writes. -/
def LifecycleActionRow.definition (row : LifecycleActionRow) : Text × ActionIdentity × Text :=
  (row.id, row.idempotencyKey, row.objectKey)

/-- A transaction that writes one row of the actions, and none of its defining columns. -/
structure WritesOnly (id : Text) (t t' : ActionTables) : Prop where
  buckets_eq : t'.buckets = t.buckets
  sagas_eq : t'.sagas = t.sagas
  frame : ∀ id', id' ≠ id → t'.actions.get id' = t.actions.get id'
  definition : (t'.actions.get id).map LifecycleActionRow.definition =
    (t.actions.get id).map LifecycleActionRow.definition

theorem WritesOnly.refl (id : Text) (t : ActionTables) : WritesOnly id t t :=
  ⟨rfl, rfl, fun _ _ => rfl, rfl⟩

theorem WritesOnly.trans {t'' : ActionTables} (h : WritesOnly id t t') (h' : WritesOnly id t' t'') :
    WritesOnly id t t'' :=
  ⟨h'.buckets_eq.trans h.buckets_eq, h'.sagas_eq.trans h.sagas_eq,
    fun id' hne => (h'.frame id' hne).trans (h.frame id' hne), h'.definition.trans h.definition⟩

section UpdateRows

variable {p : LifecycleActionRow → Bool} {f : LifecycleActionRow → LifecycleActionRow}
  {hf : ∀ row, (f row).id = row.id}

theorem writesOnly_updateRows (hp : ∀ row, p row = true → row.id = id)
    (hdefinition : ∀ row, (f row).definition = row.definition) :
    WritesOnly id t (t.updateRows p f hf).1 where
  buckets_eq := rfl
  sagas_eq := rfl
  frame id' hne := by
    rw [get_updateRows]
    cases hrow : t.actions.get id' with
    | none => rfl
    | some row =>
      have hnot : ¬p row = true := fun h => hne ((Keyed.key_of_get hrow).symm.trans (hp row h))
      rw [map_some, if_neg hnot]
  definition := by
    rw [get_updateRows, Option.map_map]
    congr 1
    funext row
    rw [Function.comp_apply]
    split_ifs
    · exact hdefinition row
    · rfl

def LifecycleActionState.isFinished : LifecycleActionState → Bool
  | .succeeded _ | .cancelled _ | .failedSafe _ => true
  | .pending | .claimed _ _ => false

/-- How an operation on a claim leaves the row that carries it. -/
inductive Settlement where
  | renewed
  | finished
  | retried
  | parked

structure SameAction (row row' : LifecycleActionRow) : Prop where
  definition_eq : row'.definition = row.definition
  id_eq : row'.id = row.id
  actionKind_eq : row'.actionKind = row.actionKind
  target_eq : row'.target = row.target
  claimEpoch_eq : row'.claimEpoch = row.claimEpoch

/-- **What an operation on a claim does to the row that carries it.** -/
inductive SettleStep (claim : ClaimedLifecycleAction) (row row' : LifecycleActionRow) :
    Settlement → Prop where
  | renewed (hattempts : row'.attempts = row.attempts)
      (hclass : row'.failureClass = row.failureClass)
      (hstate : ∃ leaseUntil, row'.state = .claimed claim.workerId leaseUntil) :
      SettleStep claim row row' .renewed
  | finished (hattempts : row'.attempts = row.attempts) (hstate : row'.state.isFinished = true) :
      SettleStep claim row row' .finished
  | retried (hattempts : row'.attempts = claim.action.attempts +
        if waitingForDependency claim.action = true then 1 else 0)
      (hstate : row'.state = .pending) (hclass : waitingForDependency row' = false) :
      SettleStep claim row row' .retried
  | parked (hattempts : row'.attempts = consumedAttempts row) (hstate : row'.state = .pending) :
      SettleStep claim row row' .parked

/-- An operation that presents a claim leaves the tables alone or settles the rows that carry the
claim. -/
inductive Presents (claim : ClaimedLifecycleAction) (kind : Settlement) (t : ActionTables) :
    ActionTables → Prop where
  | refl : Presents claim kind t t
  | update {p : LifecycleActionRow → Bool} {f : LifecycleActionRow → LifecycleActionRow}
      {hf : ∀ row, (f row).id = row.id}
      (hp : ∀ row, p row = true → activeClaimCondition claim row = true)
      (hsame : ∀ row, SameAction row (f row))
      (hstep : ∀ row, t.actions.get row.id = some row → activeClaimCondition claim row = true →
        SettleStep claim row (f row) kind) :
      Presents claim kind t (t.updateRows p f hf).1

end UpdateRows

variable {kind : Settlement} {done : Bool} {lockedAt now : ℤ} {failureClass : FailureClass}

theorem Presents.writesOnly (h : Presents claim kind t t') : WritesOnly claim.action.id t t' := by
  cases h with
  | refl => exact WritesOnly.refl _ t
  | update hp hsame =>
    exact writesOnly_updateRows (fun row h => (activeClaimCondition_iff.mp (hp row h)).1)
      fun row => (hsame row).definition_eq

theorem Presents.exists_get (h : Presents claim kind t t') (hrow : t.actions.get id = some row) :
    ∃ row', t'.actions.get id = some row' ∧ (row' = row ∨
      activeClaimCondition claim row = true ∧ SameAction row row' ∧ SettleStep claim row row' kind) := by
  cases h with
  | refl => exact ⟨row, hrow, Or.inl rfl⟩
  | update hp hsame hstep =>
    rw [get_updateRows, hrow, map_some]
    refine ⟨_, rfl, ?_⟩
    split_ifs with hactive
    · exact Or.inr ⟨hp row hactive, hsame row,
        hstep row (Keyed.key_of_get hrow ▸ hrow) (hp row hactive)⟩
    · exact Or.inl rfl

theorem eq_of_lockClaimForExecution {action : LifecycleActionRow}
    (h : t.lockClaimForExecution claim lockedAt = some action)
    (hrow : t.actions.get row.id = some row) (hactive : activeClaimCondition claim row = true) :
    action = row := by
  unfold lockClaimForExecution at h
  split_ifs at h with hbucket
  obtain ⟨hfind, -⟩ := filter_eq_some_iff.mp h
  have haction := List.find?_some hfind
  have hid := (activeClaimCondition_iff.mp haction).1
  have hid' := (activeClaimCondition_iff.mp hactive).1
  have hget : t.actions.get row.id = some action := by
    rw [hid', ← hid]
    exact Keyed.get_of_mem (List.mem_of_find?_eq_some hfind)
  exact some.inj (hget.symm.trans hrow)

theorem presents_requeue {action : LifecycleActionRow} {nextAttemptAt : ℤ}
    {reason : Option FailureClass} (hlocked : t.lockClaimForExecution claim lockedAt = some action) :
    Presents claim .parked t (t.requeue claim action now nextAttemptAt reason).1 := by
  refine .update (fun _ h => (Bool.and_eq_true_iff.mp h).1) (fun _ => ⟨rfl, rfl, rfl, rfl, rfl⟩)
    fun row hrow hactive => ?_
  obtain rfl := eq_of_lockClaimForExecution hlocked hrow hactive
  exact .parked rfl rfl

theorem presents_markSucceeded : Presents claim .finished t (t.markSucceeded claim now).1 :=
  .update (fun _ h => h) (fun _ => ⟨rfl, rfl, rfl, rfl, rfl⟩) fun _ _ _ => .finished rfl rfl

theorem presents_renewClaim {leaseFor : ℤ}
    (h : t.renewClaim claim leaseFor lockedAt now = .ok (t', done)) :
    Presents claim .renewed t t' := by
  obtain ⟨⟨⟩, -, h⟩ := of_bind h
  split at h
  · cases h
    exact .refl
  · obtain ⟨leaseUntil, -, h⟩ := of_bind h
    cases h
    refine .update (fun _ h => (Bool.and_eq_true_iff.mp h).1) (fun _ => ⟨rfl, rfl, rfl, rfl, rfl⟩)
      fun row _ hactive => .renewed rfl rfl ⟨leaseUntil, ?_⟩
    obtain ⟨-, ⟨leaseUntil', hstate⟩, -⟩ := activeClaimCondition_iff.mp hactive
    rw [hstate]
    rfl

theorem presents_terminalFailureUpdate {terminalState : LifecycleActionState}
    (hfinished : terminalState.isFinished = true)
    (h : t.terminalFailureUpdate claim now terminalState failureClass = .ok (t', done)) :
    Presents claim .finished t t' := by
  obtain ⟨⟨⟩, -, h⟩ := of_bind h
  cases h
  exact .update (fun _ h => h) (fun _ => ⟨rfl, rfl, rfl, rfl, rfl⟩)
    fun _ _ _ => .finished rfl hfinished

theorem presents_scheduleRetry {nextAttemptAt : ℤ}
    (h : t.scheduleRetry claim now nextAttemptAt failureClass = .ok (t', done)) :
    Presents claim .retried t t' := by
  obtain ⟨⟨⟩, hclass, h⟩ := of_bind h
  obtain ⟨-, h⟩ := of_ensure h
  cases h
  refine .update (fun _ h => h) (fun _ => ⟨rfl, rfl, rfl, rfl, rfl⟩) fun _ _ _ => .retried rfl rfl ?_
  -- the classes that a failure may have are not those of a dependency
  have hallowed := ensure_eq_ok_iff.mp hclass
  cases failureClass <;> simp_all [waitingForDependency, waitingForTransition, isAllowedFailureClass]

theorem presents_waitForMutationDependency {maxAttempts : ℤ} :
    Presents claim .parked t (t.waitForMutationDependency claim maxAttempts lockedAt now).1 := by
  unfold waitForMutationDependency
  cases hlocked : t.lockClaimForExecution claim lockedAt with
  | none => exact .refl
  | some action =>
    dsimp only
    split_ifs
    · exact .refl
    · exact presents_requeue hlocked

theorem presents_waitForTransition (h : t.waitForTransition claim lockedAt now = .ok (t', done)) :
    Presents claim .parked t t' := by
  unfold waitForTransition at h
  split at h
  · cases h
    exact .refl
  · rename_i hlocked
    obtain ⟨-, h⟩ := of_ensure h
    cases h
    exact presents_requeue hlocked

theorem presents_waitForHotVerification
    (h : t.waitForHotVerification claim lockedAt now = .ok (t', done)) :
    Presents claim .parked t t' := by
  unfold waitForHotVerification at h
  split at h
  · cases h
    exact .refl
  · rename_i hlocked
    obtain ⟨-, h⟩ := of_ensure h
    split at h
    · cases h
    · cases h
      exact presents_requeue hlocked

theorem of_settled {result : ActionTables × Bool} (h : settled result = .ok t') : t' = result.1 := by
  obtain ⟨-, h⟩ := of_ensure h
  cases h
  rfl

theorem presents_settlePostAdmissionFailure {settings : ExecutionSettings} {retry : Bool}
    (h : t.settlePostAdmissionFailure claim settings failureClass retry lockedAt now = .ok t') :
    Presents claim .finished t t' ∨ Presents claim .retried t t' ∧
      ∀ row, t.actions.get row.id = some row → activeClaimCondition claim row = true →
        row.attempts < settings.maxAttempts := by
  unfold settlePostAdmissionFailure at h
  split at h
  · cases h
    exact Or.inl .refl
  · rename_i hlocked
    split_ifs at h with hretry
    · obtain ⟨nextAttemptAt, -, h⟩ := of_bind h
      obtain ⟨⟨t'', done⟩, hretried, h⟩ := of_bind h
      obtain rfl := of_settled h
      refine Or.inr ⟨presents_scheduleRetry hretried, fun row hrow hactive => ?_⟩
      obtain rfl := eq_of_lockClaimForExecution hlocked hrow hactive
      exact hretry.2
    · obtain ⟨⟨t'', done⟩, hfailed, h⟩ := of_bind h
      obtain rfl := of_settled h
      exact Or.inl (presents_terminalFailureUpdate rfl hfailed)

/-- **An operation that presents a claim** settles that claim and hands out none. -/
theorem presents_of_transactAction (hclaim : op.claim = some claim)
    (h : transactAction t op = .ok (t', claims)) :
    (∃ kind, Presents claim kind t t') ∧ claims = [] := by
  cases op with
  | claimDue => cases hclaim
  | writeOthers => cases hclaim
  | renewClaim claim leaseFor lockedAt now =>
    cases hclaim
    obtain ⟨⟨t'', done⟩, hdone, h⟩ := of_bind h
    cases h
    exact ⟨⟨_, presents_renewClaim hdone⟩, rfl⟩
  | scheduleRetry claim now nextAttemptAt failureClass =>
    cases hclaim
    obtain ⟨⟨t'', done⟩, hdone, h⟩ := of_bind h
    cases h
    exact ⟨⟨_, presents_scheduleRetry hdone⟩, rfl⟩
  | waitForMutationDependency claim maxAttempts lockedAt now =>
    cases hclaim
    cases h
    exact ⟨⟨_, presents_waitForMutationDependency⟩, rfl⟩
  | waitForTransition claim lockedAt now =>
    cases hclaim
    obtain ⟨⟨t'', done⟩, hdone, h⟩ := of_bind h
    cases h
    exact ⟨⟨_, presents_waitForTransition hdone⟩, rfl⟩
  | waitForHotVerification claim lockedAt now =>
    cases hclaim
    obtain ⟨⟨t'', done⟩, hdone, h⟩ := of_bind h
    cases h
    exact ⟨⟨_, presents_waitForHotVerification hdone⟩, rfl⟩
  | markSucceeded claim now =>
    cases hclaim
    cases h
    exact ⟨⟨_, presents_markSucceeded⟩, rfl⟩
  | markCancelled claim now failureClass =>
    cases hclaim
    obtain ⟨⟨t'', done⟩, hdone, h⟩ := of_bind h
    cases h
    exact ⟨⟨_, presents_terminalFailureUpdate rfl hdone⟩, rfl⟩
  | markFailedSafe claim now failureClass =>
    cases hclaim
    obtain ⟨⟨t'', done⟩, hdone, h⟩ := of_bind h
    cases h
    exact ⟨⟨_, presents_terminalFailureUpdate rfl hdone⟩, rfl⟩

/-! ## Claiming -/

/-- A row may be claimed under a cap on its attempts: below the cap, at the cap once after a claim
that expired, and without regard to the cap for a transition. -/
def WithinBudget (maxAttempts : ℤ) (row : LifecycleActionRow) : Prop :=
  row.attempts < maxAttempts ∨ isTransitionAction row = true ∨
    waitingForDependency row = false ∧ row.attempts = maxAttempts ∧
      ∃ claimedBy leaseUntil, row.state = .claimed claimedBy leaseUntil

theorem withinBudget_of_isRecoverable {maxAttempts : ℤ}
    (h : t.isRecoverable row maxAttempts = true) : WithinBudget maxAttempts row := by
  by_cases htransition : isTransitionAction row = true
  · exact Or.inr (Or.inl htransition)
  · unfold isRecoverable at h
    rw [if_neg htransition] at h
    refine Or.inr (Or.inr ?_)
    cases hstate : row.state <;> simp_all

/-- What the discovery of a due row at an instant does to it, with the claim that it hands out. -/
inductive ClaimStep (sagas : List TransitionSaga) (workerId : Text) (maxAttempts now leaseUntil : ℤ)
    (row : LifecycleActionRow) : LifecycleActionRow → Option ClaimedLifecycleAction → Prop where
  | unchanged : ClaimStep sagas workerId maxAttempts now leaseUntil row row none
  | claim (hdue : dueClaimCondition sagas now row = true) (hbudget : WithinBudget maxAttempts row) :
      ClaimStep sagas workerId maxAttempts now leaseUntil row
        (claimedRow row workerId now leaseUntil row)
        (some ⟨claimedRow row workerId now leaseUntil row, row.claimEpoch + 1, workerId⟩)
  | exhaust (row' : LifecycleActionRow) (hdue : dueClaimCondition sagas now row = true)
      (hstate : row'.state = .failedSafe now) (hepoch : row'.claimEpoch = row.claimEpoch)
      (hkind : row'.actionKind = row.actionKind) (hattempts : row'.attempts = row.attempts) :
      ClaimStep sagas workerId maxAttempts now leaseUntil row row' none

section Claiming

variable {workerId : Text} {maxAttempts leaseUntil : ℤ} {lockedElsewhere : List Text}
  {candidate : LifecycleActionRow}

theorem isCandidate_id (h : t.isCandidate candidate now row = true) : row.id = candidate.id := by
  unfold isCandidate at h
  simp only [Bool.and_eq_true, beq_iff_eq] at h
  exact h.1.1.1

theorem isCandidate_self (hdue : dueClaimCondition t.sagas now candidate = true) :
    t.isCandidate candidate now candidate = true := by
  unfold isCandidate
  simp only [beq_self_eq_true, hdue, Bool.and_self]

section

variable (hdue : dueClaimCondition t.sagas now candidate = true)
  (hcandidate : t.actions.get candidate.id = some candidate)

include hdue hcandidate

theorem get_updateRows_candidate {f : LifecycleActionRow → LifecycleActionRow}
    {hf : ∀ row, (f row).id = row.id} :
    (t.updateRows (t.isCandidate candidate now) f hf).1.actions.get candidate.id =
      some (f candidate) := by
  rw [get_updateRows, hcandidate, map_some, if_pos (isCandidate_self hdue)]

theorem claimCandidate_eq (hepoch : candidate.claimEpoch + 1 < 2 ^ 63) :
    t.claimCandidate candidate workerId now leaseUntil =
      .ok ((t.updateRows (t.isCandidate candidate now)
          (claimedRow candidate workerId now leaseUntil) fun _ => rfl).1,
        some ⟨claimedRow candidate workerId now leaseUntil candidate, candidate.claimEpoch + 1,
          workerId⟩) := by
  have hget : (t.updateRows (t.isCandidate candidate now)
      (claimedRow candidate workerId now leaseUntil) fun _ => rfl).1.actions.get candidate.id =
        some (claimedRow candidate workerId now leaseUntil candidate) :=
    get_updateRows_candidate hdue hcandidate
  have hdone : (t.updateRows (t.isCandidate candidate now)
      (claimedRow candidate workerId now leaseUntil) fun _ => rfl).2 = true :=
    decide_eq_true ((Keyed.affected_eq_one_iff (fun _ h => isCandidate_id h) t.actions).mpr
      ⟨candidate, hcandidate, isCandidate_self hdue⟩)
  unfold claimCandidate
  rw [ensure_of hepoch, ok_bind]
  rw [if_neg (by rw [hdone]; decide), hget]
  rfl

end

/-- **One round of the loop** does something to the row of the candidate, and nothing to the others. -/
theorem claimOne_spec {claim : Option ClaimedLifecycleAction}
    (h : t.claimOne workerId maxAttempts now leaseUntil lockedElsewhere candidate = .ok (t', claim)) :
    WritesOnly candidate.id t t' ∧ (∀ c ∈ claim, c.action.id = candidate.id) ∧
      ∀ row, t.actions.get candidate.id = some row →
        ∃ row', t'.actions.get candidate.id = some row' ∧
          ClaimStep t.sagas workerId maxAttempts now leaseUntil row row' claim := by
  unfold claimOne at h
  split_ifs at h with hskip
  · cases h
    exact ⟨WritesOnly.refl _ t, fun c hc => absurd hc (not_mem_none c),
      fun row hrow => ⟨row, hrow, .unchanged⟩⟩
  cases hread : (t.actions.get candidate.id).filter (dueClaimCondition t.sagas now) with
  | none =>
    rw [hread] at h
    cases h
    exact ⟨WritesOnly.refl _ t, fun c hc => absurd hc (not_mem_none c),
      fun row hrow => ⟨row, hrow, .unchanged⟩⟩
  | some current =>
    rw [hread] at h
    obtain ⟨hcurrent, hdue⟩ := filter_eq_some_iff.mp hread
    have hid : current.id = candidate.id := Keyed.key_of_get hcurrent
    rw [← hid] at hcurrent ⊢
    dsimp only at h
    split_ifs at h with hexhausted
    · obtain ⟨t'', hfailed, h⟩ := of_bind h
      cases h
      obtain ⟨-, hfailed⟩ := of_ensure hfailed
      cases hfailed
      refine ⟨writesOnly_updateRows (fun _ h => isCandidate_id h) fun _ => rfl,
        fun c hc => absurd hc (not_mem_none c), fun row hrow => ?_⟩
      obtain rfl := some.inj (hrow.symm.trans hcurrent)
      exact ⟨_, get_updateRows_candidate hdue hcurrent, .exhaust _ hdue rfl rfl rfl rfl⟩
    · have hbudget : WithinBudget maxAttempts current := by
        by_cases hlt : current.attempts < maxAttempts
        · exact Or.inl hlt
        · refine withinBudget_of_isRecoverable (t := t) (Bool.not_eq_false _ |>.mp fun hfalse => ?_)
          exact hexhausted ⟨not_lt.mp hlt, hfalse⟩
      have hepoch := (of_ensure h).1
      rw [claimCandidate_eq hdue hcurrent hepoch] at h
      cases h
      refine ⟨writesOnly_updateRows (fun _ h => isCandidate_id h) fun _ => rfl, fun c hc => ?_,
        fun row hrow => ?_⟩
      · cases hc
        rfl
      · obtain rfl := some.inj (hrow.symm.trans hcurrent)
        exact ⟨_, get_updateRows_candidate hdue hcurrent, .claim hdue hbudget⟩

def claimsOn (id : Text) (claims : List ClaimedLifecycleAction) : List ClaimedLifecycleAction :=
  claims.filter fun claim => claim.action.id == id

theorem claimsOn_toList {claim : Option ClaimedLifecycleAction} {id' : Text}
    (h : ∀ c ∈ claim, c.action.id = id') :
    claimsOn id claim.toList = if id = id' then claim.toList else [] := by
  cases claim with
  | none => simp [claimsOn]
  | some c =>
    have hid : c.action.id = id' := h c rfl
    unfold claimsOn
    rw [toList_some, filter_cons, filter_nil, hid]
    by_cases heq : id = id'
    · rw [if_pos heq, if_pos (beq_iff_eq.mpr heq.symm)]
    · rw [if_neg heq, if_neg fun h => heq (beq_iff_eq.mp h).symm]

/-- **The loop** goes through rows with distinct ids, so each row takes one step. -/
theorem claimAll_spec {candidates : List LifecycleActionRow}
    (hnodup : (candidates.map LifecycleActionRow.id).Nodup)
    (h : claimAll workerId maxAttempts now leaseUntil lockedElsewhere candidates t =
      .ok (t', claims)) (hrow : t.actions.get id = some row) :
    ∃ row' claim, t'.actions.get id = some row' ∧ claimsOn id claims = claim.toList ∧
      ClaimStep t.sagas workerId maxAttempts now leaseUntil row row' claim ∧
      (id ∉ candidates.map LifecycleActionRow.id → row' = row ∧ claim = none) := by
  -- induction on the candidates: at most one of them is the row
  induction candidates generalizing t row claims with
  | nil =>
    cases h
    exact ⟨row, none, hrow, rfl, .unchanged, fun _ => ⟨rfl, rfl⟩⟩
  | cons candidate candidates ih =>
    rw [map_cons, nodup_cons] at hnodup
    obtain ⟨⟨t₁, claim₁⟩, hone, h⟩ := of_bind h
    obtain ⟨⟨t₂, claims₂⟩, hall, h⟩ := of_bind h
    cases h
    obtain ⟨hwrites, hids, hrows⟩ := claimOne_spec hone
    have hclaims : claimsOn id (claim₁.toList ++ claims₂) =
        (if id = candidate.id then claim₁.toList else []) ++ claimsOn id claims₂ := by
      rw [← claimsOn_toList hids]
      exact filter_append ..
    rw [hclaims]
    by_cases hid : id = candidate.id
    · subst hid
      obtain ⟨row₁, hrow₁, hstep⟩ := hrows row hrow
      obtain ⟨row₂, claim₂, hrow₂, hclaims₂, -, hframe⟩ := ih hnodup.2 hall hrow₁
      obtain ⟨rfl, rfl⟩ := hframe hnodup.1
      refine ⟨row₂, claim₁, hrow₂, ?_, hstep, fun hnot => absurd mem_cons_self hnot⟩
      rw [if_pos rfl, hclaims₂, toList_none, append_nil]
    · obtain ⟨row₂, claim₂, hrow₂, hclaims₂, hstep₂, hframe⟩ :=
        ih hnodup.2 hall ((hwrites.frame id hid).trans hrow)
      refine ⟨row₂, claim₂, hrow₂, ?_, hwrites.sagas_eq ▸ hstep₂,
        fun hnot => hframe fun hmem => hnot (mem_cons_of_mem _ hmem)⟩
      rw [if_neg hid, nil_append, hclaims₂]

end Claiming

theorem nodup_dueCandidates (t : ActionTables) (now : ℤ) (limit : ℕ) :
    ((t.dueCandidates now limit).map LifecycleActionRow.id).Nodup := by
  have hrows : ((t.actions.rows.filter (dueClaimCondition t.sagas now)).map
      LifecycleActionRow.id).Nodup := (filter_sublist.map _).nodup t.actions.nodup
  have hsorted := ((sortBy_perm (fun row : LifecycleActionRow => toLex (row.dueAt, row.id))
    (t.actions.rows.filter (dueClaimCondition t.sagas now))).map LifecycleActionRow.id).nodup_iff.mpr
      hrows
  exact ((take_sublist limit _).map _).nodup hsorted

/-! ## One transaction -/

/-- **What one transaction can do to a row**, with the claim on it that it hands out. -/
inductive RowStep (sagas : List TransitionSaga) (op : ActionOperation) (row : LifecycleActionRow) :
    LifecycleActionRow → Option ClaimedLifecycleAction → Prop where
  | unchanged : RowStep sagas op row row none
  | discover (workerId : Text) (leaseFor maxAttempts : ℤ) (limit : ℕ) (discoveredAt now : ℤ)
      (lockedElsewhere : List Text) (leaseUntil : ℤ) (row' : LifecycleActionRow)
      (claim : Option ClaimedLifecycleAction)
      (hop : op = .claimDue workerId leaseFor maxAttempts limit discoveredAt now lockedElsewhere)
      (hstep : ClaimStep sagas workerId maxAttempts now leaseUntil row row' claim) :
      RowStep sagas op row row' claim
  | settle (claim : ClaimedLifecycleAction) (row' : LifecycleActionRow)
      (hop : op.claim = some claim) (hactive : activeClaimCondition claim row = true)
      (hepoch : row'.claimEpoch = row.claimEpoch) : RowStep sagas op row row' none

def handedOut (t : ActionTables) (op : ActionOperation) : List ClaimedLifecycleAction :=
  match transactAction t op with
  | .ok (_, claims) => claims
  | .error _ => []

def actionStep (t : ActionTables) (op : ActionOperation) : AppResult ActionTables := do
  let (t, _) ← transactAction t op
  .ok t

theorem rowStep_of_transactAction (h : transactAction t op = .ok (t', claims))
    (hrow : t.actions.get id = some row) :
    ∃ row' claim, t'.actions.get id = some row' ∧ claimsOn id claims = claim.toList ∧
      RowStep t.sagas op row row' claim := by
  cases hclaim : op.claim with
  | some claim =>
    obtain ⟨⟨kind, hpresents⟩, rfl⟩ := presents_of_transactAction hclaim h
    obtain ⟨row', hrow', heq | ⟨hactive, hsame, -⟩⟩ := hpresents.exists_get hrow
    · exact ⟨row', none, hrow', rfl, heq ▸ .unchanged⟩
    · exact ⟨row', none, hrow', rfl, .settle claim row' hclaim hactive hsame.claimEpoch_eq⟩
  | none =>
    cases op with
    | claimDue workerId leaseFor maxAttempts limit discoveredAt now lockedElsewhere =>
      obtain ⟨⟨⟩, -, h⟩ := of_bind h
      obtain ⟨-, h⟩ := of_ensure h
      obtain ⟨leaseUntil, -, h⟩ := of_bind h
      obtain ⟨row', claim, hrow', hclaims, hstep, -⟩ :=
        claimAll_spec (nodup_dueCandidates t discoveredAt limit) h hrow
      exact ⟨row', claim, hrow', hclaims, .discover workerId leaseFor maxAttempts limit discoveredAt
        now lockedElsewhere leaseUntil row' claim rfl hstep⟩
    | writeOthers buckets sagas =>
      cases h
      exact ⟨row, none, hrow, rfl, .unchanged⟩
    | _ => cases hclaim

/-- **One transaction**, committed or rolled back, takes one step of every row. -/
theorem rowStep_commit (op : ActionOperation) (hrow : t.actions.get id = some row) :
    ∃ row' claim, (commit actionStep t op).actions.get id = some row' ∧
      claimsOn id (handedOut t op) = claim.toList ∧ RowStep t.sagas op row row' claim := by
  unfold commit actionStep handedOut
  cases h : transactAction t op with
  | error e => exact ⟨row, none, hrow, rfl, .unchanged⟩
  | ok result => exact rowStep_of_transactAction h hrow

section RowStep

variable {sagas : List TransitionSaga} {claim : Option ClaimedLifecycleAction}

theorem RowStep.of_claim {claim : ClaimedLifecycleAction}
    (h : RowStep sagas op row row' (some claim)) :
    row.claimEpoch < row'.claimEpoch ∧ claim = ⟨row', row'.claimEpoch, claim.workerId⟩ ∧
      ∃ leaseUntil, row'.state = .claimed claim.workerId leaseUntil := by
  cases h with
  | discover _ _ _ _ _ now _ leaseUntil row' _ hop hstep =>
    cases hstep with
    | claim hdue => exact ⟨Int.lt_succ row.claimEpoch, rfl, leaseUntil, rfl⟩

theorem RowStep.claimEpoch_eq (h : RowStep sagas op row row' none) :
    row'.claimEpoch = row.claimEpoch := by
  cases h with
  | unchanged => rfl
  | settle claim row' hop hactive hepoch => exact hepoch
  | discover _ _ _ _ _ now _ leaseUntil row' _ hop hstep =>
    cases hstep with
    | unchanged => rfl
    | exhaust row' hdue hstate hepoch hkind hattempts => exact hepoch

section

variable (h : RowStep sagas op row row' claim)

include h

theorem RowStep.claimEpoch_le :
    row.claimEpoch ≤ row'.claimEpoch := by
  cases claim with
  | none => exact h.claimEpoch_eq.ge
  | some claim => exact h.of_claim.1.le

theorem RowStep.eq_of_not_active {presented : ClaimedLifecycleAction}
    (hop : op.claim = some presented) (hactive : activeClaimCondition presented row = false) :
    row' = row := by
  cases h with
  | unchanged => rfl
  | settle presented' row' hop' hactive' hepoch =>
    cases hop.symm.trans hop'
    rw [hactive] at hactive'
    cases hactive'
  | discover _ _ _ _ _ now _ leaseUntil row' _ hop' hstep =>
    rw [hop'] at hop
    cases hop

theorem RowStep.eq_of_finished (hdue : ∀ now, dueClaimCondition sagas now row = false)
    (hclaimed : ∀ workerId leaseUntil, row.state ≠ .claimed workerId leaseUntil) :
    row' = row ∧ claim = none := by
  cases h with
  | unchanged => exact ⟨rfl, rfl⟩
  | settle presented row' hop hactive hepoch =>
    obtain ⟨-, ⟨leaseUntil, hstate⟩, -⟩ := activeClaimCondition_iff.mp hactive
    exact absurd hstate (hclaimed _ _)
  | discover _ _ _ _ _ now _ leaseUntil row' _ hop hstep =>
    cases hstep with
    | unchanged => exact ⟨rfl, rfl⟩
    | claim hdue' =>
      rw [hdue now] at hdue'
      cases hdue'
    | exhaust row' hdue' hstate hepoch hkind hattempts =>
      rw [hdue now] at hdue'
      cases hdue'

theorem RowStep.of_failedSafe {finishedAt : ℤ} (hstate : row.state = .failedSafe finishedAt)
    (hleft : ∀ finishedAt', row'.state ≠ .failedSafe finishedAt') :
    isTransitionAction row = true ∧ unfinishedTransitionSagaExists sagas row = true ∧
      claim.isSome = true := by
  cases h with
  | unchanged => exact absurd hstate (hleft finishedAt)
  | settle presented row' hop hactive hepoch =>
    obtain ⟨-, ⟨leaseUntil, hclaimed⟩, -⟩ := activeClaimCondition_iff.mp hactive
    rw [hstate] at hclaimed
    cases hclaimed
  | discover _ _ _ _ _ now _ leaseUntil row' _ hop hstep =>
    cases hstep with
    | unchanged => exact absurd hstate (hleft finishedAt)
    | exhaust row' hdue hfailed hepoch hkind hattempts => exact absurd hfailed (hleft now)
    | claim hdue hbudget =>
      unfold dueClaimCondition at hdue
      rw [hstate] at hdue
      obtain ⟨htransition, hsaga⟩ := Bool.and_eq_true_iff.mp hdue
      exact ⟨htransition, hsaga, rfl⟩

end

end RowStep

/-! ## Runs -/

def rowAfter (t : ActionTables) (ops : List ActionOperation) (id : Text) :
    Option LifecycleActionRow :=
  (run actionStep t ops).actions.get id

/-- The claims on an action that a transaction hands out after a run. -/
def claimsAfter (t : ActionTables) (ops : List ActionOperation) (op : ActionOperation) (id : Text) :
    List ClaimedLifecycleAction :=
  claimsOn id (handedOut (run actionStep t ops) op)

/-- **Fenced claims**, over all runs from a state of the tables. -/
structure ClaimsFenced (t : ActionTables) (id : Text) : Prop where
  /-- A claim is handed out with an epoch greater than that of the row before it. -/
  claim_epoch : ∀ ops op, ∀ claim ∈ claimsAfter t ops op id, ∃ row row',
    rowAfter t ops id = some row ∧ rowAfter t (ops ++ [op]) id = some row' ∧
      row.claimEpoch < row'.claimEpoch ∧ claim = ⟨row', row'.claimEpoch, claim.workerId⟩ ∧
      ∃ leaseUntil, row'.state = .claimed claim.workerId leaseUntil
  /-- Epochs never decrease. -/
  epoch_le : ∀ ops ops' row row', rowAfter t ops id = some row →
    rowAfter t (ops ++ ops') id = some row' → row.claimEpoch ≤ row'.claimEpoch
  /-- An operation that presents a claim changes the row only if the row carries the claim. -/
  presented : ∀ ops op claim row, op.claim = some claim → rowAfter t ops id = some row →
    rowAfter t (ops ++ [op]) id ≠ some row → row.id = claim.action.id ∧
      (∃ leaseUntil, row.state = .claimed claim.workerId leaseUntil) ∧
      row.claimEpoch = claim.claimEpoch
  /-- Once a row has been claimed again, the operations of the earlier claim have no effect. -/
  superseded : ∀ ops op ops' op', ∀ claim ∈ claimsAfter t ops op id,
    claimsAfter t (ops ++ op :: ops') op' id ≠ [] → ∀ ops'' op'', op''.claim = some claim →
      rowAfter t (ops ++ op :: ops' ++ op' :: ops'' ++ [op'']) id =
        rowAfter t (ops ++ op :: ops' ++ op' :: ops'') id
  /-- A row with a lease that has not expired is not claimed. -/
  leased : ∀ ops row claimedBy leaseUntil, rowAfter t ops id = some row →
    row.state = .claimed claimedBy leaseUntil →
    ∀ workerId leaseFor maxAttempts limit discoveredAt now lockedElsewhere, now < leaseUntil →
      claimsAfter t ops (.claimDue workerId leaseFor maxAttempts limit discoveredAt now
        lockedElsewhere) id = []
  /-- A row that succeeded or was cancelled stays as it is. -/
  absorbing : ∀ ops row finishedAt, rowAfter t ops id = some row →
    row.state = .succeeded finishedAt ∨ row.state = .cancelled finishedAt →
    ∀ ops', rowAfter t (ops ++ ops') id = some row
  /-- A row that failed safe leaves that state by a claim of a transition with an unfinished saga. -/
  failedSafe : ∀ ops op row row' finishedAt, rowAfter t ops id = some row →
    row.state = .failedSafe finishedAt → rowAfter t (ops ++ [op]) id = some row' →
    (∀ finishedAt', row'.state ≠ .failedSafe finishedAt') → isTransitionAction row = true ∧
      unfinishedTransitionSagaExists (run actionStep t ops).sagas row = true ∧
      claimsAfter t ops op id ≠ []

section Runs

variable {ops : List ActionOperation}

theorem rowStep_append (op : ActionOperation) (hrow : rowAfter t ops id = some row) :
    ∃ row' claim, rowAfter t (ops ++ [op]) id = some row' ∧
      claimsAfter t ops op id = claim.toList ∧
      RowStep (run actionStep t ops).sagas op row row' claim := by
  unfold rowAfter
  rw [run_append]
  exact rowStep_commit op hrow

theorem exists_rowAfter (hrow : t.actions.get id = some row) (ops : List ActionOperation) :
    ∃ row', rowAfter t ops id = some row' := by
  -- induction from the last transaction, since each one continues a run
  induction ops using reverseRecOn with
  | nil => exact ⟨row, hrow⟩
  | append_singleton ops op ih =>
    obtain ⟨row', hrow'⟩ := ih
    obtain ⟨row'', -, hrow'', -⟩ := rowStep_append op hrow'
    exact ⟨row'', hrow''⟩

theorem claimEpoch_le_of_run (hrow : rowAfter t ops id = some row) (ops' : List ActionOperation) :
    ∃ row', rowAfter t (ops ++ ops') id = some row' ∧ row.claimEpoch ≤ row'.claimEpoch := by
  induction ops' using reverseRecOn with
  | nil => exact ⟨row, by rw [append_nil, hrow], le_rfl⟩
  | append_singleton ops' op ih =>
    obtain ⟨row', hrow', hle⟩ := ih
    obtain ⟨row'', claim, hrow'', -, hstep⟩ := rowStep_append op hrow'
    rw [append_assoc] at hrow''
    exact ⟨row'', hrow'', hle.trans hstep.claimEpoch_le⟩

theorem of_mem_claimsAfter (hrow : t.actions.get id = some row)
    (hclaim : claim ∈ claimsAfter t ops op id) :
    ∃ row row', rowAfter t ops id = some row ∧ rowAfter t (ops ++ [op]) id = some row' ∧
      row.claimEpoch < row'.claimEpoch ∧ claim = ⟨row', row'.claimEpoch, claim.workerId⟩ ∧
      ∃ leaseUntil, row'.state = .claimed claim.workerId leaseUntil := by
  obtain ⟨row₁, hrow₁⟩ := exists_rowAfter hrow ops
  obtain ⟨row₂, claim', hrow₂, hclaims, hstep⟩ := rowStep_append op hrow₁
  rw [hclaims, mem_toList] at hclaim
  subst hclaim
  exact ⟨row₁, row₂, hrow₁, hrow₂, hstep.of_claim⟩

theorem rowAfter_of_claimEpoch_ne (hop : op.claim = some claim)
    (hrow : rowAfter t ops id = some row) (hne : row.claimEpoch ≠ claim.claimEpoch) :
    rowAfter t (ops ++ [op]) id = some row := by
  obtain ⟨row', _, hrow', -, hstep⟩ := rowStep_append op hrow
  have hactive : activeClaimCondition claim row = false := by
    rw [Bool.eq_false_iff]
    exact fun h => hne (activeClaimCondition_iff.mp h).2.2
  rw [hrow', hstep.eq_of_not_active hop hactive]

/-- **Lifecycle action claims are fenced.**  Over all runs of claims, renewals, retries, dependency
parking and terminal updates by any workers, with any clock readings. -/
theorem claims_fenced (hrow : t.actions.get id = some row) : ClaimsFenced t id where
  claim_epoch ops op claim hclaim := of_mem_claimsAfter hrow hclaim
  epoch_le ops ops' row row' hrow hrow' := by
    obtain ⟨row'', hrow'', hle⟩ := claimEpoch_le_of_run hrow ops'
    rwa [some.inj (hrow'.symm.trans hrow'')]
  presented ops op claim row hop hrow hchanged := by
    obtain ⟨row', _, hrow', -, hstep⟩ := rowStep_append op hrow
    rw [← activeClaimCondition_iff]
    by_contra hactive
    rw [hrow', hstep.eq_of_not_active hop (Bool.eq_false_iff.mpr hactive)] at hchanged
    exact hchanged rfl
  superseded ops op ops' op' claim hclaim hreclaimed ops'' op'' hop := by
    obtain ⟨-, row₁, -, hrow₁, -, hepoch, -⟩ := of_mem_claimsAfter hrow hclaim
    obtain ⟨claim', hclaim'⟩ := exists_mem_of_ne_nil _ hreclaimed
    obtain ⟨row₂, row₃, hrow₂, hrow₃, hlt, -⟩ := of_mem_claimsAfter hrow hclaim'
    -- the epoch of the claim, that of the row before the second claim, and that of any later row
    obtain ⟨row₂', hrow₂', hle⟩ := claimEpoch_le_of_run hrow₁ ops'
    rw [append_assoc, singleton_append] at hrow₂'
    cases hrow₂.symm.trans hrow₂'
    obtain ⟨row₄, hrow₄, hle'⟩ := claimEpoch_le_of_run hrow₃ ops''
    rw [append_assoc, singleton_append] at hrow₄
    rw [hrow₄]
    refine rowAfter_of_claimEpoch_ne hop hrow₄ ?_
    have hclaimEpoch : claim.claimEpoch = row₁.claimEpoch := congrArg (·.claimEpoch) hepoch
    omega
  leased ops row claimedBy leaseUntil hrow hstate workerId leaseFor maxAttempts limit discoveredAt now
      lockedElsewhere hlt := by
    obtain ⟨row', claim, -, hclaims, hstep⟩ := rowStep_append
      (.claimDue workerId leaseFor maxAttempts limit discoveredAt now lockedElsewhere) hrow
    rw [hclaims]
    cases claim with
    | none => rfl
    | some claim =>
      cases hstep with
      | discover _ _ _ _ _ _ _ leaseUntil' row' _ hop hstep =>
        cases hop
        cases hstep with
        | claim hdue hbudget =>
          unfold dueClaimCondition at hdue
          rw [hstate] at hdue
          exact absurd (of_decide_eq_true (Bool.and_eq_true_iff.mp hdue).1) (not_le.mpr hlt)
  absorbing ops row finishedAt hrow hstate ops' := by
    induction ops' using reverseRecOn with
    | nil => rw [append_nil, hrow]
    | append_singleton ops' op ih =>
      obtain ⟨row', claim, hrow', -, hstep⟩ := rowStep_append op ih
      rw [← append_assoc, hrow']
      have hfinished := hstep.eq_of_finished
        (by rcases hstate with hstate | hstate <;> simp [dueClaimCondition, hstate])
        (by rcases hstate with hstate | hstate <;> simp [hstate])
      rw [hfinished.1]
  failedSafe ops op row row' finishedAt hrow hstate hrow' hleft := by
    obtain ⟨row'', claim, hrow'', hclaims, hstep⟩ := rowStep_append op hrow
    cases hrow'.symm.trans hrow''
    obtain ⟨htransition, hsaga, hclaim⟩ := hstep.of_failedSafe hstate hleft
    obtain ⟨claim, rfl⟩ := isSome_iff_exists.mp hclaim
    exact ⟨htransition, hsaga, by rw [hclaims]; simp⟩

/-- An action as the scheduler inserts it. -/
def sampleAction : LifecycleActionRow :=
  ⟨[97], [98], [107], 1, [114], .expireNoncurrent, .version [49] [110] none 1, 0, .pending, 0, 0, 0,
    none, none, 0, 0⟩

def sampleTables : ActionTables :=
  ⟨[[98]], [], Keyed.empty.insert sampleAction rfl⟩

/-- A worker claims the action, its lease expires, and another worker claims it with the next
epoch. -/
theorem claims_fenced_sampleTables :
    ClaimsFenced sampleTables [97] ∧
      (rowAfter sampleTables [.claimDue [119] 5 8 1 0 0 [], .claimDue [120] 5 8 1 5 5 []]
        [97]).map (fun row => (row.claimEpoch, row.state)) = some (2, .claimed [120] 10) := by
  have hrow : sampleTables.actions.get [97] = some sampleAction := by decide
  exact ⟨claims_fenced hrow, by decide +kernel⟩

end Runs

end IpfS3.Lifecycle
