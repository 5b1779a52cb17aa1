import IpfS3.Lifecycle.Fencing

/-!
# Attempts

A claim of an action is charged when it is handed out, and a worker that meets a dependency gives the
charge back when it parks the action.  From then on the action is probed: the claim of a waiting row
is not charged, and only a failure of the probe is.

`Workers` are the tables with the claims that have been handed out on them, under one cap on the
attempts.  An operation that presents a claim takes an `AttemptStep` of a row, and a transaction a
`WorkStep` of the row and the claims on it.
-/

namespace IpfS3.Lifecycle

open Fallible Table Transactions ActionTables Option

/-! ## Operations of a worker -/

namespace ActionTables

variable (t : ActionTables)

/-- `fail_safe`, without the mutation guard that it clears. -/
def failSafe (claim : ClaimedLifecycleAction) (failureClass : FailureClass) (lockedAt now : ℤ) :
    AppResult ActionTables :=
  match t.lockClaimForExecution claim lockedAt with
  | none => .ok t
  | some _ => do
    let result ← t.markFailedSafe claim now failureClass
    settled result

def retryOrFailSafe (claim : ClaimedLifecycleAction) (settings : ExecutionSettings)
    (failureClass : FailureClass) (lockedAt now : ℤ) : AppResult ActionTables :=
  t.settlePostAdmissionFailure claim settings failureClass true lockedAt now

end ActionTables

inductive ClaimOperation where
  | renewClaim (leaseFor lockedAt now : ℤ)
  | retryOrFailSafe (baseBackoffSecs maxBackoffSecs : ℕ) (failureClass : FailureClass)
      (lockedAt now : ℤ)
  | settlePostAdmissionFailure (baseBackoffSecs maxBackoffSecs : ℕ) (failureClass : FailureClass)
      (retry : Bool) (lockedAt now : ℤ)
  | failSafe (failureClass : FailureClass) (lockedAt now : ℤ)
  | waitForMutationDependency (lockedAt now : ℤ)
  | waitForTransition (lockedAt now : ℤ)
  | markSucceeded (now : ℤ)
  | markCancelled (now : ℤ) (failureClass : FailureClass)
  | markFailedSafe (now : ℤ) (failureClass : FailureClass)
  deriving DecidableEq

def ClaimOperation.isPark : ClaimOperation → Bool
  | .waitForMutationDependency .. | .waitForTransition .. => true
  | _ => false

/-- The settlements of a failed execution. -/
def ClaimOperation.isFailure : ClaimOperation → Bool
  | .retryOrFailSafe .. | .settlePostAdmissionFailure .. => true
  | _ => false

/-- One operation on a claim, by a worker with a cap on the attempts. -/
def applyOperation (maxAttempts : ℤ) (t : ActionTables) (claim : ClaimedLifecycleAction) :
    ClaimOperation → AppResult ActionTables
  | .renewClaim leaseFor lockedAt now => do
    let (t, _) ← t.renewClaim claim leaseFor lockedAt now
    .ok t
  | .retryOrFailSafe baseBackoffSecs maxBackoffSecs failureClass lockedAt now =>
    t.retryOrFailSafe claim ⟨maxAttempts, baseBackoffSecs, maxBackoffSecs⟩ failureClass lockedAt now
  | .settlePostAdmissionFailure baseBackoffSecs maxBackoffSecs failureClass retry lockedAt now =>
    t.settlePostAdmissionFailure claim ⟨maxAttempts, baseBackoffSecs, maxBackoffSecs⟩ failureClass
      retry lockedAt now
  | .failSafe failureClass lockedAt now => t.failSafe claim failureClass lockedAt now
  | .waitForMutationDependency lockedAt now =>
    .ok (t.waitForMutationDependency claim maxAttempts lockedAt now).1
  | .waitForTransition lockedAt now => do
    let (t, _) ← t.waitForTransition claim lockedAt now
    .ok t
  | .markSucceeded now => .ok (t.markSucceeded claim now).1
  | .markCancelled now failureClass => do
    let (t, _) ← t.markCancelled claim now failureClass
    .ok t
  | .markFailedSafe now failureClass => do
    let (t, _) ← t.markFailedSafe claim now failureClass
    .ok t

/-! ## Runs of workers -/

/-- The tables, the claims handed out so far, and those that a park has given back. -/
structure Workers where
  tables : ActionTables
  claims : List ClaimedLifecycleAction
  parked : List ClaimedLifecycleAction

/-- The transactions of workers.  The last one stands for those that write buckets and sagas. -/
inductive WorkerOperation where
  | claimDue (workerId : Text) (leaseFor : ℤ) (limit : ℕ) (discoveredAt now : ℤ)
      (lockedElsewhere : List Text)
  | present (claim : ClaimedLifecycleAction) (op : ClaimOperation)
  | writeOthers (buckets : List Text) (sagas : List TransitionSaga)

/-- One transaction of a worker.  A worker presents a claim that it was handed out, at any later
time. -/
def transactWorker (maxAttempts : ℤ) (w : Workers) : WorkerOperation → AppResult Workers
  | .claimDue workerId leaseFor limit discoveredAt now lockedElsewhere => do
    let (t, claims) ←
      w.tables.claimDue workerId leaseFor maxAttempts limit discoveredAt now lockedElsewhere
    .ok ⟨t, w.claims ++ claims, w.parked⟩
  | .present claim op => do
    ensure (w.claims.contains claim = true) .staleContentMutation
    let t ← applyOperation maxAttempts w.tables claim op
    .ok ⟨t, w.claims,
      if op.isPark = true ∧
          t.actions.get claim.action.id ≠ w.tables.actions.get claim.action.id then
        w.parked ++ [claim]
      else w.parked⟩
  | .writeOthers buckets sagas =>
    .ok ⟨⟨buckets, sagas, w.tables.actions⟩, w.claims, w.parked⟩

/-- The workers after a run from tables on which no claim is held. -/
def workersAfter (maxAttempts : ℤ) (t : ActionTables) (ops : List WorkerOperation) : Workers :=
  run (transactWorker maxAttempts) ⟨t, [], []⟩ ops

def actionAfter (maxAttempts : ℤ) (t : ActionTables) (ops : List WorkerOperation) (id : Text) :
    Option LifecycleActionRow :=
  (workersAfter maxAttempts t ops).tables.actions.get id

/-- The claims that are charged: neither probes nor given back. -/
def charged (claims parked : List ClaimedLifecycleAction) : List ClaimedLifecycleAction :=
  claims.filter fun claim => !waitingForDependency claim.action && !parked.contains claim

/-! ## Operations on a row -/

/-- **What an operation on a claim does to a row.**  It parks the row if it is a park, and retries it
only as a failure below the cap. -/
inductive AttemptStep (maxAttempts : ℤ) (claim : ClaimedLifecycleAction) (op : ClaimOperation)
    (row : LifecycleActionRow) : LifecycleActionRow → Prop where
  | unchanged : AttemptStep maxAttempts claim op row row
  | settled (row' : LifecycleActionRow) (kind : Settlement)
      (hactive : activeClaimCondition claim row = true) (hsame : SameAction row row')
      (hstep : SettleStep claim row row' kind) (hpark : op.isPark = true ↔ kind = .parked)
      (hretry : kind = .retried → op.isFailure = true ∧ row.attempts < maxAttempts) :
      AttemptStep maxAttempts claim op row row'

/-- An operation on a claim takes a step of every row. -/
def Attempts (maxAttempts : ℤ) (claim : ClaimedLifecycleAction) (op : ClaimOperation)
    (t t' : ActionTables) : Prop :=
  ∀ id row, t.actions.get id = some row →
    ∃ row', t'.actions.get id = some row' ∧ AttemptStep maxAttempts claim op row row'

section Operations

variable {t t' : ActionTables} {claim : ClaimedLifecycleAction} {op : ClaimOperation}
  {maxAttempts lockedAt now : ℤ} {failureClass : FailureClass}

theorem Presents.attempts {kind : Settlement} (h : Presents claim kind t t')
    (hpark : op.isPark = true ↔ kind = .parked)
    (hretry : kind = .retried → op.isFailure = true ∧ ∀ row, t.actions.get row.id = some row →
      activeClaimCondition claim row = true → row.attempts < maxAttempts) :
    Attempts maxAttempts claim op t t' := by
  intro id row hrow
  obtain ⟨row', hrow', rfl | ⟨hactive, hsame, hstep⟩⟩ := h.exists_get hrow
  · exact ⟨row', hrow', .unchanged⟩
  · refine ⟨row', hrow', .settled row' kind hactive hsame hstep hpark fun hkind => ?_⟩
    exact ⟨(hretry hkind).1, (hretry hkind).2 row (Keyed.key_of_get hrow ▸ hrow) hactive⟩

theorem attempts_settlePostAdmissionFailure {settings : ExecutionSettings} {retry : Bool}
    (hop : op.isPark = false) (hfailure : op.isFailure = true)
    (h : t.settlePostAdmissionFailure claim settings failureClass retry lockedAt now = .ok t') :
    Attempts settings.maxAttempts claim op t t' := by
  rcases presents_settlePostAdmissionFailure h with hfinished | ⟨hretried, hbudget⟩
  · exact hfinished.attempts (by simp [hop]) nofun
  · exact hretried.attempts (by simp [hop]) fun _ => ⟨hfailure, hbudget⟩

theorem presents_failSafe (h : t.failSafe claim failureClass lockedAt now = .ok t') :
    Presents claim .finished t t' := by
  unfold ActionTables.failSafe at h
  split at h
  · cases h
    exact .refl
  · obtain ⟨⟨t'', done⟩, hfailed, h⟩ := of_bind h
    obtain rfl := of_settled h
    exact presents_terminalFailureUpdate rfl hfailed

/-- **Every operation on a claim** takes a step of every row. -/
theorem attempts_applyOperation (h : applyOperation maxAttempts t claim op = .ok t') :
    Attempts maxAttempts claim op t t' := by
  cases op with
  | renewClaim leaseFor lockedAt now =>
    obtain ⟨⟨t'', done⟩, hdone, h⟩ := of_bind h
    cases h
    exact (presents_renewClaim hdone).attempts ⟨nofun, nofun⟩ nofun
  | retryOrFailSafe baseBackoffSecs maxBackoffSecs failureClass lockedAt now =>
    have hsettled : t.settlePostAdmissionFailure claim
      ⟨maxAttempts, baseBackoffSecs, maxBackoffSecs⟩ failureClass true lockedAt now = .ok t' := h
    exact attempts_settlePostAdmissionFailure rfl rfl hsettled
  | settlePostAdmissionFailure baseBackoffSecs maxBackoffSecs failureClass retry lockedAt now =>
    have hsettled : t.settlePostAdmissionFailure claim
      ⟨maxAttempts, baseBackoffSecs, maxBackoffSecs⟩ failureClass retry lockedAt now = .ok t' := h
    exact attempts_settlePostAdmissionFailure rfl rfl hsettled
  | failSafe failureClass lockedAt now =>
    exact (presents_failSafe h).attempts ⟨nofun, nofun⟩ nofun
  | waitForMutationDependency lockedAt now =>
    cases h
    exact presents_waitForMutationDependency.attempts ⟨fun _ => rfl, fun _ => rfl⟩ nofun
  | waitForTransition lockedAt now =>
    obtain ⟨⟨t'', done⟩, hdone, h⟩ := of_bind h
    cases h
    exact (presents_waitForTransition hdone).attempts ⟨fun _ => rfl, fun _ => rfl⟩ nofun
  | markSucceeded now =>
    cases h
    exact presents_markSucceeded.attempts ⟨nofun, nofun⟩ nofun
  | markCancelled now failureClass =>
    obtain ⟨⟨t'', done⟩, hdone, h⟩ := of_bind h
    cases h
    exact (presents_terminalFailureUpdate rfl hdone).attempts ⟨nofun, nofun⟩ nofun
  | markFailedSafe now failureClass =>
    obtain ⟨⟨t'', done⟩, hdone, h⟩ := of_bind h
    cases h
    exact (presents_terminalFailureUpdate rfl hdone).attempts ⟨nofun, nofun⟩ nofun

end Operations

/-! ## One transaction -/

/-- What one transaction does to a row, to the claims on it and to those given back. -/
inductive WorkStep (maxAttempts : ℤ) (op : WorkerOperation) (row : LifecycleActionRow)
    (claims parked : List ClaimedLifecycleAction) :
    LifecycleActionRow → List ClaimedLifecycleAction → List ClaimedLifecycleAction → Prop where
  | unchanged : WorkStep maxAttempts op row claims parked row claims parked
  | claim (sagas : List TransitionSaga) (workerId : Text) (now leaseUntil : ℤ)
      (hdue : dueClaimCondition sagas now row = true) (hbudget : WithinBudget maxAttempts row) :
      WorkStep maxAttempts op row claims parked (claimedRow row workerId now leaseUntil row)
        (claims ++ [⟨claimedRow row workerId now leaseUntil row, row.claimEpoch + 1, workerId⟩])
        parked
  | exhaust (row' : LifecycleActionRow) (hstate : row'.state.isFinished = true)
      (hepoch : row'.claimEpoch = row.claimEpoch) (hkind : row'.actionKind = row.actionKind)
      (hattempts : row'.attempts = row.attempts) :
      WorkStep maxAttempts op row claims parked row' claims parked
  | present (claim : ClaimedLifecycleAction) (claimOp : ClaimOperation) (row' : LifecycleActionRow)
      (hop : op = .present claim claimOp) (hclaim : claim ∈ claims)
      (hstep : AttemptStep maxAttempts claim claimOp row row') :
      WorkStep maxAttempts op row claims parked row' claims
        (if claimOp.isPark = true ∧ row' ≠ row then parked ++ [claim] else parked)

section WorkStep

variable {maxAttempts : ℤ} {w w' : Workers} {op : WorkerOperation} {id : Text}
  {row row' : LifecycleActionRow} {claims claims' parked parked' : List ClaimedLifecycleAction}

theorem mem_claimsOn {claim : ClaimedLifecycleAction} :
    claim ∈ claimsOn id claims ↔ claim ∈ claims ∧ claim.action.id = id := by
  rw [claimsOn, List.mem_filter, beq_iff_eq]

theorem claimsOn_append (l l' : List ClaimedLifecycleAction) :
    claimsOn id (l ++ l') = claimsOn id l ++ claimsOn id l' := List.filter_append ..

/-- **One transaction** takes one step of every row. -/
theorem workStep_of_transactWorker (h : transactWorker maxAttempts w op = .ok w')
    (hrow : w.tables.actions.get id = some row) :
    ∃ row', w'.tables.actions.get id = some row' ∧
      WorkStep maxAttempts op row (claimsOn id w.claims) (claimsOn id w.parked) row'
        (claimsOn id w'.claims) (claimsOn id w'.parked) := by
  cases op with
  | claimDue workerId leaseFor limit discoveredAt now lockedElsewhere =>
    obtain ⟨⟨t, claims⟩, hclaimed, h⟩ := of_bind h
    cases h
    obtain ⟨⟨⟩, -, hclaimed⟩ := of_bind hclaimed
    obtain ⟨-, hclaimed⟩ := of_ensure hclaimed
    obtain ⟨leaseUntil, -, hclaimed⟩ := of_bind hclaimed
    obtain ⟨row', claim, hrow', hclaims, hstep, -⟩ :=
      claimAll_spec (nodup_dueCandidates w.tables discoveredAt limit) hclaimed hrow
    refine ⟨row', hrow', ?_⟩
    rw [claimsOn_append, hclaims]
    cases hstep with
    | unchanged =>
      rw [toList_none, List.append_nil]
      exact .unchanged
    | claim hdue hbudget => exact .claim _ workerId now leaseUntil hdue hbudget
    | exhaust row' hdue hstate hepoch hkind hattempts =>
      rw [toList_none, List.append_nil]
      exact .exhaust row' (by rw [hstate]; rfl) hepoch hkind hattempts
  | present claim claimOp =>
    obtain ⟨hknown, h⟩ := of_ensure h
    obtain ⟨t, happlied, h⟩ := of_bind h
    cases h
    obtain ⟨row', hrow', hstep⟩ := attempts_applyOperation happlied id row hrow
    refine ⟨row', hrow', ?_⟩
    by_cases hid : claim.action.id = id
    · subst hid
      have hclaim : claim ∈ claimsOn claim.action.id w.claims :=
        mem_claimsOn.mpr ⟨List.contains_iff_mem.mp hknown, rfl⟩
      have hchanged : t.actions.get claim.action.id ≠ w.tables.actions.get claim.action.id ↔
          row' ≠ row := by
        rw [hrow, hrow']
        simp
      have hparked : claimsOn claim.action.id
          (if claimOp.isPark = true ∧ t.actions.get claim.action.id ≠
            w.tables.actions.get claim.action.id then w.parked ++ [claim] else w.parked) =
          if claimOp.isPark = true ∧ row' ≠ row then
            claimsOn claim.action.id w.parked ++ [claim] else claimsOn claim.action.id w.parked := by
        simp only [hchanged]
        split_ifs
        · rw [claimsOn_append]
          simp [claimsOn]
        · rfl
      rw [hparked]
      exact .present claim claimOp row' rfl hclaim hstep
    · -- the row does not carry a claim on another action
      have hother : ∀ {l : List ClaimedLifecycleAction} {p : Prop} [Decidable p],
          claimsOn id (if p then l ++ [claim] else l) = claimsOn id l := by
        intro l p _
        split_ifs
        · rw [claimsOn_append]
          simp [claimsOn, hid]
        · rfl
      rw [hother]
      have hinactive : ¬activeClaimCondition claim row = true := fun hactive =>
        hid ((activeClaimCondition_iff.mp hactive).1.symm.trans (Keyed.key_of_get hrow))
      cases hstep with
      | unchanged => exact .unchanged
      | settled _ _ hactive => exact absurd hactive hinactive
  | writeOthers buckets sagas =>
    cases h
    exact ⟨row, hrow, .unchanged⟩

theorem workStep_commit (op : WorkerOperation) (hrow : w.tables.actions.get id = some row) :
    ∃ row', (commit (transactWorker maxAttempts) w op).tables.actions.get id = some row' ∧
      WorkStep maxAttempts op row (claimsOn id w.claims) (claimsOn id w.parked) row'
        (claimsOn id (commit (transactWorker maxAttempts) w op).claims)
        (claimsOn id (commit (transactWorker maxAttempts) w op).parked) := by
  unfold commit
  cases h : transactWorker maxAttempts w op with
  | error e => exact ⟨row, hrow, .unchanged⟩
  | ok w' => exact workStep_of_transactWorker h hrow

end WorkStep

end IpfS3.Lifecycle
