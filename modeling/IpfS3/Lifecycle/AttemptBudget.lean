import IpfS3.Lifecycle.Attempts

/-!
# The budget of attempts

`Budget` is the invariant of a row, of the claims handed out on it and of those that a park has given
back: the attempts stay within one of the cap, every charged claim is counted in them, and a claim
that is still active has seen the attempts as they are.  `attempts_budget` is what follows for every
run of workers with one cap.

The cap does not bound the claims of an action by itself: a park takes the row below the cap again,
and a waiting row is probed for as long as it takes (`parked_at_cap_claimed_again`).
-/

namespace IpfS3.Lifecycle

open Fallible Table Transactions ActionTables List

variable {maxAttempts : ℤ} {op : WorkerOperation} {row row' : LifecycleActionRow}
  {claims claims' parked parked' : List ClaimedLifecycleAction} {claim : ClaimedLifecycleAction}

/-! ## Rows -/

def LifecycleActionRow.isClaimed (row : LifecycleActionRow) : Prop :=
  ∃ claimedBy leaseUntil, row.state = .claimed claimedBy leaseUntil

theorem isClaimed_of_active (h : activeClaimCondition claim row = true) : row.isClaimed := by
  obtain ⟨-, ⟨leaseUntil, hstate⟩, -⟩ := activeClaimCondition_iff.mp h
  exact ⟨claim.workerId, leaseUntil, hstate⟩

theorem not_isClaimed_of_isFinished (h : row.state.isFinished = true) : ¬row.isClaimed := by
  rintro ⟨claimedBy, leaseUntil, hstate⟩
  rw [hstate] at h
  exact absurd h Bool.false_ne_true

theorem not_isClaimed_of_pending (h : row.state = .pending) : ¬row.isClaimed := by
  rintro ⟨claimedBy, leaseUntil, hstate⟩
  rw [h] at hstate
  cases hstate

theorem ne_of_pending (hactive : activeClaimCondition claim row = true)
    (hstate : row'.state = .pending) : row' ≠ row := by
  rintro rfl
  exact not_isClaimed_of_pending hstate (isClaimed_of_active hactive)

theorem not_isFinished_of_due {sagas : List TransitionSaga} {now : ℤ}
    (hkind : isTransitionAction row = false) (h : dueClaimCondition sagas now row = true) :
    row.state.isFinished = false := by
  unfold dueClaimCondition at h
  cases hstate : row.state <;> simp_all [LifecycleActionState.isFinished]

theorem isTransitionAction_congr (h : row'.actionKind = row.actionKind) :
    isTransitionAction row' = isTransitionAction row := by
  rw [isTransitionAction, isTransitionAction, h]

theorem waitingForDependency_congr (hkind : row'.actionKind = row.actionKind)
    (htarget : row'.target = row.target) (hclass : row'.failureClass = row.failureClass) :
    waitingForDependency row' = waitingForDependency row := by
  simp only [waitingForDependency, waitingForTransition, hkind, htarget, hclass]

theorem saturate_eq {n : ℤ} (hle : -1 ≤ n) (hlt : n < 2 ^ 63) : saturate n = n := by
  unfold saturate
  omega

/-! ## The invariant -/

/-- **The budget of a row.** -/
structure Budget (maxAttempts : ℤ) (row : LifecycleActionRow)
    (claims parked : List ClaimedLifecycleAction) : Prop where
  nonTransition : isTransitionAction row = false
  nonneg : 0 ≤ row.attempts
  le_succ : row.attempts ≤ maxAttempts + 1
  pending_le : row.state = .pending → row.attempts ≤ maxAttempts
  /-- The claim that a worker holds is charged, unless it is a probe; probes stop at the cap. -/
  charged_pos : row.isClaimed → waitingForDependency row = false → 1 ≤ row.attempts
  probe_lt : row.isClaimed → waitingForDependency row = true → row.attempts < maxAttempts
  epoch_le : ∀ claim ∈ claims, claim.claimEpoch ≤ row.claimEpoch
  agrees : ∀ claim ∈ claims, activeClaimCondition claim row = true →
    claim.action.attempts = row.attempts ∧
      waitingForDependency claim.action = waitingForDependency row
  parked_subset : ∀ claim ∈ parked, claim ∈ claims
  parked_inactive : ∀ claim ∈ parked, ¬activeClaimCondition claim row = true
  charged_le : ((charged claims parked).length : ℤ) ≤ row.attempts

theorem mem_charged : claim ∈ charged claims parked ↔
    claim ∈ claims ∧ waitingForDependency claim.action = false ∧ claim ∉ parked := by
  simp [charged]

theorem length_charged_append_le :
    (charged (claims ++ [claim]) parked).length ≤ (charged claims parked).length +
      if waitingForDependency claim.action = true then 0 else 1 := by
  unfold charged
  rw [filter_append, length_append]
  cases hwaiting : waitingForDependency claim.action with
  | true => simp [hwaiting]
  | false =>
    have hle := length_filter_le
      (fun c : ClaimedLifecycleAction => !waitingForDependency c.action && !parked.contains c) [claim]
    simpa using hle

theorem length_charged_parked_lt (h : claim ∈ charged claims parked) :
    (charged claims (parked ++ [claim])).length < (charged claims parked).length := by
  have hfilter : charged claims (parked ++ [claim]) =
      (charged claims parked).filter fun c => !(parked ++ [claim]).contains c := by
    unfold charged
    rw [filter_filter]
    refine filter_congr fun c _ => ?_
    by_cases hmem : c ∈ parked <;> simp [hmem, Bool.and_comm]
  rw [hfilter, length_filter_lt_length_iff_exists]
  exact ⟨claim, h, by simp⟩

theorem length_charged_parked_le :
    (charged claims (parked ++ [claim])).length ≤ (charged claims parked).length := by
  refine List.Sublist.length_le (monotone_filter_right claims fun c hc => ?_)
  by_cases hmem : c ∈ parked <;> simp_all

namespace Budget

theorem initial (hkind : isTransitionAction row = false) (hmax : 1 ≤ maxAttempts)
    (hattempts : row.attempts = 0) (hstate : row.state = .pending) :
    Budget maxAttempts row [] [] where
  nonTransition := hkind
  nonneg := hattempts.ge
  le_succ := by omega
  pending_le _ := by omega
  charged_pos hclaimed := absurd hclaimed (not_isClaimed_of_pending hstate)
  probe_lt hclaimed := absurd hclaimed (not_isClaimed_of_pending hstate)
  epoch_le claim hclaim := absurd hclaim not_mem_nil
  agrees claim hclaim := absurd hclaim not_mem_nil
  parked_subset claim hclaim := absurd hclaim not_mem_nil
  parked_inactive claim hclaim := absurd hclaim not_mem_nil
  charged_le := hattempts.ge

section

variable (h : Budget maxAttempts row claims parked)

include h

theorem attempts_claimedRow (hmax : maxAttempts ≤ 8) (workerId : Text) (now leaseUntil : ℤ) :
    (claimedRow row workerId now leaseUntil row).attempts =
      row.attempts + if waitingForDependency row = true then 0 else 1 := by
  have hnonneg := h.nonneg
  have hle := h.le_succ
  exact saturate_eq (by split_ifs <;> omega) (by split_ifs <;> omega)

theorem consumedAttempts_eq (hmax : maxAttempts ≤ 8) :
    consumedAttempts row = row.attempts - if waitingForDependency row = true then 0 else 1 := by
  have hnonneg := h.nonneg
  have hle := h.le_succ
  exact saturate_eq (by split_ifs <;> omega) (by split_ifs <;> omega)

theorem attempts_retried (hclaim : claim ∈ claims)
    (hactive : activeClaimCondition claim row = true) :
    (claim.action.attempts + if waitingForDependency claim.action = true then 1 else 0) =
      row.attempts + if waitingForDependency row = true then 1 else 0 := by
  obtain ⟨hattempts, hwaiting⟩ := h.agrees claim hclaim hactive
  rw [hattempts, hwaiting]

theorem of_claim (hmax : maxAttempts ≤ 8) (workerId : Text) (now leaseUntil : ℤ)
    (hbudget : WithinBudget maxAttempts row) :
    Budget maxAttempts (claimedRow row workerId now leaseUntil row)
      (claims ++ [⟨claimedRow row workerId now leaseUntil row, row.claimEpoch + 1, workerId⟩])
      parked := by
  have hattempts := h.attempts_claimedRow hmax workerId now leaseUntil
  have hwaiting : waitingForDependency (claimedRow row workerId now leaseUntil row) =
      waitingForDependency row := rfl
  have hnonneg := h.nonneg
  -- an older claim has an epoch that the row has left
  have hold : ∀ c ∈ claims,
      ¬activeClaimCondition c (claimedRow row workerId now leaseUntil row) = true := by
    intro c hc hactive
    have hepoch : row.claimEpoch + 1 = c.claimEpoch := (activeClaimCondition_iff.mp hactive).2.2
    have hle := h.epoch_le c hc
    omega
  have hcases : row.attempts < maxAttempts ∨
      waitingForDependency row = false ∧ row.attempts = maxAttempts := by
    rcases hbudget with hlt | htransition | ⟨hnot, heq, -⟩
    · exact Or.inl hlt
    · rw [h.nonTransition] at htransition
      cases htransition
    · exact Or.inr ⟨hnot, heq⟩
  refine ⟨h.nonTransition, ?_, ?_, fun hstate => ?_, fun _ hnot => ?_, fun _ hprobe => ?_,
    fun c hc => ?_, fun c hc hactive => ?_, fun c hc => mem_append_left _ (h.parked_subset c hc),
    fun c hc => hold c (h.parked_subset c hc), ?_⟩
  · rw [hattempts]
    split_ifs <;> omega
  · rw [hattempts]
    rcases hcases with hlt | ⟨hnot, heq⟩
    · split_ifs <;> omega
    · rw [hnot, if_neg Bool.false_ne_true]
      omega
  · cases hstate
  · rw [hwaiting] at hnot
    rw [hattempts, hnot, if_neg Bool.false_ne_true]
    omega
  · rw [hwaiting] at hprobe
    rw [hattempts, hprobe, if_pos rfl]
    rcases hcases with hlt | ⟨hnot, -⟩
    · omega
    · rw [hprobe] at hnot
      cases hnot
  · rcases mem_append.mp hc with hc | hc
    · have hle := h.epoch_le c hc
      exact hle.trans (show row.claimEpoch ≤ row.claimEpoch + 1 by omega)
    · obtain rfl := mem_singleton.mp hc
      exact le_rfl
  · rcases mem_append.mp hc with hc | hc
    · exact absurd hactive (hold c hc)
    · obtain rfl := mem_singleton.mp hc
      exact ⟨rfl, rfl⟩
  · have hle := h.charged_le
    have happend := @length_charged_append_le claims parked
      ⟨claimedRow row workerId now leaseUntil row, row.claimEpoch + 1, workerId⟩
    rw [hwaiting] at happend
    rw [hattempts]
    split_ifs at happend ⊢ <;> omega

theorem release (hkind : row'.actionKind = row.actionKind)
    (hepoch : row'.claimEpoch = row.claimEpoch) (hreleased : ¬row'.isClaimed)
    (hnonneg : 0 ≤ row'.attempts) (hle : row'.attempts ≤ maxAttempts + 1)
    (hpending : row'.state = .pending → row'.attempts ≤ maxAttempts)
    (hsubset : ∀ c ∈ parked', c ∈ claims)
    (hcharged : ((charged claims parked').length : ℤ) ≤ row'.attempts) :
    Budget maxAttempts row' claims parked' where
  nonTransition := by rw [isTransitionAction_congr hkind, h.nonTransition]
  nonneg := hnonneg
  le_succ := hle
  pending_le := hpending
  charged_pos hclaimed := absurd hclaimed hreleased
  probe_lt hclaimed := absurd hclaimed hreleased
  epoch_le := by rw [hepoch]; exact h.epoch_le
  agrees c _ hactive := absurd (isClaimed_of_active hactive) hreleased
  parked_subset := hsubset
  parked_inactive c _ hactive := hreleased (isClaimed_of_active hactive)
  charged_le := hcharged

theorem finish (hkind : row'.actionKind = row.actionKind)
    (hepoch : row'.claimEpoch = row.claimEpoch) (hattempts : row'.attempts = row.attempts)
    (hstate : row'.state.isFinished = true) :
    Budget maxAttempts row' claims parked := by
  refine h.release hkind hepoch (not_isClaimed_of_isFinished hstate) ?_ ?_ (fun hpending => ?_)
    h.parked_subset ?_
  · rw [hattempts]
    exact h.nonneg
  · rw [hattempts]
    exact h.le_succ
  · rw [hpending] at hstate
    cases hstate
  · rw [hattempts]
    exact h.charged_le

theorem renew (hactive : activeClaimCondition claim row = true) (hsame : SameAction row row')
    (hattempts : row'.attempts = row.attempts) (hclass : row'.failureClass = row.failureClass)
    (hstate : ∃ leaseUntil, row'.state = .claimed claim.workerId leaseUntil) :
    Budget maxAttempts row' claims parked := by
  have hclaimed := isClaimed_of_active hactive
  have hwaiting : waitingForDependency row' = waitingForDependency row :=
    waitingForDependency_congr hsame.actionKind_eq hsame.target_eq hclass
  obtain ⟨hid, ⟨leaseUntil, hstate₀⟩, hepoch⟩ := activeClaimCondition_iff.mp hactive
  obtain ⟨leaseUntil', hstate'⟩ := hstate
  -- whatever claim the row carries after the renewal, it carried before
  have hactive_iff : ∀ c, activeClaimCondition c row' = true → activeClaimCondition c row = true := by
    intro c hc
    obtain ⟨hid', ⟨leaseUntil'', hstate''⟩, hepoch'⟩ := activeClaimCondition_iff.mp hc
    rw [hstate'] at hstate''
    obtain ⟨hworker, -⟩ := LifecycleActionState.claimed.inj hstate''
    refine activeClaimCondition_iff.mpr ⟨hsame.id_eq ▸ hid', ⟨leaseUntil, ?_⟩,
      hsame.claimEpoch_eq ▸ hepoch'⟩
    rw [hstate₀, hworker]
  refine ⟨?_, ?_, ?_, fun hpending => ?_, fun _ => ?_, fun _ => ?_, ?_, fun c hc hactive' => ?_,
    h.parked_subset, fun c hc hactive' => h.parked_inactive c hc (hactive_iff c hactive'), ?_⟩
  · rw [isTransitionAction_congr hsame.actionKind_eq, h.nonTransition]
  · rw [hattempts]
    exact h.nonneg
  · rw [hattempts]
    exact h.le_succ
  · rw [hstate'] at hpending
    cases hpending
  · rw [hattempts, hwaiting]
    exact h.charged_pos hclaimed
  · rw [hattempts, hwaiting]
    exact h.probe_lt hclaimed
  · rw [hsame.claimEpoch_eq]
    exact h.epoch_le
  · rw [hattempts, hwaiting]
    exact h.agrees c hc (hactive_iff c hactive')
  · rw [hattempts]
    exact h.charged_le

theorem retry (hclaim : claim ∈ claims) (hactive : activeClaimCondition claim row = true)
    (hsame : SameAction row row') (hbudget : row.attempts < maxAttempts)
    (hattempts : row'.attempts = claim.action.attempts +
      if waitingForDependency claim.action = true then 1 else 0) (hstate : row'.state = .pending) :
    Budget maxAttempts row' claims parked := by
  rw [h.attempts_retried hclaim hactive] at hattempts
  have hle : row.attempts ≤ row'.attempts ∧ row'.attempts ≤ row.attempts + 1 := by
    rw [hattempts]
    split_ifs <;> omega
  have hnonneg := h.nonneg
  have hcharged := h.charged_le
  exact h.release hsame.actionKind_eq hsame.claimEpoch_eq (not_isClaimed_of_pending hstate)
    (by omega) (by omega) (fun _ => by omega) h.parked_subset (by omega)

/-- **A park gives back** what its claim was charged. -/
theorem park (hmax : maxAttempts ≤ 8) (hclaim : claim ∈ claims)
    (hactive : activeClaimCondition claim row = true) (hsame : SameAction row row')
    (hattempts : row'.attempts = consumedAttempts row) (hstate : row'.state = .pending) :
    Budget maxAttempts row' claims (parked ++ [claim]) := by
  have hclaimed := isClaimed_of_active hactive
  have hsubset : ∀ c ∈ parked ++ [claim], c ∈ claims := by
    intro c hc
    rcases mem_append.mp hc with hc | hc
    · exact h.parked_subset c hc
    · obtain rfl := mem_singleton.mp hc
      exact hclaim
  have hnonneg := h.nonneg
  have hle := h.le_succ
  have hcharged := h.charged_le
  rw [h.consumedAttempts_eq hmax] at hattempts
  have hreleased := not_isClaimed_of_pending hstate
  cases hwaiting : waitingForDependency row with
  | true =>
    rw [hwaiting, if_pos rfl] at hattempts
    have hlt := h.probe_lt hclaimed hwaiting
    have hparked := @length_charged_parked_le claims parked claim
    exact h.release hsame.actionKind_eq hsame.claimEpoch_eq hreleased (by omega) (by omega)
      (fun _ => by omega) hsubset (by omega)
  | false =>
    rw [hwaiting, if_neg Bool.false_ne_true] at hattempts
    have hpos := h.charged_pos hclaimed hwaiting
    have hmem : claim ∈ charged claims parked := by
      refine mem_charged.mpr ⟨hclaim, ?_, fun hmem => h.parked_inactive claim hmem hactive⟩
      rw [(h.agrees claim hclaim hactive).2, hwaiting]
    have hparked := length_charged_parked_lt hmem
    exact h.release hsame.actionKind_eq hsame.claimEpoch_eq hreleased (by omega) (by omega)
      (fun _ => by omega) hsubset (by omega)

/-- **Every transaction keeps the budget.** -/
theorem step (hmax : maxAttempts ≤ 8)
    (hstep : WorkStep maxAttempts op row claims parked row' claims' parked') :
    Budget maxAttempts row' claims' parked' := by
  cases hstep with
  | unchanged => exact h
  | claim sagas workerId now leaseUntil hdue hbudget =>
    exact h.of_claim hmax workerId now leaseUntil hbudget
  | exhaust row' hstate hepoch hkind hattempts => exact h.finish hkind hepoch hattempts hstate
  | present claim claimOp row' hop hclaim hstep =>
    cases hstep with
    | unchanged =>
      rw [if_neg fun hchanged => hchanged.2 rfl]
      exact h
    | settled row' kind hactive hsame hstep hpark hretry =>
      cases hstep with
      | renewed hattempts hclass hstate =>
        rw [if_neg fun hparked => nomatch hpark.mp hparked.1]
        exact h.renew hactive hsame hattempts hclass hstate
      | finished hattempts hstate =>
        rw [if_neg fun hparked => nomatch hpark.mp hparked.1]
        exact h.finish hsame.actionKind_eq hsame.claimEpoch_eq hattempts hstate
      | retried hattempts hstate =>
        rw [if_neg fun hparked => nomatch hpark.mp hparked.1]
        exact h.retry hclaim hactive hsame (hretry rfl).2 hattempts hstate
      | parked hattempts hstate =>
        rw [if_pos ⟨hpark.mpr rfl, ne_of_pending hactive hstate⟩]
        exact h.park hmax hclaim hactive hsame hattempts hstate

end

end Budget

/-! ## At the cap -/

def Spent (maxAttempts : ℤ) (row : LifecycleActionRow) : Prop :=
  row.state.isFinished = true ∨ row.state = .pending ∧ maxAttempts ≤ row.attempts ∨
    row.attempts = maxAttempts + 1

theorem Spent.not_withinBudget (h : Spent maxAttempts row) (hrow : row.state.isFinished = false)
    (hkind : isTransitionAction row = false) : ¬WithinBudget maxAttempts row := by
  rintro (hlt | htransition | ⟨-, heq, claimedBy, leaseUntil, hstate⟩)
  · rcases h with hfinished | ⟨-, hle⟩ | hsucc
    · rw [hrow] at hfinished
      cases hfinished
    · omega
    · omega
  · rw [hkind] at htransition
    cases htransition
  · rcases h with hfinished | ⟨hpending, -⟩ | hsucc
    · rw [hrow] at hfinished
      cases hfinished
    · rw [hstate] at hpending
      cases hpending
    · omega

/-- **A spent row stays spent**, and no claim on it is handed out. -/
theorem Spent.step (h : Spent maxAttempts row) (hbudget : Budget maxAttempts row claims parked)
    (hmax : maxAttempts ≤ 8)
    (hstep : WorkStep maxAttempts op row claims parked row' claims' parked') :
    Spent maxAttempts row' ∧ claims' = claims := by
  -- a worker that still holds the row holds it at one above the cap
  have hheld : ∀ {c : ClaimedLifecycleAction}, activeClaimCondition c row = true →
      row.attempts = maxAttempts + 1 := by
    intro c hactive
    rcases h with hfinished | ⟨hpending, -⟩ | hsucc
    · exact absurd (isClaimed_of_active hactive) (not_isClaimed_of_isFinished hfinished)
    · exact absurd (isClaimed_of_active hactive) (not_isClaimed_of_pending hpending)
    · exact hsucc
  cases hstep with
  | unchanged => exact ⟨h, rfl⟩
  | claim sagas workerId now leaseUntil hdue hwithin =>
    exact absurd hwithin (h.not_withinBudget
      (not_isFinished_of_due hbudget.nonTransition hdue) hbudget.nonTransition)
  | exhaust row' hstate hepoch hkind hattempts => exact ⟨Or.inl hstate, rfl⟩
  | present claim claimOp row' hop hclaim hstep =>
    refine ⟨?_, rfl⟩
    cases hstep with
    | unchanged => exact h
    | settled row' kind hactive hsame hstep hpark hretry =>
      have hsucc := hheld hactive
      cases hstep with
      | renewed hattempts => exact Or.inr (Or.inr (hattempts.trans hsucc))
      | finished hattempts hstate => exact Or.inl hstate
      | retried =>
        have hlt := (hretry rfl).2
        omega
      | parked hattempts hstate =>
        rw [hbudget.consumedAttempts_eq hmax] at hattempts
        refine Or.inr (Or.inl ⟨hstate, ?_⟩)
        split_ifs at hattempts <;> omega

theorem spent_of_claim (hbudget : Budget maxAttempts row claims parked) (hmax : maxAttempts ≤ 8)
    (hcap : maxAttempts ≤ row.attempts)
    (hstep : WorkStep maxAttempts op row claims parked row' claims' parked') :
    claims' = claims ∨ Spent maxAttempts row' ∧ claims'.length = claims.length + 1 := by
  cases hstep with
  | unchanged => exact Or.inl rfl
  | exhaust => exact Or.inl rfl
  | present => exact Or.inl rfl
  | claim sagas workerId now leaseUntil hdue hwithin =>
    refine Or.inr ⟨Or.inr (Or.inr ?_), length_append⟩
    rw [hbudget.attempts_claimedRow hmax]
    rcases hwithin with hlt | htransition | ⟨hnot, heq, -⟩
    · omega
    · rw [hbudget.nonTransition] at htransition
      cases htransition
    · rw [hnot, if_neg Bool.false_ne_true, heq]

/-! ## Runs -/

section Runs

variable {t : ActionTables} {id : Text}

def claimsHandedOut (maxAttempts : ℤ) (t : ActionTables) (ops : List WorkerOperation) (id : Text) :
    List ClaimedLifecycleAction :=
  claimsOn id (workersAfter maxAttempts t ops).claims

/-- The claims on an action that a run hands out and a park gives back. -/
def claimsGivenBack (maxAttempts : ℤ) (t : ActionTables) (ops : List WorkerOperation) (id : Text) :
    List ClaimedLifecycleAction :=
  claimsOn id (workersAfter maxAttempts t ops).parked

variable {ops : List WorkerOperation}

theorem workStep_append (op : WorkerOperation)
    (hrow : actionAfter maxAttempts t ops id = some row) :
    ∃ row', actionAfter maxAttempts t (ops ++ [op]) id = some row' ∧
      WorkStep maxAttempts op row (claimsHandedOut maxAttempts t ops id)
        (claimsGivenBack maxAttempts t ops id) row'
        (claimsHandedOut maxAttempts t (ops ++ [op]) id)
        (claimsGivenBack maxAttempts t (ops ++ [op]) id) := by
  unfold actionAfter claimsHandedOut claimsGivenBack workersAfter
  rw [run_append]
  exact workStep_commit op hrow

/-- An action as the scheduler inserts it, before anything has happened to it. -/
structure Fresh (t : ActionTables) (id : Text) (row : LifecycleActionRow) : Prop where
  get_eq : t.actions.get id = some row
  nonTransition : isTransitionAction row = false
  attempts_eq : row.attempts = 0
  state_eq : row.state = .pending

section

variable (hfresh : Fresh t id row) (hmin : 1 ≤ maxAttempts) (hmax : maxAttempts ≤ 8)

include hfresh hmin hmax

/-- **The budget holds after every run.** -/
theorem budget_after (ops : List WorkerOperation) :
    ∃ row', actionAfter maxAttempts t ops id = some row' ∧
      Budget maxAttempts row' (claimsHandedOut maxAttempts t ops id)
        (claimsGivenBack maxAttempts t ops id) := by
  induction ops using reverseRecOn with
  | nil =>
    exact ⟨row, hfresh.get_eq,
      Budget.initial hfresh.nonTransition hmin hfresh.attempts_eq hfresh.state_eq⟩
  | append_singleton ops op ih =>
    obtain ⟨row', hrow', hbudget⟩ := ih
    obtain ⟨row'', hrow'', hstep⟩ := workStep_append op hrow'
    exact ⟨row'', hrow'', hbudget.step hmax hstep⟩

theorem spent_after (hrow : actionAfter maxAttempts t ops id = some row')
    (hspent : Spent maxAttempts row') (ops' : List WorkerOperation) :
    claimsHandedOut maxAttempts t (ops ++ ops') id = claimsHandedOut maxAttempts t ops id ∧
      ∃ row'', actionAfter maxAttempts t (ops ++ ops') id = some row'' ∧ Spent maxAttempts row'' := by
  induction ops' using reverseRecOn with
  | nil =>
    rw [append_nil]
    exact ⟨rfl, row', hrow, hspent⟩
  | append_singleton ops' op ih =>
    obtain ⟨hclaims, row₁, hrow₁, hspent₁⟩ := ih
    obtain ⟨row₁', hrow₁', hbudget⟩ := budget_after hfresh hmin hmax (ops ++ ops')
    cases hrow₁.symm.trans hrow₁'
    obtain ⟨row₂, hrow₂, hstep⟩ := workStep_append op hrow₁
    obtain ⟨hspent₂, hclaims₂⟩ := hspent₁.step hbudget hmax hstep
    rw [← append_assoc]
    exact ⟨hclaims₂.trans hclaims, row₂, hrow₂, hspent₂⟩

/-- **At the cap**: while the attempts stay there, one more claim is handed out at most. -/
theorem claims_at_cap {ops' : List WorkerOperation}
    (hcap : ∀ ops₀ row₀, ops₀ <+: ops' → actionAfter maxAttempts t (ops ++ ops₀) id = some row₀ →
      maxAttempts ≤ row₀.attempts) :
    claimsHandedOut maxAttempts t (ops ++ ops') id = claimsHandedOut maxAttempts t ops id ∨
      (claimsHandedOut maxAttempts t (ops ++ ops') id).length =
          (claimsHandedOut maxAttempts t ops id).length + 1 ∧
        ∃ row₁, actionAfter maxAttempts t (ops ++ ops') id = some row₁ ∧ Spent maxAttempts row₁ := by
  induction ops' using reverseRecOn with
  | nil =>
    rw [append_nil]
    exact Or.inl rfl
  | append_singleton ops' op ih =>
    have ih := ih fun ops₀ row₀ hpre => hcap ops₀ row₀ (hpre.trans (prefix_append _ _))
    obtain ⟨row₁, hrow₁, hbudget⟩ := budget_after hfresh hmin hmax (ops ++ ops')
    obtain ⟨row₂, hrow₂, hstep⟩ := workStep_append op hrow₁
    rw [← append_assoc]
    rcases ih with hclaims | ⟨hlength, row₁', hrow₁', hspent⟩
    · rw [← hclaims]
      rcases spent_of_claim hbudget hmax (hcap ops' row₁ (prefix_append _ _) hrow₁) hstep with
        hsame | ⟨hspent, hlength⟩
      · exact Or.inl hsame
      · exact Or.inr ⟨hlength, row₂, hrow₂, hspent⟩
    · cases hrow₁.symm.trans hrow₁'
      obtain ⟨hspent₂, hsame⟩ := hspent.step hbudget hmax hstep
      exact Or.inr ⟨hsame ▸ hlength, row₂, hrow₂, hspent₂⟩

end

def WorkerOperation.isFailure : WorkerOperation → Bool
  | .present _ op => op.isFailure
  | .claimDue .. | .writeOthers .. => false

/-- **A probe** is charged by a failure that is retried, and by nothing else. -/
theorem attempts_of_probe (hbudget : Budget maxAttempts row claims parked) (hmax : maxAttempts ≤ 8)
    (hwaiting : waitingForDependency row = true)
    (hstep : WorkStep maxAttempts op row claims parked row' claims' parked') :
    if op.isFailure = true ∧ row' ≠ row ∧ row'.state = .pending then
      row'.attempts = row.attempts + 1 else row'.attempts = row.attempts := by
  have hkept : ∀ {row' : LifecycleActionRow}, (row'.state = .pending → op.isFailure = true →
      row' = row) → row'.attempts = row.attempts →
      if op.isFailure = true ∧ row' ≠ row ∧ row'.state = .pending then
        row'.attempts = row.attempts + 1 else row'.attempts = row.attempts := by
    intro row' hnot hattempts
    rw [if_neg fun h => h.2.1 (hnot h.2.2 h.1)]
    exact hattempts
  cases hstep with
  | unchanged => exact hkept (fun _ _ => rfl) rfl
  | claim sagas workerId now leaseUntil hdue hwithin =>
    refine hkept (fun hpending => by cases hpending) ?_
    rw [hbudget.attempts_claimedRow hmax, hwaiting, if_pos rfl, add_zero]
  | exhaust row' hstate hepoch hkind hattempts =>
    refine hkept (fun hpending => ?_) hattempts
    rw [hpending] at hstate
    cases hstate
  | present claim claimOp row' hop hclaim hstep =>
    cases hstep with
    | unchanged => exact hkept (fun _ _ => rfl) rfl
    | settled row' kind hactive hsame hstep hpark hretry =>
      cases hstep with
      | renewed hattempts hclass hstate =>
        refine hkept (fun hpending => ?_) hattempts
        obtain ⟨leaseUntil, hstate⟩ := hstate
        rw [hpending] at hstate
        cases hstate
      | finished hattempts hstate =>
        refine hkept (fun hpending => ?_) hattempts
        rw [hpending] at hstate
        cases hstate
      | retried hattempts hstate =>
        have hfailure : op.isFailure = true := by
          rw [hop]
          exact (hretry rfl).1
        rw [if_pos ⟨hfailure, ne_of_pending hactive hstate, hstate⟩, hattempts,
          hbudget.attempts_retried hclaim hactive, hwaiting, if_pos rfl]
      | parked hattempts hstate =>
        refine hkept (fun _ hfailure => ?_) ?_
        · have hisPark := hpark.mpr rfl
          rw [hop] at hfailure
          cases claimOp <;> simp_all [WorkerOperation.isFailure, ClaimOperation.isPark,
            ClaimOperation.isFailure]
        · rw [hattempts, hbudget.consumedAttempts_eq hmax, hwaiting, if_pos rfl, sub_zero]

/-- **What a run of workers with one cap can do to an action.** -/
structure BudgetBounded (maxAttempts : ℤ) (t : ActionTables) (id : Text) : Prop where
  /-- The attempts stay between zero and one above the cap. -/
  attempts : ∀ ops row, actionAfter maxAttempts t ops id = some row →
    0 ≤ row.attempts ∧ row.attempts ≤ maxAttempts + 1
  /-- At most one more claim than the cap is neither a probe nor given back. -/
  charged : ∀ ops, ((charged (claimsHandedOut maxAttempts t ops id)
    (claimsGivenBack maxAttempts t ops id)).length : ℤ) ≤ maxAttempts + 1
  /-- While the attempts are at the cap, at most one more claim is handed out. -/
  at_cap : ∀ ops ops', (∀ ops₀ row, ops₀ <+: ops' →
      actionAfter maxAttempts t (ops ++ ops₀) id = some row → maxAttempts ≤ row.attempts) →
    (claimsHandedOut maxAttempts t (ops ++ ops') id).length ≤
      (claimsHandedOut maxAttempts t ops id).length + 1
  /-- After that claim there is none, whatever follows. -/
  above_cap : ∀ ops row, actionAfter maxAttempts t ops id = some row →
    row.attempts = maxAttempts + 1 → ∀ ops',
      claimsHandedOut maxAttempts t (ops ++ ops') id = claimsHandedOut maxAttempts t ops id
  /-- On a waiting row, a failure that is retried is charged once, and nothing else changes the
  attempts. -/
  probe : ∀ ops op row row', actionAfter maxAttempts t ops id = some row →
    actionAfter maxAttempts t (ops ++ [op]) id = some row' → waitingForDependency row = true →
    if op.isFailure = true ∧ row' ≠ row ∧ row'.state = .pending then
      row'.attempts = row.attempts + 1 else row'.attempts = row.attempts

/-- **The attempts of an action that is no transition are bounded**, over all runs of claims, lease
expiries, failures, parks and probes, by any workers with the same cap. -/
theorem attempts_budget (hfresh : Fresh t id row) (hmin : 1 ≤ maxAttempts)
    (hmax : maxAttempts ≤ maxLifecycleActionAttempts) : BudgetBounded maxAttempts t id where
  attempts ops row' hrow' := by
    obtain ⟨row'', hrow'', hbudget⟩ := budget_after hfresh hmin hmax ops
    cases hrow'.symm.trans hrow''
    exact ⟨hbudget.nonneg, hbudget.le_succ⟩
  charged ops := by
    obtain ⟨row', -, hbudget⟩ := budget_after hfresh hmin hmax ops
    exact hbudget.charged_le.trans hbudget.le_succ
  at_cap ops ops' hcap := by
    rcases claims_at_cap hfresh hmin hmax hcap with hsame | ⟨hlength, -⟩
    · rw [hsame]
      exact Nat.le_succ _
    · exact hlength.le
  above_cap ops row' hrow' hattempts ops' :=
    (spent_after hfresh hmin hmax hrow' (Or.inr (Or.inr hattempts)) ops').1
  probe ops op row₁ row₂ hrow₁ hrow₂ hwaiting := by
    obtain ⟨row₁', hrow₁', hbudget⟩ := budget_after hfresh hmin hmax ops
    cases hrow₁.symm.trans hrow₁'
    obtain ⟨row₂', hrow₂', hstep⟩ := workStep_append op hrow₁
    cases hrow₂.symm.trans hrow₂'
    exact attempts_of_probe hbudget hmax hwaiting hstep

def reachCap : List WorkerOperation := [.claimDue [119] 10 1 0 0 []]

def capClaim : ClaimedLifecycleAction :=
  ⟨claimedRow sampleAction [119] 0 10 sampleAction, 1, [119]⟩

/-- The action after that claim has been parked, and the claim of its first probe. -/
def probeClaim : ClaimedLifecycleAction :=
  ⟨⟨[97], [98], [107], 1, [114], .expireNoncurrent, .version [49] [110] none 1, 0,
    .claimed [119] 40000000010, 0, 30000000001, 2, some .waitingForMutation, none, 0, 40000000000⟩,
    2, [119]⟩

/-- The claim is parked for a mutation, and the action is probed twice. -/
def parkAndProbe : List WorkerOperation :=
  [.present capClaim (.waitForMutationDependency 1 1), .claimDue [119] 10 1 40000000000 40000000000 [],
    .present probeClaim (.waitForMutationDependency 40000000001 40000000001),
    .claimDue [119] 10 1 80000000000 80000000000 []]

theorem fresh_sampleTables : Fresh sampleTables [97] sampleAction := by
  refine ⟨?_, rfl, rfl, rfl⟩
  decide

/-- The first claim brings the action to a cap of one, and after its lease has expired the action is
claimed once more. -/
theorem attempts_budget_sampleTables : BudgetBounded 1 sampleTables [97] ∧
    (actionAfter 1 sampleTables (reachCap ++ [.claimDue [120] 10 1 10 10 []]) [97]).map
      LifecycleActionRow.attempts = some 2 :=
  ⟨attempts_budget fresh_sampleTables le_rfl (by decide), by decide +kernel⟩

/-- **A park at the cap**: the action has reached a cap of one, and is claimed twice after that without
being finished. -/
theorem parked_at_cap_claimed_again :
    (actionAfter 1 sampleTables reachCap [97]).map LifecycleActionRow.attempts = some 1 ∧
    (claimsHandedOut 1 sampleTables (reachCap ++ parkAndProbe) [97]).length =
      (claimsHandedOut 1 sampleTables reachCap [97]).length + 2 ∧
    (actionAfter 1 sampleTables (reachCap ++ parkAndProbe) [97]).map
      (fun row => row.state.isFinished) = some false := by
  refine ⟨?_, ?_, ?_⟩ <;> decide +kernel

end Runs

end IpfS3.Lifecycle
