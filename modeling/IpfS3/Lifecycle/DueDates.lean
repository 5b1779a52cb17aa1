import IpfS3.Lifecycle.Proposals

/-!
# Due dates

The due instant of an age in days is the least midnight after that age (`isLeast_nextUtcMidnight`).
So it grows with the start of the age and with the days, and what is due stays due: a candidate that
is at least as old, at a time that is at least as late, is due no later (`dueDates_least_monotone`).
-/

namespace IpfS3.Lifecycle

open Fallible Store

variable {start start' due due' : ℤ} {days days' : UInt32}

/-! ## The least midnight -/

def midnightsAfter (instant : ℤ) : Set ℤ := {t | isMidnight t = true ∧ instant < t}

theorem isLeast_midnightsAfter (instant : ℤ) :
    IsLeast (midnightsAfter instant) ((dateOf instant + 1) * dayNanos) := by
  have hpos : 0 < dayNanos := by decide
  refine ⟨⟨?_, Int.lt_ediv_add_one_mul_self instant hpos⟩, ?_⟩
  · rw [isMidnight, Int.mul_emod_left, BEq.rfl]
  · rintro t ⟨hmidnight, hlt⟩
    obtain ⟨date, rfl⟩ := Int.dvd_of_emod_eq_zero (beq_iff_eq.mp hmidnight)
    rw [mul_comm] at hlt ⊢
    -- the date of a later midnight is a later date
    exact mul_le_mul_of_nonneg_left (Int.ediv_lt_of_lt_mul hpos hlt) hpos.le

theorem nextUtcMidnight_eq_ok_iff : nextUtcMidnightAfterFullDays start days = .ok due ↔
    ¬FarFuture start days ∧ due = (dateOf (start + days.toNat * dayNanos) + 1) * dayNanos := by
  by_cases hfar : FarFuture start days
  · simp [nextUtcMidnight_of_farFuture hfar, hfar]
  · simp [nextUtcMidnight_of_not_farFuture hfar, hfar, eq_comm]

theorem isLeast_nextUtcMidnight (h : nextUtcMidnightAfterFullDays start days = .ok due) :
    IsLeast (midnightsAfter (start + days.toNat * dayNanos)) due := by
  rw [(nextUtcMidnight_eq_ok_iff.mp h).2]
  exact isLeast_midnightsAfter _

theorem exists_nextUtcMidnight
    (hle : start + days.toNat * dayNanos ≤ start' + days'.toNat * dayNanos)
    (h : nextUtcMidnightAfterFullDays start' days' = .ok due') :
    ∃ due, nextUtcMidnightAfterFullDays start days = .ok due ∧ due ≤ due' := by
  have hdate := Int.ediv_le_ediv (show 0 < dayNanos by decide) hle
  have hnear : ¬FarFuture start days := fun hfar =>
    (nextUtcMidnight_eq_ok_iff.mp h).1 (le_trans hfar hdate)
  refine ⟨_, nextUtcMidnight_of_not_farFuture hnear, ?_⟩
  exact (isLeast_nextUtcMidnight h).mono (isLeast_midnightsAfter _) fun t ht =>
    ⟨ht.1, hle.trans_lt ht.2⟩

theorem nextUtcMidnight_le (h : nextUtcMidnightAfterFullDays start days = .ok due) :
    due ≤ start + days.toNat * dayNanos + dayNanos := by
  rw [(nextUtcMidnight_eq_ok_iff.mp h).2, add_mul, one_mul]
  exact Int.add_le_add_right (Int.ediv_mul_le _ (by decide)) _

theorem exists_nextUtcMidnight_lt (hlt : days < days')
    (h : nextUtcMidnightAfterFullDays start days' = .ok due') :
    ∃ due, nextUtcMidnightAfterFullDays start days = .ok due ∧ due < due' := by
  have hday : (days.toNat : ℤ) + 1 ≤ days'.toNat := by
    exact_mod_cast UInt32.lt_iff_toNat_lt.mp hlt
  have haged : start + days.toNat * dayNanos + dayNanos ≤ start + days'.toNat * dayNanos := by
    have := mul_le_mul_of_nonneg_right hday (show 0 ≤ dayNanos by decide)
    linarith
  have hle : start + days.toNat * dayNanos ≤ start + days'.toNat * dayNanos :=
    (le_add_of_nonneg_right (by decide)).trans haged
  obtain ⟨due, hdue, -⟩ := exists_nextUtcMidnight hle h
  exact ⟨due, hdue, ((nextUtcMidnight_le hdue).trans haged).trans_lt (isLeast_nextUtcMidnight h).1.2⟩

/-! ## What is due stays due -/

/-- A candidate that is at least as old as another one, at a time that is at least as late. -/
structure Ahead (ahead behind : VersionEvaluationContext) : Prop where
  age_le : ahead.candidate.lifecycleAgeStartedAt ≤ behind.candidate.lifecycleAgeStartedAt
  noncurrent_le : ∀ start' ∈ behind.candidate.becameNoncurrentAt,
    ∃ start ∈ ahead.candidate.becameNoncurrentAt, start ≤ start'
  newer_le : behind.facts.newerNoncurrentCount ≤ ahead.facts.newerNoncurrentCount
  now_le : behind.facts.databaseNow ≤ ahead.facts.databaseNow

variable {ahead behind : VersionEvaluationContext} {identity : RuleIdentity × Text}
  {kind : LifecycleActionKind}

/-- Whatever is proposed behind is proposed ahead, and due no later. -/
def DueNoLater (collect : VersionEvaluationContext → AppResult (List LifecycleProposal))
    (ahead behind : VersionEvaluationContext) : Prop :=
  ∀ proposals', collect behind = .ok proposals' → ∀ p' ∈ proposals', ∃ proposals,
    collect ahead = .ok proposals ∧ ∃ p ∈ proposals, p.action.dueAt ≤ p'.action.dueAt

theorem dueNoLater_collectDated (h : Ahead ahead behind) (expiration : CurrentExpiration) :
    DueNoLater (collectDated · expiration identity kind) ahead behind := by
  intro proposals' hbehind p' hp'
  obtain ⟨due', hdue', hreached, rfl⟩ := (mem_of_collectDated hbehind).mp hp'
  cases hdue' with
  | date utcMidnight =>
    exact ⟨_, rfl, _, mem_proposeAt.mpr ⟨hreached.trans h.now_le, rfl⟩, le_rfl⟩
  | days days due' hnext' =>
    obtain ⟨due, hnext, hle⟩ := exists_nextUtcMidnight (Int.add_le_add_right h.age_le _) hnext'
    refine ⟨proposeAt ahead identity kind due, ?_, _,
      mem_proposeAt.mpr ⟨hle.trans (hreached.trans h.now_le), rfl⟩, hle⟩
    simp only [collectDated, currentDueAt, hnext, ok_bind]

theorem newerSatisfied_mono {required : Option UInt16} {m n : ℕ} (hle : m ≤ n)
    (h : newerSatisfied required m = true) : newerSatisfied required n = true := by
  cases required with
  | none => rfl
  | some required => exact decide_eq_true ((of_decide_eq_true h).trans_le hle)

theorem dueNoLater_collectNoncurrentProposal (h : Ahead ahead behind)
    (expiration : Option NoncurrentExpiration) :
    DueNoLater (collectNoncurrentProposal · expiration identity) ahead behind := by
  intro proposals' hbehind p' hp'
  dsimp only at hbehind ⊢
  unfold collectNoncurrentProposal at hbehind ⊢
  cases expiration with
  | none =>
    cases hbehind
    cases hp'
  | some expiration =>
    cases hstart' : behind.candidate.becameNoncurrentAt with
    | none =>
      rw [hstart'] at hbehind
      cases hbehind
      cases hp'
    | some start' =>
      obtain ⟨start, hstart, hle⟩ := h.noncurrent_le start' hstart'
      rw [hstart'] at hbehind
      obtain ⟨due', hnext', hbehind⟩ := of_bind hbehind
      obtain ⟨due, hnext, hdue⟩ := exists_nextUtcMidnight (Int.add_le_add_right hle _) hnext'
      split_ifs at hbehind with hnewer
      · cases hbehind
        obtain ⟨hreached, rfl⟩ := mem_proposeAt.mp hp'
        refine ⟨proposeAt ahead identity .expireNoncurrent due, ?_, _,
          mem_proposeAt.mpr ⟨hdue.trans (hreached.trans h.now_le), rfl⟩, hdue⟩
        rw [hstart]
        simp only [hnext, ok_bind, newerSatisfied_mono h.newer_le hnewer, if_true]
      · cases hbehind
        cases hp'

/-- **Due dates are least midnights and monotone**, in the start of the age and strictly in the days,
and there is one unless it is too far away; so what is due stays due, and an older candidate is never
due later than a newer one. -/
theorem dueDates_least_monotone :
    (∀ start days, ¬FarFuture start days → ∃ due, nextUtcMidnightAfterFullDays start days = .ok due ∧
      IsLeast (midnightsAfter (start + days.toNat * dayNanos)) due) ∧
    (∀ start days due, nextUtcMidnightAfterFullDays start days = .ok due → ¬FarFuture start days) ∧
    (∀ start start' days due', start ≤ start' →
      nextUtcMidnightAfterFullDays start' days = .ok due' →
        ∃ due, nextUtcMidnightAfterFullDays start days = .ok due ∧ due ≤ due') ∧
    (∀ start days days' due', days < days' →
      nextUtcMidnightAfterFullDays start days' = .ok due' →
        ∃ due, nextUtcMidnightAfterFullDays start days = .ok due ∧ due < due') ∧
    ∀ ahead behind, Ahead ahead behind → ∀ identity,
      (∀ expiration kind, DueNoLater (collectDated · expiration identity kind) ahead behind) ∧
        ∀ expiration, DueNoLater (collectNoncurrentProposal · expiration identity) ahead behind := by
  refine ⟨fun _ _ hnear => ⟨_, nextUtcMidnight_of_not_farFuture hnear, isLeast_midnightsAfter _⟩,
    fun _ _ _ h => (nextUtcMidnight_eq_ok_iff.mp h).1, fun _ _ _ _ hle => ?_, fun _ _ _ _ =>
    exists_nextUtcMidnight_lt, fun _ _ h _ => ⟨fun expiration _ => ?_, ?_⟩⟩
  · exact exists_nextUtcMidnight (Int.add_le_add_right hle _)
  · exact dueNoLater_collectDated h expiration
  · exact dueNoLater_collectNoncurrentProposal h

/-- An age of nine days that starts at a midnight; what is due after ten days is due after eleven. -/
theorem dueDates_least_monotone_nineDays :
    (∃ due, nextUtcMidnightAfterFullDays 0 9 = .ok due ∧
      IsLeast (midnightsAfter (0 + 9 * dayNanos)) due ∧
      ∃ due', nextUtcMidnightAfterFullDays 0 8 = .ok due' ∧ due' < due) ∧
    ∃ proposals, collectDated ⟨sampleVersion, { sampleFacts [] with databaseNow := 11 * dayNanos }⟩
        (.days 9) (.id [97], [97]) .expireCurrent = .ok proposals ∧
      ∃ p ∈ proposals, p.action.dueAt ≤ 10 * dayNanos := by
  obtain ⟨hleast, -, -, hdays, hahead⟩ := dueDates_least_monotone
  obtain ⟨due, hdue, hmidnight⟩ := hleast 0 9 (by decide)
  refine ⟨⟨due, hdue, hmidnight, hdays 0 8 9 due (by decide) hdue⟩, ?_⟩
  have hle : Ahead ⟨sampleVersion, { sampleFacts [] with databaseNow := 11 * dayNanos }⟩
      ⟨sampleVersion, sampleFacts []⟩ := ⟨le_rfl, fun _ h => (by cases h), le_rfl, by decide⟩
  exact (hahead _ _ hle _).1 (.days 9) .expireCurrent _ rfl _ (List.mem_singleton_self _)

end IpfS3.Lifecycle
