import IpfS3.Lifecycle.FarFuture

/-!
# What rules propose

`Proposes` says, without the evaluator, when a rule proposes an action for a candidate: the rule is
enabled and matches, it has an action for the role of the candidate, and the action is eligible and
due.  The collectors of the evaluator collect exactly these proposals (`mem_of_collectVersionRule`,
`mem_of_collectUploadRule`).

A delete marker under an `ExpiredObjectDeleteMarker` rule has no date: it is proposed at once, and its
due instant is the start of its age, which need not have been reached.
-/

namespace IpfS3.Lifecycle

open Fallible Keyset Store

/-! ## Eligible actions -/

inductive ExpirationDue (start : ℤ) : CurrentExpiration → ℤ → Prop where
  | date (utcMidnight : ℤ) : ExpirationDue start (.date utcMidnight) utcMidnight
  | days (days : UInt32) (due : ℤ) (h : nextUtcMidnightAfterFullDays start days = .ok due) :
      ExpirationDue start (.days days) due

inductive TransitionDue (start : ℤ) : CurrentTransition → ℤ → Prop where
  | date (utcMidnight : ℤ) : TransitionDue start (.date utcMidnight) utcMidnight
  | days (days : UInt32) (due : ℤ) (h : nextUtcMidnightAfterFullDays start days = .ok due) :
      TransitionDue start (.days days) due

/-- More noncurrent versions are newer than the rule asks for. -/
def EnoughNewer (thresholds : NoncurrentExpiration) (newerNoncurrentCount : ℕ) : Prop :=
  ∀ newer ∈ thresholds.newerNoncurrentVersions, newer.toNat < newerNoncurrentCount

/-- **The actions of a rule that are eligible for a version**, with their due instants. -/
inductive Eligible (context : VersionEvaluationContext) (rule : CanonicalLifecycleRule) :
    LifecycleActionKind → ℤ → Prop where
  | expireCurrent (expiration : CurrentExpiration) (due : ℤ)
      (hlatest : context.candidate.isLatest = true)
      (hkind : context.candidate.target.kind = .object)
      (hrule : rule.expiration = some expiration)
      (hdue : ExpirationDue context.candidate.lifecycleAgeStartedAt expiration due)
      (hreached : due ≤ context.facts.databaseNow) : Eligible context rule .expireCurrent due
  | deleteDatedMarker (expiration : CurrentExpiration) (due : ℤ)
      (hlatest : context.candidate.isLatest = true)
      (hkind : context.candidate.target.kind = .deleteMarker)
      (hsole : context.facts.publicVersionCount = 1)
      (hrule : rule.expiration = some expiration)
      (hdue : ExpirationDue context.candidate.lifecycleAgeStartedAt expiration due)
      (hreached : due ≤ context.facts.databaseNow) : Eligible context rule .deleteExpiredMarker due
  | deleteMarker (hlatest : context.candidate.isLatest = true)
      (hkind : context.candidate.target.kind = .deleteMarker)
      (hsole : context.facts.publicVersionCount = 1)
      (hrule : rule.expiration = some .expiredObjectDeleteMarker) :
      Eligible context rule .deleteExpiredMarker context.candidate.lifecycleAgeStartedAt
  | transitionCurrent (transition : CurrentTransition) (due : ℤ)
      (hlatest : context.candidate.isLatest = true)
      (hkind : context.candidate.target.kind = .object)
      (hclass : context.candidate.primaryStorageClass = some .standard)
      (hrule : rule.transition = some transition)
      (hdue : TransitionDue context.candidate.lifecycleAgeStartedAt transition due)
      (hreached : due ≤ context.facts.databaseNow) : Eligible context rule .transitionCurrent due
  | transitionNoncurrent (transition : NoncurrentTransition) (start due : ℤ)
      (hlatest : context.candidate.isLatest = false)
      (hkind : context.candidate.target.kind = .object)
      (hclass : context.candidate.primaryStorageClass = some .standard)
      (hrule : rule.noncurrentVersionTransition = some transition)
      (hstart : context.candidate.becameNoncurrentAt = some start)
      (hnewer : EnoughNewer transition context.facts.newerNoncurrentCount)
      (hdue : nextUtcMidnightAfterFullDays start transition.noncurrentDays = .ok due)
      (hreached : due ≤ context.facts.databaseNow) : Eligible context rule .transitionNoncurrent due
  | expireNoncurrent (expiration : NoncurrentExpiration) (start due : ℤ)
      (hlatest : context.candidate.isLatest = false)
      (hrule : rule.noncurrentVersionExpiration = some expiration)
      (hstart : context.candidate.becameNoncurrentAt = some start)
      (hnewer : EnoughNewer expiration context.facts.newerNoncurrentCount)
      (hdue : nextUtcMidnightAfterFullDays start expiration.noncurrentDays = .ok due)
      (hreached : due ≤ context.facts.databaseNow) : Eligible context rule .expireNoncurrent due

/-- **What a rule proposes for a candidate.** -/
inductive Proposes (facts : LifecycleEvaluationContext) (rule : CanonicalLifecycleRule) :
    LifecycleActionKind → ℤ → Prop where
  | version (candidate : VersionLifecycleCandidate) (kind : LifecycleActionKind) (due : ℤ)
      (hcandidate : facts.candidate = .version candidate)
      (hselected : selected ⟨candidate, facts⟩ rule = true)
      (heligible : Eligible ⟨candidate, facts⟩ rule kind due) : Proposes facts rule kind due
  | upload (target : MultipartUploadTargetIdentity) (days : UInt32) (due : ℤ)
      (hcandidate : facts.candidate = .multipartUpload target)
      (henabled : rule.status = .enabled)
      (hmatches : matchesUpload rule.selector target.key = .ok true)
      (hrule : rule.abortIncompleteMultipartUpload = some days)
      (hdue : nextUtcMidnightAfterFullDays target.initiatedAt days = .ok due)
      (hreached : due ≤ facts.databaseNow) : Proposes facts rule .abortIncompleteMultipartUpload due

/-- The proposal of an action, as the evaluator builds it. -/
def proposalFor (facts : LifecycleEvaluationContext) (identity : RuleIdentity × Text)
    (kind : LifecycleActionKind) (due : ℤ) : LifecycleProposal :=
  match facts.candidate with
  | .version candidate => proposal ⟨candidate, facts⟩ identity kind due
  | .multipartUpload target => uploadProposal facts target identity due

def IsProposal (facts : LifecycleEvaluationContext) (p : LifecycleProposal) : Prop :=
  ∃ ordinal rule identity kind due, facts.configuration.rules[ordinal]? = some rule ∧
    ruleIdentity rule.id ordinal = .ok identity ∧ Proposes facts rule kind due ∧
    p = proposalFor facts identity kind due

/-! ## What the collectors collect -/

variable {context : VersionEvaluationContext} {rule : CanonicalLifecycleRule}
  {identity : RuleIdentity × Text} {kind : LifecycleActionKind} {p : LifecycleProposal}

theorem mem_proposeAt {due : ℤ} : p ∈ proposeAt context identity kind due ↔
    due ≤ context.facts.databaseNow ∧ p = proposal context identity kind due := by
  unfold proposeAt
  split_ifs with hdue
  · simp [hdue]
  · simp [hdue]

theorem newerSatisfied_iff {thresholds : NoncurrentExpiration} {count : ℕ} :
    newerSatisfied thresholds.newerNoncurrentVersions count = true ↔
      EnoughNewer thresholds count := by
  unfold newerSatisfied EnoughNewer
  cases thresholds.newerNoncurrentVersions <;> simp

variable {proposals : List LifecycleProposal}

theorem mem_of_collectDated {expiration : CurrentExpiration}
    (h : collectDated context expiration identity kind = .ok proposals) :
    p ∈ proposals ↔ ∃ due, ExpirationDue context.candidate.lifecycleAgeStartedAt expiration due ∧
      due ≤ context.facts.databaseNow ∧ p = proposal context identity kind due := by
  cases expiration with
  | date utcMidnight =>
    cases h
    rw [mem_proposeAt]
    constructor
    · exact fun hp => ⟨utcMidnight, .date utcMidnight, hp⟩
    · rintro ⟨due, hdue, hp⟩
      cases hdue
      exact hp
  | days days =>
    obtain ⟨dueAt, hdueAt, h⟩ := of_bind h
    obtain ⟨due, hnext, hdueAt⟩ := of_bind hdueAt
    cases hdueAt
    cases h
    rw [mem_proposeAt]
    constructor
    · exact fun hp => ⟨due, .days days due hnext, hp⟩
    · rintro ⟨due', hdue, hp⟩
      cases hdue with
      | days days due' hnext' =>
        cases hnext.symm.trans hnext'
        exact hp
  | expiredObjectDeleteMarker =>
    cases h
    refine iff_of_false List.not_mem_nil ?_
    rintro ⟨due, hdue, -⟩
    cases hdue

def isTransition : LifecycleActionKind → Bool
  | .transitionCurrent | .transitionNoncurrent => true
  | _ => false

/-- The proposals for which a version is eligible under a rule: the transitions, or the others. -/
def Proposed (context : VersionEvaluationContext) (rule : CanonicalLifecycleRule)
    (identity : RuleIdentity × Text) (transition : Bool) (p : LifecycleProposal) : Prop :=
  ∃ kind due, isTransition kind = transition ∧ Eligible context rule kind due ∧
    p = proposal context identity kind due

theorem mem_of_collectSoleMarker {expiration : CurrentExpiration}
    (hlatest : context.candidate.isLatest = true)
    (hkind : context.candidate.target.kind = .deleteMarker)
    (hsole : context.facts.publicVersionCount = 1) (hrule : rule.expiration = some expiration)
    (h : collectSoleMarker context identity expiration = .ok proposals) :
    p ∈ proposals ↔ Proposed context rule identity false p := by
  -- the two ways in which a marker is proposed
  have hiff : Proposed context rule identity false p ↔
      (∃ due, ExpirationDue context.candidate.lifecycleAgeStartedAt expiration due ∧
        due ≤ context.facts.databaseNow ∧ p = proposal context identity .deleteExpiredMarker due) ∨
      expiration = .expiredObjectDeleteMarker ∧ p = proposal context identity .deleteExpiredMarker
        context.candidate.lifecycleAgeStartedAt := by
    constructor
    · rintro ⟨kind, due, htransition, heligible, hp⟩
      cases heligible with
      | deleteDatedMarker expiration' due _ _ _ hrule' hdue hreached =>
        cases hrule.symm.trans hrule'
        exact Or.inl ⟨due, hdue, hreached, hp⟩
      | deleteMarker _ _ _ hrule' =>
        exact Or.inr ⟨Option.some.inj (hrule.symm.trans hrule'), hp⟩
      | _ => simp_all
    · rintro (⟨due, hdue, hreached, hp⟩ | ⟨rfl, hp⟩)
      · exact ⟨.deleteExpiredMarker, due, rfl, .deleteDatedMarker expiration due hlatest hkind hsole
          hrule hdue hreached, hp⟩
      · exact ⟨.deleteExpiredMarker, _, rfl, .deleteMarker hlatest hkind hsole hrule, hp⟩
  rw [hiff]
  cases expiration with
  | expiredObjectDeleteMarker =>
    cases h
    rw [List.mem_singleton]
    constructor
    · exact fun hp => Or.inr ⟨rfl, hp⟩
    · rintro (⟨due, hdue, -⟩ | ⟨-, hp⟩)
      · cases hdue
      · exact hp
  | date utcMidnight =>
    rw [mem_of_collectDated h]
    exact (or_iff_left fun hmarker => by cases hmarker.1).symm
  | days days =>
    rw [mem_of_collectDated h]
    exact (or_iff_left fun hmarker => by cases hmarker.1).symm

theorem mem_of_collectCurrentProposal (hlatest : context.candidate.isLatest = true)
    (h : collectCurrentProposal context rule.expiration identity = .ok proposals) :
    p ∈ proposals ↔ Proposed context rule identity false p := by
  unfold collectCurrentProposal at h
  cases hrule : rule.expiration with
  | none =>
    rw [hrule] at h
    cases h
    refine iff_of_false List.not_mem_nil ?_
    rintro ⟨kind, due, hkind, heligible, -⟩
    cases heligible <;> simp_all [isTransition]
  | some expiration =>
    rw [hrule] at h
    cases hkind : context.candidate.target.kind with
    | object =>
      rw [hkind] at h
      rw [mem_of_collectDated h]
      constructor
      · rintro ⟨due, hdue, hreached, hp⟩
        exact ⟨.expireCurrent, due, rfl, .expireCurrent expiration due hlatest hkind hrule hdue
          hreached, hp⟩
      · rintro ⟨kind, due, htransition, heligible, hp⟩
        cases heligible with
        | expireCurrent expiration' due hlatest' hkind' hrule' hdue hreached =>
          cases hrule.symm.trans hrule'
          exact ⟨due, hdue, hreached, hp⟩
        | _ => simp_all [isTransition]
    | deleteMarker =>
      rw [hkind] at h
      dsimp only at h
      by_cases hsole : context.facts.publicVersionCount = 1
      · rw [if_pos hsole] at h
        exact mem_of_collectSoleMarker hlatest hkind hsole hrule h
      · rw [if_neg hsole] at h
        cases h
        refine iff_of_false List.not_mem_nil ?_
        rintro ⟨kind, due, htransition, heligible, -⟩
        cases heligible <;> simp_all

theorem mem_of_collectNoncurrentProposal (hlatest : context.candidate.isLatest = false)
    (h : collectNoncurrentProposal context rule.noncurrentVersionExpiration identity =
      .ok proposals) :
    p ∈ proposals ↔ Proposed context rule identity false p := by
  -- a noncurrent version is only expired by this action
  have hiff : Proposed context rule identity false p ↔
      ∃ due, Eligible context rule .expireNoncurrent due ∧
        p = proposal context identity .expireNoncurrent due := by
    constructor
    · rintro ⟨kind, due, htransition, heligible, hp⟩
      cases heligible with
      | expireNoncurrent expiration start due hlatest' hrule hstart hnewer hdue hreached =>
        exact ⟨due, .expireNoncurrent expiration start due hlatest' hrule hstart hnewer hdue
          hreached, hp⟩
      | _ => simp_all [isTransition]
    · rintro ⟨due, heligible, hp⟩
      exact ⟨.expireNoncurrent, due, rfl, heligible, hp⟩
  rw [hiff]
  unfold collectNoncurrentProposal at h
  cases hrule : rule.noncurrentVersionExpiration with
  | none =>
    rw [hrule] at h
    cases h
    refine iff_of_false List.not_mem_nil ?_
    rintro ⟨due, heligible, -⟩
    cases heligible
    simp_all
  | some expiration =>
    cases hstart : context.candidate.becameNoncurrentAt with
    | none =>
      rw [hrule, hstart] at h
      cases h
      refine iff_of_false List.not_mem_nil ?_
      rintro ⟨due, heligible, -⟩
      cases heligible
      simp_all
    | some start =>
      rw [hrule, hstart] at h
      obtain ⟨due, hdue, h⟩ := of_bind h
      have hmem : p ∈ proposals ↔ EnoughNewer expiration context.facts.newerNoncurrentCount ∧
          due ≤ context.facts.databaseNow ∧
          p = proposal context identity .expireNoncurrent due := by
        rw [← newerSatisfied_iff]
        split_ifs at h with hnewer
        · cases h
          rw [mem_proposeAt, and_iff_right hnewer]
        · cases h
          exact iff_of_false List.not_mem_nil fun hall => hnewer hall.1
      rw [hmem]
      constructor
      · rintro ⟨hnewer, hreached, hp⟩
        exact ⟨due, .expireNoncurrent expiration start due hlatest hrule hstart hnewer hdue hreached,
          hp⟩
      · rintro ⟨due', heligible, hp⟩
        cases heligible with
        | expireNoncurrent expiration' start' due' hlatest' hrule' hstart' hnewer hdue' hreached =>
          cases hrule.symm.trans hrule'
          cases hstart.symm.trans hstart'
          cases hdue.symm.trans hdue'
          exact ⟨hnewer, hreached, hp⟩

theorem transitionDueAt_of_latest (hlatest : context.candidate.isLatest = true) {due : ℤ} :
    transitionDueAt context rule = some (kind, due) ↔ kind = .transitionCurrent ∧
      ∃ transition, rule.transition = some transition ∧
        TransitionDue context.candidate.lifecycleAgeStartedAt transition due := by
  unfold transitionDueAt
  rw [if_pos hlatest]
  rcases hrule : rule.transition with _ | utcMidnight | days
  · simp
  · constructor
    · intro h
      cases h
      exact ⟨rfl, _, rfl, .date _⟩
    · rintro ⟨rfl, transition, htransition, hdue⟩
      cases htransition
      cases hdue
      rfl
  · dsimp only
    constructor
    · intro h
      cases hnext : nextUtcMidnightAfterFullDays context.candidate.lifecycleAgeStartedAt days with
      | error e =>
        rw [hnext] at h
        cases h
      | ok due' =>
        rw [hnext] at h
        cases h
        exact ⟨rfl, _, rfl, .days days _ hnext⟩
    · rintro ⟨rfl, transition, htransition, hdue⟩
      cases htransition
      cases hdue with
      | days days due hnext => rw [hnext]

theorem transitionDueAt_of_noncurrent (hlatest : context.candidate.isLatest = false) {due : ℤ} :
    transitionDueAt context rule = some (kind, due) ↔ kind = .transitionNoncurrent ∧
      ∃ transition start, rule.noncurrentVersionTransition = some transition ∧
        context.candidate.becameNoncurrentAt = some start ∧
        EnoughNewer transition context.facts.newerNoncurrentCount ∧
        nextUtcMidnightAfterFullDays start transition.noncurrentDays = .ok due := by
  unfold transitionDueAt
  rw [if_neg (by rw [hlatest]; decide)]
  rcases hrule : rule.noncurrentVersionTransition with _ | transition
  · simp
  rcases hstart : context.candidate.becameNoncurrentAt with _ | start
  · simp
  dsimp only
  constructor
  · intro h
    split_ifs at h with hnewer
    cases hnext : nextUtcMidnightAfterFullDays start transition.noncurrentDays with
    | error e =>
      rw [hnext] at h
      cases h
    | ok due' =>
      rw [hnext] at h
      cases h
      exact ⟨rfl, transition, start, rfl, rfl, newerSatisfied_iff.mp hnewer, hnext⟩
  · rintro ⟨rfl, transition', start', htransition, hstart', hnewer, hnext⟩
    cases htransition
    cases hstart'
    rw [if_pos (newerSatisfied_iff.mpr hnewer), hnext]

theorem transitionDueAt_iff (hkind : context.candidate.target.kind = .object)
    (hclass : context.candidate.primaryStorageClass = some .standard) (due : ℤ) :
    (transitionDueAt context rule = some (kind, due) ∧ due ≤ context.facts.databaseNow) ↔
      isTransition kind = true ∧ Eligible context rule kind due := by
  cases hlatest : context.candidate.isLatest with
  | true =>
    rw [transitionDueAt_of_latest hlatest]
    constructor
    · rintro ⟨⟨rfl, transition, hrule, hdue⟩, hreached⟩
      exact ⟨rfl, .transitionCurrent transition due hlatest hkind hclass hrule hdue hreached⟩
    · rintro ⟨htransition, heligible⟩
      cases heligible with
      | transitionCurrent transition due _ _ _ hrule hdue hreached =>
        exact ⟨⟨rfl, transition, hrule, hdue⟩, hreached⟩
      | _ => simp_all [isTransition]
  | false =>
    rw [transitionDueAt_of_noncurrent hlatest]
    constructor
    · rintro ⟨⟨rfl, transition, start, hrule, hstart, hnewer, hdue⟩, hreached⟩
      exact ⟨rfl, .transitionNoncurrent transition start due hlatest hkind hclass hrule hstart hnewer
        hdue hreached⟩
    · rintro ⟨htransition, heligible⟩
      cases heligible with
      | transitionNoncurrent transition start due _ _ _ hrule hstart hnewer hdue hreached =>
        exact ⟨⟨rfl, transition, start, hrule, hstart, hnewer, hdue⟩, hreached⟩
      | _ => simp_all [isTransition]

theorem mem_collectTransitionProposal : p ∈ collectTransitionProposal context rule identity ↔
    Proposed context rule identity true p := by
  unfold collectTransitionProposal
  by_cases hobject : context.candidate.target.kind = .object ∧
      context.candidate.primaryStorageClass = some .standard
  · rw [if_pos hobject]
    constructor
    · intro hp
      rcases hdue : transitionDueAt context rule with _ | ⟨kind, due⟩
      · rw [hdue] at hp
        cases hp
      · rw [hdue] at hp
        obtain ⟨hreached, hp⟩ := mem_proposeAt.mp hp
        obtain ⟨htransition, heligible⟩ :=
          (transitionDueAt_iff hobject.1 hobject.2 due).mp ⟨hdue, hreached⟩
        exact ⟨kind, due, htransition, heligible, hp⟩
    · rintro ⟨kind, due, htransition, heligible, hp⟩
      obtain ⟨hdue, hreached⟩ :=
        (transitionDueAt_iff hobject.1 hobject.2 due).mpr ⟨htransition, heligible⟩
      rw [hdue]
      exact mem_proposeAt.mpr ⟨hreached, hp⟩
  · rw [if_neg hobject]
    refine iff_of_false List.not_mem_nil ?_
    rintro ⟨kind, due, htransition, heligible, -⟩
    cases heligible <;> simp_all [isTransition]

/-- **The proposals of one rule for a version.** -/
theorem mem_of_collectVersionRule {ordinal : ℕ}
    (h : collectVersionRule context (rule, ordinal) = .ok proposals) :
    p ∈ proposals ↔ selected context rule = true ∧ ∃ identity kind due,
      ruleIdentity rule.id ordinal = .ok identity ∧ Eligible context rule kind due ∧
        p = proposal context identity kind due := by
  rw [collectVersionRule] at h
  by_cases hselected : selected context rule = true
  swap
  · rw [if_neg hselected] at h
    cases h
    exact iff_of_false List.not_mem_nil fun hp => hselected hp.1
  rw [if_pos hselected] at h
  obtain ⟨identity, hidentity, h⟩ := of_bind h
  obtain ⟨expirations, hexpirations, h⟩ := of_bind h
  cases h
  have hexpiration : p ∈ expirations ↔ Proposed context rule identity false p := by
    unfold collectExpirationProposal at hexpirations
    split_ifs at hexpirations with hlatest
    · exact mem_of_collectCurrentProposal hlatest hexpirations
    · exact mem_of_collectNoncurrentProposal (by simpa using hlatest) hexpirations
  rw [List.mem_append, mem_collectTransitionProposal, hexpiration, and_iff_right hselected]
  constructor
  · rintro (⟨kind, due, -, heligible, hp⟩ | ⟨kind, due, -, heligible, hp⟩)
    · exact ⟨identity, kind, due, hidentity, heligible, hp⟩
    · exact ⟨identity, kind, due, hidentity, heligible, hp⟩
  · rintro ⟨identity', kind, due, hidentity', heligible, hp⟩
    cases hidentity.symm.trans hidentity'
    cases htransition : isTransition kind with
    | true => exact Or.inl ⟨kind, due, htransition, heligible, hp⟩
    | false => exact Or.inr ⟨kind, due, htransition, heligible, hp⟩

/-- **The proposal of one rule for an upload.** -/
theorem mem_of_collectUploadRule {facts : LifecycleEvaluationContext}
    {target : MultipartUploadTargetIdentity}
    (hcandidate : facts.candidate = .multipartUpload target) {ordinal : ℕ}
    (h : collectUploadRule facts target (rule, ordinal) = .ok proposals) :
    p ∈ proposals ↔ ∃ identity kind due, ruleIdentity rule.id ordinal = .ok identity ∧
      Proposes facts rule kind due ∧ p = uploadProposal facts target identity due := by
  -- the one way in which an upload is proposed
  have hiff : (∃ identity kind due, ruleIdentity rule.id ordinal = .ok identity ∧
      Proposes facts rule kind due ∧ p = uploadProposal facts target identity due) ↔
      ∃ identity days due, ruleIdentity rule.id ordinal = .ok identity ∧
        rule.status = .enabled ∧ matchesUpload rule.selector target.key = .ok true ∧
        rule.abortIncompleteMultipartUpload = some days ∧
        nextUtcMidnightAfterFullDays target.initiatedAt days = .ok due ∧
        due ≤ facts.databaseNow ∧ p = uploadProposal facts target identity due := by
    constructor
    · rintro ⟨identity, kind, due, hidentity, hproposes, hp⟩
      cases hproposes with
      | version candidate kind due hversion =>
        rw [hcandidate] at hversion
        cases hversion
      | upload target' days due hupload henabled hmatches hrule hdue hreached =>
        obtain rfl := LifecycleCandidate.multipartUpload.inj (hcandidate.symm.trans hupload)
        exact ⟨identity, days, due, hidentity, henabled, hmatches, hrule, hdue, hreached, hp⟩
    · rintro ⟨identity, days, due, hidentity, henabled, hmatches, hrule, hdue, hreached, hp⟩
      exact ⟨identity, _, due, hidentity, .upload target days due hcandidate henabled hmatches hrule
        hdue hreached, hp⟩
  rw [hiff]
  rw [collectUploadRule] at h
  by_cases henabled : rule.status = .enabled
  swap
  · rw [if_neg henabled] at h
    cases h
    refine iff_of_false List.not_mem_nil ?_
    rintro ⟨identity, days, due, -, henabled', -⟩
    exact henabled henabled'
  rw [if_pos henabled] at h
  rcases hrule : rule.abortIncompleteMultipartUpload with _ | days
  · rw [hrule] at h
    cases h
    simp
  rw [hrule] at h
  obtain ⟨matched, hmatched, h⟩ := of_bind h
  rw [hmatched]
  cases matched with
  | false =>
    cases h
    simp
  | true =>
    rw [if_pos rfl] at h
    cases hnext : nextUtcMidnightAfterFullDays target.initiatedAt days with
    | error e =>
      rw [hnext] at h
      cases h
      refine iff_of_false List.not_mem_nil ?_
      rintro ⟨identity, days', due, -, -, -, hdays, hdue, -⟩
      cases hdays
      rw [hnext] at hdue
      cases hdue
    | ok due =>
      rw [hnext] at h
      dsimp only at h
      by_cases hreached : due ≤ facts.databaseNow
      · rw [if_pos hreached] at h
        obtain ⟨identity, hidentity, h⟩ := of_bind h
        cases h
        rw [List.mem_singleton]
        constructor
        · exact fun hp => ⟨identity, days, due, hidentity, henabled, rfl, rfl, hnext, hreached, hp⟩
        · rintro ⟨identity', days', due', hidentity', -, -, hdays, hdue, -, hp⟩
          cases hdays
          cases hnext.symm.trans hdue
          cases hidentity.symm.trans hidentity'
          exact hp
      · rw [if_neg hreached] at h
        cases h
        refine iff_of_false List.not_mem_nil ?_
        rintro ⟨identity, days', due', -, -, -, hdays, hdue, hreached', -⟩
        cases hdays
        cases hnext.symm.trans hdue
        exact hreached hreached'

end IpfS3.Lifecycle
