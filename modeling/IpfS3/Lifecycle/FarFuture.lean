import IpfS3.Lifecycle.Evaluator

/-!
# Due instants out of range

Validation accepts every positive number of days that an `i32` holds, and the dates of the code end
some ninety-five million days after the epoch, so a rule can have a due instant that cannot be
represented.  The collectors of transitions and of abort actions treat such an instant as one that
has not been reached; the collectors of current and noncurrent expirations fail, and the evaluation
with them.

`evaluateCandidate_lenient_iff`: an evaluation treats every action out of range as one that is not
due exactly when no selected rule has an expiration out of range that the evaluator looks at.
-/

namespace IpfS3.Lifecycle

open Fallible Keyset Store

/-! ## Dates -/

/-- The midnight after so many days is out of range. -/
def FarFuture (start : ℤ) (days : UInt32) : Prop := maxDate ≤ dateOf (start + days.toNat * dayNanos)

instance (start : ℤ) (days : UInt32) : Decidable (FarFuture start days) :=
  inferInstanceAs (Decidable (_ ≤ _))

variable {start : ℤ} {days : UInt32}

theorem nextUtcMidnight_of_farFuture (h : FarFuture start days) :
    nextUtcMidnightAfterFullDays start days = .error dueOutOfRange := by
  unfold nextUtcMidnightAfterFullDays
  unfold FarFuture at h
  dsimp only
  split_ifs with hfirst hsecond
  · rfl
  · rfl
  · omega

theorem nextUtcMidnight_of_not_farFuture (h : ¬FarFuture start days) :
    nextUtcMidnightAfterFullDays start days =
      .ok ((dateOf (start + days.toNat * dayNanos) + 1) * dayNanos) := by
  unfold nextUtcMidnightAfterFullDays
  unfold FarFuture at h
  dsimp only
  rw [if_neg (by omega), if_neg (by omega)]

/-! ## When a collector fails -/

/-- The evaluator looks at an expiration of the rule whose due instant is out of range. -/
def ExpirationOverflows (context : VersionEvaluationContext) (rule : CanonicalLifecycleRule) :
    Prop :=
  if context.candidate.isLatest = true then
    (context.candidate.target.kind = .object ∨ context.facts.publicVersionCount = 1) ∧
      ∃ days, rule.expiration = some (.days days) ∧
        FarFuture context.candidate.lifecycleAgeStartedAt days
  else
    ∃ expiration start, rule.noncurrentVersionExpiration = some expiration ∧
      context.candidate.becameNoncurrentAt = some start ∧ FarFuture start expiration.noncurrentDays

variable {context : VersionEvaluationContext} {rule : CanonicalLifecycleRule}
  {identity : RuleIdentity × Text} {kind : LifecycleActionKind} {ordinal : ℕ}

theorem collectDated_isOk_iff {expiration : CurrentExpiration} :
    (∃ proposals, collectDated context expiration identity kind = .ok proposals) ↔
      ∀ days, expiration = .days days →
        ¬FarFuture context.candidate.lifecycleAgeStartedAt days := by
  cases expiration with
  | date utcMidnight => exact iff_of_true ⟨_, rfl⟩ fun days h => by cases h
  | expiredObjectDeleteMarker => exact iff_of_true ⟨_, rfl⟩ fun days h => by cases h
  | days days =>
    rw [collectDated, currentDueAt]
    by_cases hfar : FarFuture context.candidate.lifecycleAgeStartedAt days
    · rw [nextUtcMidnight_of_farFuture hfar]
      refine iff_of_false ?_ fun h => h days rfl hfar
      rintro ⟨proposals, h⟩
      cases h
    · rw [nextUtcMidnight_of_not_farFuture hfar]
      refine iff_of_true ⟨_, rfl⟩ fun other hother => ?_
      rwa [← CurrentExpiration.days.inj hother]

theorem collectCurrentProposal_isOk_iff {expiration : Option CurrentExpiration} :
    (∃ proposals, collectCurrentProposal context expiration identity = .ok proposals) ↔
      ¬((context.candidate.target.kind = .object ∨ context.facts.publicVersionCount = 1) ∧
        ∃ days, expiration = some (.days days) ∧
          FarFuture context.candidate.lifecycleAgeStartedAt days) := by
  cases expiration with
  | none =>
    refine iff_of_true ⟨[], rfl⟩ ?_
    rintro ⟨-, days, h, -⟩
    cases h
  | some expiration =>
    unfold collectCurrentProposal
    cases hkind : context.candidate.target.kind with
    | object =>
      dsimp only
      rw [collectDated_isOk_iff]
      simp
    | deleteMarker =>
      dsimp only
      by_cases hsole : context.facts.publicVersionCount = 1
      · rw [if_pos hsole]
        cases expiration with
        | expiredObjectDeleteMarker => simp [collectSoleMarker]
        | date utcMidnight =>
          rw [collectSoleMarker, collectDated_isOk_iff]
          simp
        | days days =>
          rw [collectSoleMarker, collectDated_isOk_iff]
          simp [hsole]
      · rw [if_neg hsole]
        refine iff_of_true ⟨[], rfl⟩ ?_
        simp [hsole]

theorem collectNoncurrentProposal_isOk_iff {expiration : Option NoncurrentExpiration} :
    (∃ proposals, collectNoncurrentProposal context expiration identity = .ok proposals) ↔
      ¬∃ e start, expiration = some e ∧ context.candidate.becameNoncurrentAt = some start ∧
        FarFuture start e.noncurrentDays := by
  cases expiration with
  | none => simp [collectNoncurrentProposal]
  | some expiration =>
    cases hstart : context.candidate.becameNoncurrentAt with
    | none => simp [collectNoncurrentProposal, hstart]
    | some start =>
      unfold collectNoncurrentProposal
      rw [hstart]
      dsimp only
      by_cases hfar : FarFuture start expiration.noncurrentDays
      · rw [nextUtcMidnight_of_farFuture hfar]
        refine iff_of_false ?_ (not_not.mpr ⟨expiration, start, rfl, rfl, hfar⟩)
        rintro ⟨proposals, h⟩
        cases h
      · rw [nextUtcMidnight_of_not_farFuture hfar, ok_bind]
        refine iff_of_true ?_ ?_
        · split_ifs
          · exact ⟨_, rfl⟩
          · exact ⟨_, rfl⟩
        · rintro ⟨e, s, he, hs, hfar'⟩
          cases he
          cases hs
          exact hfar hfar'

theorem exists_ruleIdentity (id : Option Text) (h : ordinal < 2 ^ 16) :
    ∃ identity, ruleIdentity id ordinal = .ok identity := by
  cases id with
  | some id => exact ⟨_, rfl⟩
  | none =>
    rw [ruleIdentity, ensure_of h]
    exact ⟨_, rfl⟩

/-- **A rule fails on a version** exactly when it is selected and has an expiration out of range. -/
theorem collectVersionRule_isOk_iff (hordinal : ordinal < 2 ^ 16) :
    (∃ proposals, collectVersionRule context (rule, ordinal) = .ok proposals) ↔
      (selected context rule = true → ¬ExpirationOverflows context rule) := by
  rw [collectVersionRule]
  by_cases hselected : selected context rule = true
  · obtain ⟨identity, hidentity⟩ := exists_ruleIdentity rule.id hordinal
    have hexpiration : (∃ proposals, collectExpirationProposal context rule identity =
        .ok proposals) ↔ ¬ExpirationOverflows context rule := by
      unfold collectExpirationProposal ExpirationOverflows
      split_ifs
      · exact collectCurrentProposal_isOk_iff
      · exact collectNoncurrentProposal_isOk_iff
    rw [if_pos hselected, hidentity, ok_bind, forall_prop_of_true hselected, ← hexpiration]
    cases collectExpirationProposal context rule identity with
    | ok proposals => exact iff_of_true ⟨_, rfl⟩ ⟨_, rfl⟩
    | error e => exact iff_of_false (fun ⟨_, h⟩ => by cases h) (fun ⟨_, h⟩ => by cases h)
  · rw [if_neg hselected]
    exact iff_of_true ⟨[], rfl⟩ fun h => absurd h hselected

theorem exists_matchesUpload {selector : CanonicalRuleSelector} (h : selector.isAbortable = true)
    (key : Text) : ∃ matched, matchesUpload selector key = .ok matched := by
  cases selector with
  | legacyPrefix pfx => exact ⟨_, rfl⟩
  | modern filter =>
    cases filter with
    | all => exact ⟨_, rfl⟩
    | keyPrefix pfx => exact ⟨_, rfl⟩
    | tag tag => cases h
    | objectSizeGreaterThan bytes => cases h
    | objectSizeLessThan bytes => cases h
    | and pfx tags greater less => cases h

theorem exists_collectUploadRule (facts : LifecycleEvaluationContext)
    (target : MultipartUploadTargetIdentity) (hvalid : validateCanonicalRule rule = .ok ())
    (hordinal : ordinal < 2 ^ 16) :
    ∃ proposals, collectUploadRule facts target (rule, ordinal) = .ok proposals := by
  rw [collectUploadRule]
  by_cases henabled : rule.status = .enabled
  swap
  · exact ⟨[], if_neg henabled⟩
  rw [if_pos henabled]
  cases habort : rule.abortIncompleteMultipartUpload with
  | none => exact ⟨[], rfl⟩
  | some days =>
    obtain ⟨matched, hmatched⟩ := exists_matchesUpload (isAbortable_of_valid hvalid habort) target.key
    obtain ⟨identity, hidentity⟩ := exists_ruleIdentity rule.id hordinal
    dsimp only
    rw [hmatched, ok_bind]
    split_ifs
    · cases nextUtcMidnightAfterFullDays target.initiatedAt days with
      | error e => exact ⟨[], rfl⟩
      | ok dueAt =>
        dsimp only
        rw [hidentity]
        split_ifs
        · exact ⟨_, rfl⟩
        · exact ⟨[], rfl⟩
    · exact ⟨[], rfl⟩

def ExpirationsInRange (facts : LifecycleEvaluationContext) : Prop :=
  ∀ candidate, facts.candidate = .version candidate → ∀ rule ∈ facts.configuration.rules,
    selected ⟨candidate, facts⟩ rule = true → ¬ExpirationOverflows ⟨candidate, facts⟩ rule

variable {facts : LifecycleEvaluationContext}

/-- **When an evaluation fails.** -/
theorem evaluateCandidate_isOk_iff (hvalidated : Validated facts.configuration)
    (hrevision : 0 < facts.configRevision) :
    (∃ result, evaluateCandidate facts = .ok result) ↔ ExpirationsInRange facts := by
  have hordinal : ∀ entry ∈ facts.configuration.rules.zipIdx, entry.2 < 2 ^ 16 := by
    intro entry hentry
    have hlt := (List.mem_zipIdx hentry).2.1
    have hle := hvalidated.length_le
    omega
  rw [evaluateCandidate, ensure_of hrevision, ok_bind]
  cases hcandidate : facts.candidate with
  | multipartUpload target =>
    refine iff_of_true ?_ fun candidate h => by rw [hcandidate] at h; cases h
    obtain ⟨proposals, hproposals⟩ := mapM_isOk_iff.mpr fun entry hentry =>
      exists_collectUploadRule facts target
        (hvalidated.rules_valid entry.1 (List.fst_mem_of_mem_zipIdx hentry)) (hordinal entry hentry)
    exact ⟨_, bind_eq_ok_iff.mpr ⟨proposals, hproposals, rfl⟩⟩
  | version candidate =>
    have hmapM : (∃ result, (facts.configuration.rules.zipIdx.mapM
        (collectVersionRule ⟨candidate, facts⟩) >>= fun proposals => Except.ok
          ((selectWinner proposals.flatten).map LifecycleProposal.action)) = .ok result) ↔
        ∃ proposals, facts.configuration.rules.zipIdx.mapM
          (collectVersionRule ⟨candidate, facts⟩) = .ok proposals := by
      constructor
      · rintro ⟨result, h⟩
        obtain ⟨proposals, hproposals, -⟩ := of_bind h
        exact ⟨proposals, hproposals⟩
      · rintro ⟨proposals, hproposals⟩
        exact ⟨_, bind_eq_ok_iff.mpr ⟨proposals, hproposals, rfl⟩⟩
    rw [hmapM, mapM_isOk_iff]
    constructor
    · intro h other hother rule hrule
      rw [hcandidate] at hother
      obtain rfl := LifecycleCandidate.version.inj hother
      obtain ⟨ordinal, hget⟩ := List.getElem?_of_mem hrule
      have hentry : (rule, ordinal) ∈ facts.configuration.rules.zipIdx :=
        List.mk_mem_zipIdx_iff_getElem?.mpr hget
      exact (collectVersionRule_isOk_iff (hordinal _ hentry)).mp (h _ hentry)
    · intro h entry hentry
      exact (collectVersionRule_isOk_iff (hordinal entry hentry)).mpr
        (h candidate hcandidate entry.1 (List.fst_mem_of_mem_zipIdx hentry))

/-! ## Removing an action -/

inductive ActionField where
  | expiration
  | noncurrentVersionExpiration
  | transition
  | noncurrentVersionTransition
  | abortIncompleteMultipartUpload
  deriving DecidableEq

def CanonicalLifecycleRule.without (rule : CanonicalLifecycleRule) :
    ActionField → CanonicalLifecycleRule
  | .expiration => { rule with expiration := none }
  | .noncurrentVersionExpiration => { rule with noncurrentVersionExpiration := none }
  | .transition => { rule with transition := none }
  | .noncurrentVersionTransition => { rule with noncurrentVersionTransition := none }
  | .abortIncompleteMultipartUpload => { rule with abortIncompleteMultipartUpload := none }

def LifecycleEvaluationContext.without (facts : LifecycleEvaluationContext) (ordinal : ℕ)
    (field : ActionField) : LifecycleEvaluationContext :=
  { facts with configuration :=
    { facts.configuration with rules := facts.configuration.rules.modify ordinal (·.without field) } }

/-- The due instant of an action for the candidate is out of range. -/
def FarFutureAction (candidate : LifecycleCandidate) (rule : CanonicalLifecycleRule) :
    ActionField → Prop
  | .expiration => ∃ version days, candidate = .version version ∧
      rule.expiration = some (.days days) ∧ FarFuture version.lifecycleAgeStartedAt days
  | .noncurrentVersionExpiration => ∃ version expiration start, candidate = .version version ∧
      rule.noncurrentVersionExpiration = some expiration ∧
      version.becameNoncurrentAt = some start ∧ FarFuture start expiration.noncurrentDays
  | .transition => ∃ version days, candidate = .version version ∧
      rule.transition = some (.days days) ∧ FarFuture version.lifecycleAgeStartedAt days
  | .noncurrentVersionTransition => ∃ version transition start, candidate = .version version ∧
      rule.noncurrentVersionTransition = some transition ∧
      version.becameNoncurrentAt = some start ∧ FarFuture start transition.noncurrentDays
  | .abortIncompleteMultipartUpload => ∃ target days, candidate = .multipartUpload target ∧
      rule.abortIncompleteMultipartUpload = some days ∧ FarFuture target.initiatedAt days

theorem collectTransitionProposal_without_transition {days : UInt32}
    (hdays : rule.transition = some (.days days))
    (hfar : FarFuture context.candidate.lifecycleAgeStartedAt days) :
    collectTransitionProposal context (rule.without .transition) identity =
      collectTransitionProposal context rule identity := by
  have hdue : transitionDueAt context (rule.without .transition) = transitionDueAt context rule := by
    unfold transitionDueAt
    rw [hdays]
    split_ifs
    · show none = _
      dsimp only
      rw [nextUtcMidnight_of_farFuture hfar]
    · rfl
  unfold collectTransitionProposal
  rw [hdue]

theorem collectTransitionProposal_without_noncurrent {transition : NoncurrentTransition} {start : ℤ}
    (htransition : rule.noncurrentVersionTransition = some transition)
    (hstart : context.candidate.becameNoncurrentAt = some start)
    (hfar : FarFuture start transition.noncurrentDays) :
    collectTransitionProposal context (rule.without .noncurrentVersionTransition) identity =
      collectTransitionProposal context rule identity := by
  have hdue : transitionDueAt context (rule.without .noncurrentVersionTransition) =
      transitionDueAt context rule := by
    unfold transitionDueAt
    rw [htransition, hstart]
    by_cases hlatest : context.candidate.isLatest = true
    · rw [if_pos hlatest, if_pos hlatest]
      rfl
    · rw [if_neg hlatest, if_neg hlatest]
      show none = _
      dsimp only
      rw [nextUtcMidnight_of_farFuture hfar, ite_self]
  unfold collectTransitionProposal
  rw [hdue]

theorem collectExpirationProposal_without_expiration {days : UInt32}
    (hrange : ¬ExpirationOverflows context rule) (hdays : rule.expiration = some (.days days))
    (hfar : FarFuture context.candidate.lifecycleAgeStartedAt days) :
    collectExpirationProposal context (rule.without .expiration) identity =
      collectExpirationProposal context rule identity := by
  unfold collectExpirationProposal
  by_cases hlatest : context.candidate.isLatest = true
  · rw [if_pos hlatest, if_pos hlatest]
    unfold ExpirationOverflows at hrange
    rw [if_pos hlatest] at hrange
    have hunseen : ¬(context.candidate.target.kind = .object ∨
        context.facts.publicVersionCount = 1) := fun h => hrange ⟨h, days, hdays, hfar⟩
    rw [hdays]
    unfold collectCurrentProposal
    cases hkind : context.candidate.target.kind with
    | object => exact absurd (Or.inl hkind) hunseen
    | deleteMarker =>
      show Except.ok [] = _
      dsimp only
      rw [if_neg fun hsole => hunseen (Or.inr hsole)]
  · rw [if_neg hlatest, if_neg hlatest]
    rfl

theorem collectExpirationProposal_without_noncurrent {expiration : NoncurrentExpiration} {start : ℤ}
    (hrange : ¬ExpirationOverflows context rule)
    (hexpiration : rule.noncurrentVersionExpiration = some expiration)
    (hstart : context.candidate.becameNoncurrentAt = some start)
    (hfar : FarFuture start expiration.noncurrentDays) :
    collectExpirationProposal context (rule.without .noncurrentVersionExpiration) identity =
      collectExpirationProposal context rule identity := by
  unfold collectExpirationProposal
  by_cases hlatest : context.candidate.isLatest = true
  · rw [if_pos hlatest, if_pos hlatest]
    rfl
  · unfold ExpirationOverflows at hrange
    rw [if_neg hlatest] at hrange
    exact absurd ⟨expiration, start, hexpiration, hstart, hfar⟩ hrange

variable {field : ActionField}

/-- **A rule without an action out of range** proposes the same for a version. -/
theorem collectVersionRule_without {candidate : VersionLifecycleCandidate}
    (hcandidate : facts.candidate = .version candidate)
    (hrange : selected ⟨candidate, facts⟩ rule = true → ¬ExpirationOverflows ⟨candidate, facts⟩ rule)
    (hfar : FarFutureAction facts.candidate rule field) :
    collectVersionRule ⟨candidate, facts⟩ (rule.without field, ordinal) =
      collectVersionRule ⟨candidate, facts⟩ (rule, ordinal) := by
  have hsame : selected ⟨candidate, facts⟩ (rule.without field) =
      selected ⟨candidate, facts⟩ rule := by
    cases field <;> rfl
  have hid : (rule.without field).id = rule.id := by
    cases field <;> rfl
  rw [collectVersionRule, collectVersionRule, hsame, hid]
  by_cases hselected : selected ⟨candidate, facts⟩ rule = true
  swap
  · rw [if_neg hselected, if_neg hselected]
  rw [if_pos hselected, if_pos hselected]
  congr 1
  funext identity
  cases field with
  | expiration =>
    obtain ⟨version, days, hversion, hdays, hfar⟩ := hfar
    obtain rfl := LifecycleCandidate.version.inj (hcandidate.symm.trans hversion)
    rw [collectExpirationProposal_without_expiration (hrange hselected) hdays hfar]
    rfl
  | noncurrentVersionExpiration =>
    obtain ⟨version, expiration, start, hversion, hexpiration, hstart, hfar⟩ := hfar
    obtain rfl := LifecycleCandidate.version.inj (hcandidate.symm.trans hversion)
    rw [collectExpirationProposal_without_noncurrent (hrange hselected) hexpiration hstart hfar]
    rfl
  | transition =>
    obtain ⟨version, days, hversion, hdays, hfar⟩ := hfar
    obtain rfl := LifecycleCandidate.version.inj (hcandidate.symm.trans hversion)
    rw [collectTransitionProposal_without_transition hdays hfar]
    rfl
  | noncurrentVersionTransition =>
    obtain ⟨version, transition, start, hversion, htransition, hstart, hfar⟩ := hfar
    obtain rfl := LifecycleCandidate.version.inj (hcandidate.symm.trans hversion)
    rw [collectTransitionProposal_without_noncurrent htransition hstart hfar]
    rfl
  | abortIncompleteMultipartUpload =>
    obtain ⟨target, days, hupload, -⟩ := hfar
    rw [hcandidate] at hupload
    cases hupload

/-- **A rule without an abort action out of range** proposes the same for an upload. -/
theorem collectUploadRule_without {target : MultipartUploadTargetIdentity}
    (hcandidate : facts.candidate = .multipartUpload target)
    (hvalid : validateCanonicalRule rule = .ok ())
    (hfar : FarFutureAction facts.candidate rule field) :
    collectUploadRule facts target (rule.without field, ordinal) =
      collectUploadRule facts target (rule, ordinal) := by
  cases field with
  | abortIncompleteMultipartUpload =>
    obtain ⟨upload, days, hupload, hdays, hfar⟩ := hfar
    obtain rfl := LifecycleCandidate.multipartUpload.inj (hcandidate.symm.trans hupload)
    obtain ⟨matched, hmatched⟩ := exists_matchesUpload (isAbortable_of_valid hvalid hdays) target.key
    rw [collectUploadRule, collectUploadRule, hdays]
    show (if rule.status = .enabled then Except.ok [] else Except.ok []) = _
    dsimp only
    rw [hmatched, ok_bind, nextUtcMidnight_of_farFuture hfar]
    simp only [ite_self]
  | expiration =>
    obtain ⟨version, days, hversion, -⟩ := hfar
    rw [hcandidate] at hversion
    cases hversion
  | noncurrentVersionExpiration =>
    obtain ⟨version, expiration, start, hversion, -⟩ := hfar
    rw [hcandidate] at hversion
    cases hversion
  | transition =>
    obtain ⟨version, days, hversion, -⟩ := hfar
    rw [hcandidate] at hversion
    cases hversion
  | noncurrentVersionTransition =>
    obtain ⟨version, transition, start, hversion, -⟩ := hfar
    rw [hcandidate] at hversion
    cases hversion

theorem evaluateCandidate_without (hvalidated : Validated facts.configuration)
    (hrange : ExpirationsInRange facts) (hget : facts.configuration.rules[ordinal]? = some rule)
    (hfar : FarFutureAction facts.candidate rule field) :
    evaluateCandidate (facts.without ordinal field) = evaluateCandidate facts := by
  have hmem := List.mem_of_getElem? hget
  unfold evaluateCandidate
  congr 1
  funext _
  have hsame : (facts.without ordinal field).candidate = facts.candidate := rfl
  rw [hsame]
  cases hcandidate : facts.candidate with
  | multipartUpload target =>
    dsimp only
    unfold evaluateMultipart
    have hmapM : (facts.without ordinal field).configuration.rules.zipIdx.mapM
        (collectUploadRule (facts.without ordinal field) target) =
          facts.configuration.rules.zipIdx.mapM (collectUploadRule facts target) :=
      mapM_zipIdx_modify fun r hr => by
        cases hget.symm.trans hr
        exact collectUploadRule_without hcandidate (hvalidated.rules_valid rule hmem) hfar
    rw [hmapM]
  | version candidate =>
    dsimp only
    have hmapM : (facts.without ordinal field).configuration.rules.zipIdx.mapM
        (collectVersionRule ⟨candidate, facts.without ordinal field⟩) =
          facts.configuration.rules.zipIdx.mapM (collectVersionRule ⟨candidate, facts⟩) :=
      mapM_zipIdx_modify fun r hr => by
        cases hget.symm.trans hr
        exact collectVersionRule_without hcandidate (hrange candidate hcandidate rule hmem) hfar
    rw [hmapM]

/-- An evaluation that treats every action out of range as one that is not due: it returns, and no
such action makes a difference. -/
structure Lenient (facts : LifecycleEvaluationContext) : Prop where
  returns : ∃ result, evaluateCandidate facts = .ok result
  without_eq : ∀ ordinal rule field, facts.configuration.rules[ordinal]? = some rule →
    FarFutureAction facts.candidate rule field →
      evaluateCandidate (facts.without ordinal field) = evaluateCandidate facts

/-- **Evaluations are lenient as far as transitions and abort actions go.**  For an accepted
configuration and a positive revision, actions out of range are treated as not due exactly when no
selected rule has an expiration out of range that the evaluator looks at. -/
theorem evaluateCandidate_lenient_iff {input : List LifecycleRule}
    {facts : LifecycleEvaluationContext}
    (haccepted : validateAndCanonicalize input = .ok facts.configuration)
    (hrevision : 0 < facts.configRevision) : Lenient facts ↔ ExpirationsInRange facts := by
  have hvalidated := validated_of_accepted haccepted
  constructor
  · intro h
    exact (evaluateCandidate_isOk_iff hvalidated hrevision).mp h.returns
  · intro hrange
    exact ⟨(evaluateCandidate_isOk_iff hvalidated hrevision).mpr hrange,
      fun ordinal rule field hget hfar => evaluateCandidate_without hvalidated hrange hget hfar⟩

/-! ## Two rules on one version -/

/-- A rule of the request on all keys that expires current versions after some days. -/
def sampleRule (id : Text) (days : Int32) : LifecycleRule :=
  ⟨none, some ⟨none, some days, none⟩, some ⟨none, none, none, none, none⟩, some id, none, none, none,
    enabledStatus, none⟩

def sampleCanonicalRule (id : Text) (days : UInt32) : CanonicalLifecycleRule :=
  ⟨some id, .enabled, .modern .all, some (.days days), none, none, none, none⟩

/-- The latest version of a key, with an age that started at the epoch. -/
def sampleVersion : VersionLifecycleCandidate :=
  ⟨⟨[98], [107], [49], .null, .object, some [111], 1⟩, true, .unversioned, none, false, 1, 0, none⟩

/-- The evaluation of that version ten days later. -/
def sampleFacts (rules : List CanonicalLifecycleRule) : LifecycleEvaluationContext :=
  ⟨.version sampleVersion, [], 1, 0, 1, ⟨1, rules⟩, 10 * dayNanos⟩

/-- A rule that is not due for millions of years keeps a rule that is due from being selected: the
configuration is accepted, and the evaluation fails, although without the expiration of the second
rule it returns the action of the first one. -/
theorem far_expiration_fails :
    let facts := sampleFacts [sampleCanonicalRule [97] 1, sampleCanonicalRule [98] 2147483647]
    validateAndCanonicalize [sampleRule [97] 1, sampleRule [98] 2147483647] =
        .ok facts.configuration ∧
      evaluateCandidate facts = .error dueOutOfRange ∧
      evaluateCandidate (facts.without 1 .expiration) = .ok (some ⟨[], [98], 1, .id [97],
        .expireCurrent, .version sampleVersion.target, 2 * dayNanos⟩) ∧
      ¬Lenient facts := by
  have hfails : evaluateCandidate (sampleFacts [sampleCanonicalRule [97] 1,
      sampleCanonicalRule [98] 2147483647]) = .error dueOutOfRange := by decide +kernel
  refine ⟨by decide +kernel, hfails, by decide +kernel, fun h => ?_⟩
  obtain ⟨result, hresult⟩ := h.returns
  cases hresult

/-- Two rules in range. -/
theorem evaluateCandidate_lenient_iff_sampleFacts :
    Lenient (sampleFacts [sampleCanonicalRule [97] 1, sampleCanonicalRule [98] 30]) := by
  have haccepted : validateAndCanonicalize [sampleRule [97] 1, sampleRule [98] 30] =
      .ok (sampleFacts [sampleCanonicalRule [97] 1, sampleCanonicalRule [98] 30]).configuration := by
    decide +kernel
  refine (evaluateCandidate_lenient_iff haccepted (by decide)).mpr ?_
  intro candidate hcandidate rule hrule _ hoverflow
  obtain rfl := LifecycleCandidate.version.inj hcandidate
  obtain ⟨-, days, hdays, hfar⟩ := hoverflow
  revert hfar
  rcases List.mem_pair.mp hrule with rfl | rfl
  · obtain rfl := CurrentExpiration.days.inj (Option.some.inj hdays)
    decide
  · obtain rfl := CurrentExpiration.days.inj (Option.some.inj hdays)
    decide

end IpfS3.Lifecycle
