import IpfS3.Lifecycle.Proposals

/-!
# The winner of an evaluation

The evaluator returns the least of all proposals in the order of effect priority, due instant and
stable rule identity (`evaluateCandidate_winner`).  No two proposals tie
(`eq_of_proposalSortKey_eq`): two rules differ in their identity, and the two actions that one rule
can propose for a version differ in their effect priority.  So it does not matter that the sort is
stable, and the order of the rules only matters for rules without an ID, whose identity is their
ordinal.
-/

namespace IpfS3.Lifecycle

open Fallible Keyset Store List

/-! ## Identities of rules -/

theorem digit_inj {m n : ℕ} (h : digit m = digit n) : m % 10 = n % 10 := by
  have hnat := congrArg UInt8.toNat h
  unfold digit at hnat
  rw [UInt8.toNat_ofNat', UInt8.toNat_ofNat'] at hnat
  omega

theorem fiveDigits_inj {m n : ℕ} (hm : m < 100000) (hn : n < 100000)
    (h : fiveDigits m = fiveDigits n) : m = n := by
  unfold fiveDigits at h
  simp only [cons.injEq, and_true] at h
  obtain ⟨h₅, h₄, h₃, h₂, h₁⟩ := h
  have := digit_inj h₅
  have := digit_inj h₄
  have := digit_inj h₃
  have := digit_inj h₂
  have := digit_inj h₁
  omega

variable {rule : CanonicalLifecycleRule} {rules : List CanonicalLifecycleRule}
  {kind : LifecycleActionKind}

theorem eq_of_id_eq (hnodup : (rules.filterMap CanonicalLifecycleRule.id).Nodup) {i j : ℕ}
    {rule' : CanonicalLifecycleRule} {id : Text} (hi : rules[i]? = some rule)
    (hj : rules[j]? = some rule') (hid : rule.id = some id) (hid' : rule'.id = some id) :
    i = j := by
  have hpairwise : rules.Pairwise fun a b => ∀ x, a.id = some x → ∀ y, b.id = some y → x ≠ y :=
    pairwise_filterMap.mp hnodup
  obtain ⟨hilt, rfl⟩ := List.getElem?_eq_some_iff.mp hi
  obtain ⟨hjlt, rfl⟩ := List.getElem?_eq_some_iff.mp hj
  rcases lt_trichotomy i j with hlt | heq | hlt
  · exact absurd rfl (pairwise_iff_getElem.mp hpairwise i j hilt hjlt hlt id hid id hid')
  · exact heq
  · exact absurd rfl (pairwise_iff_getElem.mp hpairwise j i hjlt hilt hlt id hid' id hid)

/-- **Stable identities tell the rules of a configuration apart.** -/
theorem ordinal_eq_of_stable_eq (hnodup : (rules.filterMap CanonicalLifecycleRule.id).Nodup)
    {i j : ℕ} {rule' : CanonicalLifecycleRule} {identity identity' : RuleIdentity × Text}
    (hi : rules[i]? = some rule) (hj : rules[j]? = some rule')
    (hidentity : ruleIdentity rule.id i = .ok identity)
    (hidentity' : ruleIdentity rule'.id j = .ok identity') (h : identity.2 = identity'.2) :
    i = j := by
  cases hid : rule.id with
  | some id =>
    rw [hid] at hidentity
    cases hidentity
    cases hid' : rule'.id with
    | some id' =>
      rw [hid'] at hidentity'
      cases hidentity'
      obtain rfl := append_cancel_left h
      exact eq_of_id_eq hnodup hi hj hid hid'
    | none =>
      rw [hid'] at hidentity'
      obtain ⟨-, hidentity'⟩ := of_ensure hidentity'
      cases hidentity'
      exact absurd (cons.inj h).1 (by decide)
  | none =>
    rw [hid] at hidentity
    obtain ⟨hlt, hidentity⟩ := of_ensure hidentity
    cases hidentity
    cases hid' : rule'.id with
    | some id' =>
      rw [hid'] at hidentity'
      cases hidentity'
      exact absurd (cons.inj h).1 (by decide)
    | none =>
      rw [hid'] at hidentity'
      obtain ⟨hlt', hidentity'⟩ := of_ensure hidentity'
      cases hidentity'
      exact fiveDigits_inj (by omega) (by omega) (append_cancel_left h)

/-! ## No two proposals tie -/

/-- **The actions that a rule proposes for a version differ in their effect priority.** -/
theorem Eligible.kind_eq {context : VersionEvaluationContext} {kind' : LifecycleActionKind}
    {due due' : ℤ} (h : Eligible context rule kind due) (h' : Eligible context rule kind' due')
    (hpriority : effectPriority context.candidate kind = effectPriority context.candidate kind') :
    kind = kind' := by
  have hcurrent : effectPriority context.candidate .expireCurrent ≠ 1 := by
    rw [effectPriority]
    cases context.candidate.bucketVersioningState with
    | unversioned => simp
    | enabled => simp
    | suspended =>
      dsimp only
      split_ifs
      · decide
      · decide
  cases h <;> cases h' <;> simp_all [effectPriority]

variable {facts : LifecycleEvaluationContext} {p q : LifecycleProposal}

/-- **No two proposals tie.** -/
theorem eq_of_proposalSortKey_eq (hvalidated : Validated facts.configuration)
    (hp : IsProposal facts p) (hq : IsProposal facts q)
    (h : proposalSortKey p = proposalSortKey q) : p = q := by
  obtain ⟨i, rule, identity, kind, due, hi, hidentity, hproposes, rfl⟩ := hp
  obtain ⟨j, rule', identity', kind', due', hj, hidentity', hproposes', rfl⟩ := hq
  have hkey := toLex.injective h
  obtain ⟨hpriority, hrest⟩ := Prod.mk.inj hkey
  obtain ⟨hdue, hstable⟩ := Prod.mk.inj (toLex.injective hrest)
  unfold proposalFor at hpriority hdue hstable ⊢
  cases hproposes with
  | version candidate kind due hcandidate hselected heligible =>
    rw [hcandidate] at hpriority hdue hstable ⊢
    obtain rfl := ordinal_eq_of_stable_eq hvalidated.ids_nodup hi hj hidentity hidentity' hstable
    cases hi.symm.trans hj
    cases hidentity.symm.trans hidentity'
    obtain rfl : due = due' := hdue
    cases hproposes' with
    | version candidate' kind' due hcandidate' hselected' heligible' =>
      obtain rfl := LifecycleCandidate.version.inj (hcandidate.symm.trans hcandidate')
      rw [heligible.kind_eq heligible' hpriority]
    | upload target days due hupload =>
      rw [hcandidate] at hupload
      cases hupload
  | upload target days due hcandidate =>
    rw [hcandidate] at hpriority hdue hstable ⊢
    obtain rfl := ordinal_eq_of_stable_eq hvalidated.ids_nodup hi hj hidentity hidentity' hstable
    cases hi.symm.trans hj
    cases hidentity.symm.trans hidentity'
    obtain rfl : due = due' := hdue
    rfl

/-! ## The evaluation -/

/-- The action of the least proposal, if there is one. -/
structure Winner (facts : LifecycleEvaluationContext) (result : Option NewLifecycleAction) : Prop where
  /-- An action is returned exactly when a rule proposes one. -/
  isSome_iff : result.isSome = true ↔
    ∃ rule ∈ facts.configuration.rules, ∃ kind due, Proposes facts rule kind due
  /-- It is the action of a proposal that comes strictly before all others. -/
  least : ∀ action, result = some action → ∃ p, IsProposal facts p ∧ p.action = action ∧
    ∀ q, IsProposal facts q → q ≠ p → proposalSortKey p < proposalSortKey q
  /-- Its target is the candidate. -/
  target_eq : ∀ action, result = some action → action.target = facts.candidate.target
  /-- It is due, or it is the cleanup of a delete marker, which has no date. -/
  dueAt_le : ∀ action, result = some action → action.dueAt ≤ facts.databaseNow ∨
    ∃ candidate, facts.candidate = .version candidate ∧ action.actionKind = .deleteExpiredMarker ∧
      candidate.target.kind = .deleteMarker ∧ facts.publicVersionCount = 1 ∧
      action.dueAt = candidate.lifecycleAgeStartedAt ∧
      ∃ rule ∈ facts.configuration.rules, rule.expiration = some .expiredObjectDeleteMarker

theorem Validated.exists_identity (hvalidated : Validated facts.configuration) {ordinal : ℕ}
    (hget : facts.configuration.rules[ordinal]? = some rule) :
    ∃ identity, ruleIdentity rule.id ordinal = .ok identity := by
  obtain ⟨hlt, -⟩ := List.getElem?_eq_some_iff.mp hget
  have hle := hvalidated.length_le
  exact exists_ruleIdentity rule.id (by omega)

theorem exists_isProposal_iff (hvalidated : Validated facts.configuration) :
    (∃ p, IsProposal facts p) ↔
      ∃ rule ∈ facts.configuration.rules, ∃ kind due, Proposes facts rule kind due := by
  constructor
  · rintro ⟨p, ordinal, rule, identity, kind, due, hget, -, hproposes, -⟩
    exact ⟨rule, mem_of_getElem? hget, kind, due, hproposes⟩
  · rintro ⟨rule, hrule, kind, due, hproposes⟩
    obtain ⟨ordinal, hget⟩ := getElem?_of_mem hrule
    obtain ⟨identity, hidentity⟩ := hvalidated.exists_identity hget
    exact ⟨_, ordinal, rule, identity, kind, due, hget, hidentity, hproposes, rfl⟩

theorem IsProposal.target_eq (h : IsProposal facts p) : p.action.target = facts.candidate.target := by
  obtain ⟨ordinal, rule, identity, kind, due, -, -, -, rfl⟩ := h
  unfold proposalFor
  cases facts.candidate with
  | version candidate => rfl
  | multipartUpload target => rfl

theorem IsProposal.dueAt_le (h : IsProposal facts p) : p.action.dueAt ≤ facts.databaseNow ∨
    ∃ candidate, facts.candidate = .version candidate ∧
      p.action.actionKind = .deleteExpiredMarker ∧ candidate.target.kind = .deleteMarker ∧
      facts.publicVersionCount = 1 ∧ p.action.dueAt = candidate.lifecycleAgeStartedAt ∧
      ∃ rule ∈ facts.configuration.rules, rule.expiration = some .expiredObjectDeleteMarker := by
  obtain ⟨ordinal, rule, identity, kind, due, hget, -, hproposes, rfl⟩ := h
  unfold proposalFor
  cases hproposes with
  | upload target days due hcandidate henabled hmatches hrule hdue hreached =>
    rw [hcandidate]
    exact Or.inl hreached
  | version candidate kind due hcandidate hselected heligible =>
    rw [hcandidate]
    cases heligible with
    | deleteMarker hlatest hkind hsole hrule =>
      exact Or.inr ⟨candidate, rfl, rfl, hkind, hsole, rfl, rule, mem_of_getElem? hget, hrule⟩
    | expireCurrent _ _ _ _ _ _ hreached => exact Or.inl hreached
    | deleteDatedMarker _ _ _ _ _ _ _ hreached => exact Or.inl hreached
    | transitionCurrent _ _ _ _ _ _ _ hreached => exact Or.inl hreached
    | transitionNoncurrent _ _ _ _ _ _ _ _ _ _ hreached => exact Or.inl hreached
    | expireNoncurrent _ _ _ _ _ _ _ _ hreached => exact Or.inl hreached

theorem winner_of_least (hvalidated : Validated facts.configuration)
    {proposals : List LifecycleProposal} (hmem : ∀ p, p ∈ proposals ↔ IsProposal facts p)
    {choice : Option LifecycleProposal} (hnone : choice = none ↔ proposals = [])
    (hsome : ∀ p, choice = some p →
      p ∈ proposals ∧ ∀ q ∈ proposals, proposalSortKey p ≤ proposalSortKey q) :
    Winner facts (choice.map LifecycleProposal.action) := by
  have hproposal : ∀ action, choice.map LifecycleProposal.action = some action →
      ∃ p, IsProposal facts p ∧ p.action = action ∧
        ∀ q, IsProposal facts q → q ≠ p → proposalSortKey p < proposalSortKey q := by
    intro action haction
    obtain ⟨p, hchoice, rfl⟩ := Option.map_eq_some_iff.mp haction
    obtain ⟨hp, hle⟩ := hsome p hchoice
    refine ⟨p, (hmem p).mp hp, rfl, fun q hq hne => lt_of_le_of_ne (hle q ((hmem q).mpr hq)) ?_⟩
    exact fun heq => hne (eq_of_proposalSortKey_eq hvalidated ((hmem p).mp hp) hq heq).symm
  refine ⟨?_, hproposal, fun action haction => ?_, fun action haction => ?_⟩
  · rw [Option.isSome_map, ← exists_isProposal_iff hvalidated]
    constructor
    · intro hchoice
      obtain ⟨p, hp⟩ := Option.isSome_iff_exists.mp hchoice
      exact ⟨p, (hmem p).mp (hsome p hp).1⟩
    · rintro ⟨p, hp⟩
      rw [← Option.ne_none_iff_isSome, ne_eq, hnone]
      exact ne_nil_of_mem ((hmem p).mpr hp)
  · obtain ⟨p, hp, rfl, -⟩ := hproposal action haction
    exact hp.target_eq
  · obtain ⟨p, hp, rfl, -⟩ := hproposal action haction
    exact hp.dueAt_le

theorem mem_flatten_collect
    {collect : CanonicalLifecycleRule × ℕ → AppResult (List LifecycleProposal)}
    {collected : List (List LifecycleProposal)}
    (hcollect : ∀ {rule ordinal proposals}, collect (rule, ordinal) = .ok proposals →
      (p ∈ proposals ↔ ∃ identity kind due, ruleIdentity rule.id ordinal = .ok identity ∧
        Proposes facts rule kind due ∧ p = proposalFor facts identity kind due))
    (h : facts.configuration.rules.zipIdx.mapM collect = .ok collected) :
    p ∈ collected.flatten ↔ IsProposal facts p := by
  rw [mem_flatten_of_mapM h]
  constructor
  · rintro ⟨⟨rule, ordinal⟩, hentry, proposals, hproposals, hp⟩
    obtain ⟨identity, kind, due, hp⟩ := (hcollect hproposals).mp hp
    exact ⟨ordinal, rule, identity, kind, due, mk_mem_zipIdx_iff_getElem?.mp hentry, hp⟩
  · rintro ⟨ordinal, rule, identity, kind, due, hget, hp⟩
    have hentry : (rule, ordinal) ∈ facts.configuration.rules.zipIdx :=
      mk_mem_zipIdx_iff_getElem?.mpr hget
    obtain ⟨proposals, hproposals⟩ := mapM_isOk_iff.mp ⟨collected, h⟩ _ hentry
    exact ⟨_, hentry, proposals, hproposals, (hcollect hproposals).mpr ⟨identity, kind, due, hp⟩⟩

theorem mem_flatten_collectVersionRule {candidate : VersionLifecycleCandidate}
    (hcandidate : facts.candidate = .version candidate) {collected : List (List LifecycleProposal)}
    (h : facts.configuration.rules.zipIdx.mapM (collectVersionRule ⟨candidate, facts⟩) =
      .ok collected) : p ∈ collected.flatten ↔ IsProposal facts p := by
  refine mem_flatten_collect (fun hproposals => ?_) h
  simp only [mem_of_collectVersionRule hproposals, proposalFor, hcandidate]
  constructor
  · rintro ⟨hselected, identity, kind, due, hidentity, heligible, hp⟩
    exact ⟨identity, kind, due, hidentity, .version candidate kind due hcandidate hselected heligible,
      hp⟩
  · rintro ⟨identity, kind, due, hidentity, hproposes, hp⟩
    cases hproposes with
    | version candidate' kind due hcandidate' hselected heligible =>
      obtain rfl := LifecycleCandidate.version.inj (hcandidate.symm.trans hcandidate')
      exact ⟨hselected, identity, kind, due, hidentity, heligible, hp⟩
    | upload target days due hupload =>
      rw [hcandidate] at hupload
      cases hupload

theorem mem_flatten_collectUploadRule {target : MultipartUploadTargetIdentity}
    (hcandidate : facts.candidate = .multipartUpload target)
    {collected : List (List LifecycleProposal)}
    (h : facts.configuration.rules.zipIdx.mapM (collectUploadRule facts target) = .ok collected) :
    p ∈ collected.flatten ↔ IsProposal facts p := by
  refine mem_flatten_collect (fun hproposals => ?_) h
  simp only [mem_of_collectUploadRule hcandidate hproposals, proposalFor, hcandidate]

/-- **The evaluation returns the winner.** -/
theorem winner_of_evaluateCandidate (hvalidated : Validated facts.configuration)
    {result : Option NewLifecycleAction} (h : evaluateCandidate facts = .ok result) :
    Winner facts result := by
  obtain ⟨-, h⟩ := of_ensure h
  cases hcandidate : facts.candidate with
  | version candidate =>
    rw [hcandidate] at h
    obtain ⟨collected, hcollected, h⟩ := of_bind h
    cases h
    exact winner_of_least hvalidated
      (fun p => mem_flatten_collectVersionRule hcandidate hcollected)
      (head?_sortBy_eq_none_iff proposalSortKey)
      fun p hp => head?_sortBy_eq_some proposalSortKey hp
  | multipartUpload target =>
    rw [hcandidate] at h
    obtain ⟨collected, hcollected, h⟩ := of_bind h
    cases h
    have hmem := fun p => mem_flatten_collectUploadRule (p := p) hcandidate hcollected
    -- all uploads have the same effect priority
    have hpriority : ∀ p ∈ collected.flatten, p.effectPriority = 0 := by
      intro p hp
      obtain ⟨ordinal, rule, identity, kind, due, -, -, -, rfl⟩ := (hmem p).mp hp
      unfold proposalFor
      rw [hcandidate]
      rfl
    refine winner_of_least hvalidated hmem (head?_sortBy_eq_none_iff uploadSortKey) fun p hp => ?_
    obtain ⟨hp, hle⟩ := head?_sortBy_eq_some uploadSortKey hp
    refine ⟨hp, fun q hq => Prod.Lex.toLex_le_toLex.mpr (Or.inr ⟨?_, hle q hq⟩)⟩
    rw [hpriority p hp, hpriority q hq]

/-! ## The order of the rules -/

/-- The evaluation of the same facts under other rules. -/
def LifecycleEvaluationContext.withRules (facts : LifecycleEvaluationContext)
    (rules : List CanonicalLifecycleRule) : LifecycleEvaluationContext :=
  { facts with configuration := { facts.configuration with rules := rules } }

theorem Eligible.withRules {candidate : VersionLifecycleCandidate} {due : ℤ}
    (rules : List CanonicalLifecycleRule) (h : Eligible ⟨candidate, facts⟩ rule kind due) :
    Eligible ⟨candidate, facts.withRules rules⟩ rule kind due := by
  cases h with
  | expireCurrent expiration due hlatest hkind hrule hdue hreached =>
    exact .expireCurrent expiration due hlatest hkind hrule hdue hreached
  | deleteDatedMarker expiration due hlatest hkind hsole hrule hdue hreached =>
    exact .deleteDatedMarker expiration due hlatest hkind hsole hrule hdue hreached
  | deleteMarker hlatest hkind hsole hrule => exact .deleteMarker hlatest hkind hsole hrule
  | transitionCurrent transition due hlatest hkind hclass hrule hdue hreached =>
    exact .transitionCurrent transition due hlatest hkind hclass hrule hdue hreached
  | transitionNoncurrent transition start due hlatest hkind hclass hrule hstart hnewer hdue
      hreached =>
    exact .transitionNoncurrent transition start due hlatest hkind hclass hrule hstart hnewer hdue
      hreached
  | expireNoncurrent expiration start due hlatest hrule hstart hnewer hdue hreached =>
    exact .expireNoncurrent expiration start due hlatest hrule hstart hnewer hdue hreached

theorem Proposes.withRules {due : ℤ} (rules : List CanonicalLifecycleRule)
    (h : Proposes facts rule kind due) :
    Proposes (facts.withRules rules) rule kind due := by
  cases h with
  | version candidate kind due hcandidate hselected heligible =>
    exact .version candidate kind due hcandidate hselected (heligible.withRules rules)
  | upload target days due hcandidate henabled hmatches hrule hdue hreached =>
    exact .upload target days due hcandidate henabled hmatches hrule hdue hreached

theorem IsProposal.withRules (hsub : facts.configuration.rules ⊆ rules)
    (hids : ∀ rule ∈ facts.configuration.rules, rule.id.isSome = true) (h : IsProposal facts p) :
    IsProposal (facts.withRules rules) p := by
  obtain ⟨ordinal, rule, identity, kind, due, hget, hidentity, hproposes, rfl⟩ := h
  have hrule := mem_of_getElem? hget
  obtain ⟨ordinal', hget'⟩ := getElem?_of_mem (hsub hrule)
  obtain ⟨id, hid⟩ := Option.isSome_iff_exists.mp (hids rule hrule)
  refine ⟨ordinal', rule, identity, kind, due, hget', ?_, hproposes.withRules rules, rfl⟩
  rw [hid] at hidentity ⊢
  exact hidentity

theorem Validated.perm (h : Validated facts.configuration)
    (hperm : rules.Perm facts.configuration.rules) :
    Validated (facts.withRules rules).configuration := by
  refine ⟨?_, ?_, fun rule hrule => h.rules_valid rule (hperm.mem_iff.mp hrule)⟩
  · exact hperm.length_eq.trans_le h.length_le
  · exact (hperm.filterMap CanonicalLifecycleRule.id).nodup_iff.mpr h.ids_nodup

theorem Winner.eq_of_perm (hvalidated : Validated facts.configuration)
    (hperm : rules.Perm facts.configuration.rules)
    (hids : ∀ rule ∈ facts.configuration.rules, rule.id.isSome = true)
    {result result' : Option NewLifecycleAction} (h : Winner facts result)
    (h' : Winner (facts.withRules rules) result') : result' = result := by
  have hthere : ∀ p, IsProposal facts p → IsProposal (facts.withRules rules) p :=
    fun p hp => hp.withRules hperm.symm.subset hids
  have hback : ∀ p, IsProposal (facts.withRules rules) p → IsProposal facts p := by
    intro p hp
    have hrestored : IsProposal ((facts.withRules rules).withRules facts.configuration.rules) p :=
      hp.withRules hperm.subset fun rule hrule => hids rule (hperm.mem_iff.mp hrule)
    exact hrestored
  have hisSome : result'.isSome = true ↔ result.isSome = true := by
    rw [h.isSome_iff, h'.isSome_iff, ← exists_isProposal_iff hvalidated,
      ← exists_isProposal_iff (hvalidated.perm hperm)]
    exact ⟨fun ⟨p, hp⟩ => ⟨p, hback p hp⟩, fun ⟨p, hp⟩ => ⟨p, hthere p hp⟩⟩
  cases result with
  | none =>
    cases result' with
    | none => rfl
    | some action' => exact absurd (hisSome.mp rfl) (by decide)
  | some action =>
    cases result' with
    | none => exact absurd (hisSome.mpr rfl) (by decide)
    | some action' =>
      obtain ⟨p, hp, rfl, hleast⟩ := h.least action rfl
      obtain ⟨p', hp', rfl, hleast'⟩ := h'.least action' rfl
      by_cases heq : p' = p
      · rw [heq]
      · exact absurd (hleast p' (hback p' hp') heq)
          (not_lt.mpr (hleast' p (hthere p hp) fun h => heq h.symm).le)

theorem ExpirationsInRange.perm (h : ExpirationsInRange facts)
    (hperm : rules.Perm facts.configuration.rules) : ExpirationsInRange (facts.withRules rules) :=
  fun candidate hcandidate rule hrule => h candidate hcandidate rule (hperm.mem_iff.mp hrule)

/-- **The winner is the exact minimum, whatever the order of the rules.**  For an accepted
configuration, a positive revision and expirations in range, the evaluation returns; what it returns
is the action of the least proposal, and if all rules have IDs then every order of the rules gives the
same result. -/
theorem evaluateCandidate_winner {input : List LifecycleRule}
    (haccepted : validateAndCanonicalize input = .ok facts.configuration)
    (hrevision : 0 < facts.configRevision) (hrange : ExpirationsInRange facts) :
    ∃ result, evaluateCandidate facts = .ok result ∧ Winner facts result ∧
      ((∀ rule ∈ facts.configuration.rules, rule.id.isSome = true) →
        ∀ rules, rules.Perm facts.configuration.rules →
          evaluateCandidate (facts.withRules rules) = .ok result) := by
  have hvalidated := validated_of_accepted haccepted
  obtain ⟨result, hresult⟩ := (evaluateCandidate_isOk_iff hvalidated hrevision).mpr hrange
  have hwinner := winner_of_evaluateCandidate hvalidated hresult
  refine ⟨result, hresult, hwinner, fun hids rules hperm => ?_⟩
  have hrevision' : 0 < (facts.withRules rules).configRevision := hrevision
  obtain ⟨result', hresult'⟩ :=
    (evaluateCandidate_isOk_iff (hvalidated.perm hperm) hrevision').mpr (hrange.perm hperm)
  have hwinner' := winner_of_evaluateCandidate (hvalidated.perm hperm) hresult'
  rw [hresult', hwinner.eq_of_perm hvalidated hperm hids hwinner']

/-! ## A marker of the future -/

/-- A rule of the request on all keys that cleans up delete markers. -/
def markerRule : LifecycleRule :=
  ⟨none, some ⟨none, none, some true⟩, some ⟨none, none, none, none, none⟩, some [109], none, none,
    none, enabledStatus, none⟩

/-- A delete marker that is the only version of its key, with an age that starts after the clock of
the evaluation. -/
def markerFacts : LifecycleEvaluationContext :=
  ⟨.version ⟨⟨[98], [107], [49], .null, .deleteMarker, none, 1⟩, true, .suspended, none, false, 0, 7,
      none⟩, [], 1, 0, 1,
    ⟨1, [⟨some [109], .enabled, .modern .all, some .expiredObjectDeleteMarker, none, none, none,
      none⟩]⟩, 5⟩

/-- The cleanup of a delete marker is proposed before its due instant has been reached. -/
theorem marker_proposed_before_due :
    validateAndCanonicalize [markerRule] = .ok markerFacts.configuration ∧
      ∃ action, evaluateCandidate markerFacts = .ok (some action) ∧
        markerFacts.databaseNow < action.dueAt := by
  refine ⟨by decide +kernel, ⟨[], [98], 1, .id [109], .deleteExpiredMarker,
    .version ⟨[98], [107], [49], .null, .deleteMarker, none, 1⟩, 7⟩, by decide +kernel, by decide⟩

/-- The first of two rules that are due. -/
theorem evaluateCandidate_winner_sampleFacts :
    ∃ result, evaluateCandidate (sampleFacts [sampleCanonicalRule [98] 2,
        sampleCanonicalRule [97] 1]) = .ok (some result) ∧
      Winner (sampleFacts [sampleCanonicalRule [98] 2, sampleCanonicalRule [97] 1])
        (some result) := by
  have haccepted : validateAndCanonicalize [sampleRule [98] 2, sampleRule [97] 1] =
      .ok (sampleFacts [sampleCanonicalRule [98] 2, sampleCanonicalRule [97] 1]).configuration := by
    decide +kernel
  have hrange : ExpirationsInRange (sampleFacts [sampleCanonicalRule [98] 2,
      sampleCanonicalRule [97] 1]) := by
    intro candidate hcandidate rule hrule _ hoverflow
    obtain rfl := LifecycleCandidate.version.inj hcandidate
    obtain ⟨-, days, hdays, hfar⟩ := hoverflow
    revert hfar
    rcases mem_pair.mp hrule with rfl | rfl
    · obtain rfl := CurrentExpiration.days.inj (Option.some.inj hdays)
      decide
    · obtain rfl := CurrentExpiration.days.inj (Option.some.inj hdays)
      decide
  obtain ⟨result, hresult, hwinner, -⟩ := evaluateCandidate_winner haccepted (by decide) hrange
  have hsome : evaluateCandidate (sampleFacts [sampleCanonicalRule [98] 2,
      sampleCanonicalRule [97] 1]) = .ok (some ⟨[], [98], 1, .id [97], .expireCurrent,
        .version sampleVersion.target, 2 * dayNanos⟩) := by decide +kernel
  cases hresult.symm.trans hsome
  exact ⟨_, hsome, hwinner⟩

end IpfS3.Lifecycle
