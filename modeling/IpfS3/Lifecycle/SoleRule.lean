import IpfS3.Foundations.Retention
import IpfS3.Lifecycle.Scheduling
import IpfS3.Lifecycle.Winner

/-!
# A key under one retention rule

A key whose versions are matched by one enabled rule, which expires noncurrent versions after a
number of days and keeps the newest of them.  The evaluation of a noncurrent version then selects an
action exactly when the version is due and more noncurrent versions are newer than the rule asks for,
and it is always the same action (`RetainedKey.evaluateCandidate_eq_some_iff`).
-/

namespace IpfS3.Lifecycle

open Fallible Keyset Store Table VersionStore LifecycleStore Retention

/-! ## Noncurrent versions -/

def LifecycleStore.noncurrentRows (db : LifecycleStore) (bucket key : Text) : List VersionRow :=
  (db.store.keyRows bucket key).filter fun row => !row.isLatest

/-- The instant at which a noncurrent version is due; none when it is out of range. -/
def dueInstant (days : UInt32) (row : VersionRow) : Option ℤ :=
  row.becameNoncurrentAt.bind fun start => (nextUtcMidnightAfterFullDays start days).toOption

def dueBy (days : UInt32) (now : ℤ) (row : VersionRow) : Bool :=
  (dueInstant days row).any fun due => decide (due ≤ now)

variable {days : UInt32} {action : NewLifecycleAction}

theorem dueBy_iff {now : ℤ} {row : VersionRow} :
    dueBy days now row = true ↔ ∃ due, dueInstant days row = some due ∧ due ≤ now := by
  unfold dueBy
  cases dueInstant days row with
  | none => simp
  | some due => simp

theorem dueBy_mono {now now' : ℤ} {row : VersionRow} (hle : now ≤ now')
    (h : dueBy days now row = true) : dueBy days now' row = true := by
  obtain ⟨due, hdue, hnow⟩ := dueBy_iff.mp h
  exact dueBy_iff.mpr ⟨due, hdue, hnow.trans hle⟩

theorem dueInstant_eq_some_iff {row : VersionRow} {due : ℤ} :
    dueInstant days row = some due ↔ ∃ start, row.becameNoncurrentAt = some start ∧
      nextUtcMidnightAfterFullDays start days = .ok due := by
  unfold dueInstant
  rw [Option.bind_eq_some_iff]
  refine exists_congr fun start => and_congr_right fun _ => ?_
  cases nextUtcMidnightAfterFullDays start days with
  | error e => simp [Except.toOption]
  | ok value => simp [Except.toOption]

section Rows

variable {db : LifecycleStore} {bucket key : Text} {row : VersionRow}

theorem mem_noncurrentRows : row ∈ db.noncurrentRows bucket key ↔
    row ∈ db.store.versions ∧ row.bucket = bucket ∧ row.key = key ∧ row.isLatest = false := by
  unfold noncurrentRows keyRows
  rw [List.mem_filter, List.mem_filter, ofKey_eq_true_iff, Bool.not_eq_true']
  tauto

theorem mem_keyRows_of_mem_noncurrentRows (h : row ∈ db.noncurrentRows bucket key) :
    row ∈ db.store.keyRows bucket key := List.mem_of_mem_filter h

theorem countP_isNewerNoncurrent (row : VersionRow) :
    (db.store.keyRows bucket key).countP (isNewerNoncurrent row.sequence) =
      newerCount VersionRow.sequence (db.noncurrentRows bucket key) row := by
  unfold newerCount noncurrentRows
  rw [List.countP_filter]
  refine List.countP_congr fun other _ => ?_
  unfold isNewerNoncurrent
  rw [Bool.and_comm]

end Rows

/-! ## Proposals -/

theorem isProposal_of_evaluateCandidate {facts : LifecycleEvaluationContext}
    {candidate : VersionLifecycleCandidate} (hcandidate : facts.candidate = .version candidate)
    (h : evaluateCandidate facts = .ok (some action)) :
    ∃ p, IsProposal facts p ∧ p.action = action := by
  obtain ⟨-, h⟩ := of_ensure h
  rw [hcandidate] at h
  obtain ⟨collected, hcollected, h⟩ := of_bind h
  obtain ⟨p, hp, hpa⟩ := Option.map_eq_some_iff.mp (Except.ok.inj h)
  have hmem := (head?_sortBy_eq_some proposalSortKey hp).1
  exact ⟨p, (mem_flatten_collectVersionRule hcandidate hcollected).mp hmem, hpa⟩

theorem target_of_evaluateCandidate {facts : LifecycleEvaluationContext}
    {candidate : VersionLifecycleCandidate} (hcandidate : facts.candidate = .version candidate)
    (h : evaluateCandidate facts = .ok (some action)) :
    action.target = .version candidate.target ∧ action.bucket = candidate.target.bucket := by
  obtain ⟨p, ⟨ordinal, rule, identity, kind, due, -, -, -, rfl⟩, rfl⟩ :=
    isProposal_of_evaluateCandidate hcandidate h
  unfold proposalFor
  rw [hcandidate]
  exact ⟨rfl, rfl⟩

theorem DescribesRow.target_eq {db : LifecycleStore} {row : VersionRow}
    {candidate : VersionLifecycleCandidate} (h : DescribesRow db row candidate) :
    ∃ versionId kind, publicVersionId row = .ok versionId ∧ versionKind row = .ok kind ∧
      candidate.target = targetOf row versionId kind := by
  obtain ⟨hbucket, hkey, hsequence, hobjectId, hkind, hversionId⟩ :=
    targetMatchesRow_eq_true h.target
  refine ⟨_, _, hversionId, hkind, ?_⟩
  unfold targetOf
  rw [hbucket, hkey, hsequence, hobjectId, ← h.rowId]

/-! ## The retention rule -/

/-- The action that expires a noncurrent version under a rule. -/
def expireAction (row : VersionRow) (versionId : PublicVersionId) (kind : VersionKind)
    (configRevision : ℤ) (identity : RuleIdentity) (due : ℤ) : NewLifecycleAction where
  idempotencyKey := []
  bucket := row.bucket
  configRevision := configRevision
  ruleIdentity := identity
  actionKind := .expireNoncurrent
  target := .version (targetOf row versionId kind)
  dueAt := due

/-- What a rule for the retention of noncurrent versions asks for. -/
structure RetentionTerms where
  configRevision : ℤ
  configuration : CanonicalLifecycleConfiguration
  ordinal : ℕ
  rule : CanonicalLifecycleRule
  identity : RuleIdentity × Text
  days : UInt32
  newerNoncurrentVersions : UInt16

/-- **A key under one retention rule**: its versions can be read, and of the enabled rules of its
bucket only the one of these terms matches them. -/
structure RetainedKey (db : LifecycleStore) (bucket key : Text) (terms : RetentionTerms) : Prop where
  constraints : VersionConstraints db.store
  readable : ∀ row ∈ db.store.keyRows bucket key, Readable db row
  columns : ∀ row ∈ db.store.keyRows bucket key, row.bucket ≠ [] ∧ row.key ≠ [] ∧ row.id ≠ [] ∧
    0 ≤ row.sequence ∧ row.objectId ≠ some []
  configured : db.configurations.lookup bucket =
    some (terms.configRevision, some terms.configuration)
  revision_pos : 0 < terms.configRevision
  rule_eq : terms.configuration.rules[terms.ordinal]? = some terms.rule
  identity_eq : ruleIdentity terms.rule.id terms.ordinal = .ok terms.identity
  enabled : terms.rule.status = .enabled
  expiration_eq : terms.rule.noncurrentVersionExpiration =
    some ⟨terms.days, some terms.newerNoncurrentVersions⟩
  no_transition : terms.rule.noncurrentVersionTransition = none
  matching : ∀ row ∈ db.store.keyRows bucket key,
    matchesFilter terms.rule.selector key (db.versionSize row) (db.versionTags row) = true
  sole : ∀ ordinal rule, terms.configuration.rules[ordinal]? = some rule →
    ordinal ≠ terms.ordinal → rule.status = .enabled → ∀ row ∈ db.store.keyRows bucket key,
      matchesFilter rule.selector key (db.versionSize row) (db.versionTags row) = false

namespace RetainedKey

variable {db : LifecycleStore} {bucket key : Text} {terms : RetentionTerms} {row : VersionRow}
  {candidate : VersionLifecycleCandidate} {now : ℤ}

section

variable (h : RetainedKey db bucket key terms)

include h

theorem selected_iff (hrow : row ∈ db.store.keyRows bucket key)
    (hdescribes : DescribesRow db row candidate) {ordinal : ℕ} {rule : CanonicalLifecycleRule}
    (hrule : terms.configuration.rules[ordinal]? = some rule) :
    selected ⟨candidate, db.evaluationContext candidate terms.configRevision terms.configuration
      now⟩ rule = true ↔ ordinal = terms.ordinal := by
  obtain ⟨-, hkey⟩ := ofKey_eq_true_iff.mp (List.mem_filter.mp hrow).2
  obtain ⟨-, hkeyTarget, -, hobjectId, -⟩ := targetMatchesRow_eq_true hdescribes.target
  have htags : (db.evaluationContext candidate terms.configRevision terms.configuration now).tags =
      db.versionTags row := by
    unfold evaluationContext versionTags
    rw [hobjectId]
  unfold selected
  rw [Bool.and_eq_true, decide_eq_true_iff, htags]
  show rule.status = .enabled ∧
    matchesFilter rule.selector candidate.target.key candidate.size (db.versionTags row) = true ↔ _
  rw [← hkeyTarget, hkey, hdescribes.size]
  constructor
  · rintro ⟨henabled, hmatches⟩
    by_contra hne
    rw [h.sole ordinal rule hrule hne henabled row hrow] at hmatches
    cases hmatches
  · rintro rfl
    cases hrule.symm.trans h.rule_eq
    exact ⟨h.enabled, h.matching row hrow⟩

section

variable (hrow : row ∈ db.noncurrentRows bucket key) (hdescribes : DescribesRow db row candidate)

include hrow hdescribes

theorem isProposal_iff {p : LifecycleProposal} :
    IsProposal (db.evaluationContext candidate terms.configRevision terms.configuration now) p ↔
      ∃ due, dueInstant terms.days row = some due ∧ due ≤ now ∧
        terms.newerNoncurrentVersions.toNat <
          newerCount VersionRow.sequence (db.noncurrentRows bucket key) row ∧
        p = proposal ⟨candidate, db.evaluationContext candidate terms.configRevision
          terms.configuration now⟩ terms.identity .expireNoncurrent due := by
  have hkeyRow := mem_keyRows_of_mem_noncurrentRows hrow
  obtain ⟨-, hbucket, hkey, hlatest⟩ := mem_noncurrentRows.mp hrow
  obtain ⟨hbucketTarget, hkeyTarget, hsequence, -⟩ := targetMatchesRow_eq_true hdescribes.target
  have hcount : (db.evaluationContext candidate terms.configRevision terms.configuration
      now).newerNoncurrentCount =
        newerCount VersionRow.sequence (db.noncurrentRows bucket key) row := by
    rw [← countP_isNewerNoncurrent, hsequence, ← hbucket, ← hkey, hbucketTarget, hkeyTarget]
    rfl
  constructor
  · rintro ⟨ordinal, rule, identity, kind, due, hrule, hidentity, hproposes, rfl⟩
    cases hproposes with
    | upload target days due hcandidate => cases hcandidate
    | version candidate' kind due hcandidate hselected heligible =>
      obtain rfl := LifecycleCandidate.version.inj hcandidate
      obtain rfl := (h.selected_iff hkeyRow hdescribes hrule).mp hselected
      cases hrule.symm.trans h.rule_eq
      cases hidentity.symm.trans h.identity_eq
      have hnoncurrent : candidate.isLatest = false := hdescribes.isLatest.trans hlatest
      cases heligible with
      | expireCurrent expiration due hcurrent =>
        exact absurd (hnoncurrent.symm.trans hcurrent) Bool.false_ne_true
      | deleteDatedMarker expiration due hcurrent =>
        exact absurd (hnoncurrent.symm.trans hcurrent) Bool.false_ne_true
      | deleteMarker hcurrent =>
        exact absurd (hnoncurrent.symm.trans hcurrent) Bool.false_ne_true
      | transitionCurrent transition due hcurrent =>
        exact absurd (hnoncurrent.symm.trans hcurrent) Bool.false_ne_true
      | transitionNoncurrent transition start due _ _ _ htransition =>
        rw [h.no_transition] at htransition
        cases htransition
      | expireNoncurrent expiration start due _ hexpiration hstart hnewer hdue hreached =>
        rw [h.expiration_eq] at hexpiration
        cases hexpiration
        have hnewer := hnewer _ rfl
        rw [hcount] at hnewer
        refine ⟨due, dueInstant_eq_some_iff.mpr ⟨start, ?_, hdue⟩, hreached, hnewer, rfl⟩
        exact hdescribes.becameNoncurrentAt.symm.trans hstart
  · rintro ⟨due, hdue, hreached, hnewer, rfl⟩
    obtain ⟨start, hstart, hdue⟩ := dueInstant_eq_some_iff.mp hdue
    refine ⟨terms.ordinal, terms.rule, terms.identity, .expireNoncurrent, due, h.rule_eq,
      h.identity_eq, .version candidate _ due rfl
        ((h.selected_iff hkeyRow hdescribes h.rule_eq).mpr rfl) ?_, rfl⟩
    refine .expireNoncurrent _ start due (hdescribes.isLatest.trans hlatest) h.expiration_eq
      (hdescribes.becameNoncurrentAt.trans hstart) (fun newer hmem => ?_) hdue hreached
    cases hmem
    exact hcount.symm ▸ hnewer

theorem exists_collected {due : ℤ} (hdue : dueInstant terms.days row = some due) (now : ℤ) :
    ∃ collected, terms.configuration.rules.zipIdx.mapM (collectVersionRule
      ⟨candidate, db.evaluationContext candidate terms.configRevision terms.configuration now⟩) =
        .ok collected := by
  have hkeyRow := mem_keyRows_of_mem_noncurrentRows hrow
  obtain ⟨start, hstart, hdue⟩ := dueInstant_eq_some_iff.mp hdue
  have hnoncurrent : candidate.isLatest = false :=
    hdescribes.isLatest.trans (mem_noncurrentRows.mp hrow).2.2.2
  refine mapM_isOk_iff.mpr ?_
  rintro ⟨rule, ordinal⟩ hentry
  have hrule := List.mk_mem_zipIdx_iff_getElem?.mp hentry
  rw [collectVersionRule]
  by_cases hordinal : ordinal = terms.ordinal
  · subst hordinal
    cases hrule.symm.trans h.rule_eq
    have hexpirations : ∃ expirations, collectNoncurrentProposal ⟨candidate, db.evaluationContext
        candidate terms.configRevision terms.configuration now⟩
        (some ⟨terms.days, some terms.newerNoncurrentVersions⟩) terms.identity =
          .ok expirations := by
      unfold collectNoncurrentProposal
      dsimp only
      rw [hdescribes.becameNoncurrentAt.trans hstart]
      dsimp only
      rw [hdue, ok_bind]
      split_ifs
      · exact ⟨_, rfl⟩
      · exact ⟨_, rfl⟩
    obtain ⟨expirations, hexpirations⟩ := hexpirations
    rw [if_pos ((h.selected_iff hkeyRow hdescribes hrule).mpr rfl), h.identity_eq, ok_bind,
      collectExpirationProposal, if_neg (by rw [hnoncurrent]; decide), h.expiration_eq,
      hexpirations, ok_bind]
    exact ⟨_, rfl⟩
  · rw [if_neg fun hselected => hordinal ((h.selected_iff hkeyRow hdescribes hrule).mp hselected)]
    exact ⟨[], rfl⟩

/-- **The evaluation of a noncurrent version** selects its one action, once it is due and enough
versions are newer. -/
theorem evaluateCandidate_eq_some_iff :
    evaluateCandidate (db.evaluationContext candidate terms.configRevision terms.configuration
      now) = .ok (some action) ↔
      ∃ versionId kind due, publicVersionId row = .ok versionId ∧ versionKind row = .ok kind ∧
        dueInstant terms.days row = some due ∧ due ≤ now ∧
        terms.newerNoncurrentVersions.toNat <
          newerCount VersionRow.sequence (db.noncurrentRows bucket key) row ∧
        action = expireAction row versionId kind terms.configRevision terms.identity.1 due := by
  obtain ⟨versionId, kind, hversionId, hkind, htarget⟩ := hdescribes.target_eq
  have haction : ∀ due, (proposal ⟨candidate, db.evaluationContext candidate terms.configRevision
      terms.configuration now⟩ terms.identity .expireNoncurrent due).action =
        expireAction row versionId kind terms.configRevision terms.identity.1 due := by
    intro due
    unfold proposal expireAction
    rw [htarget]
    rfl
  constructor
  · intro heval
    obtain ⟨p, hp, rfl⟩ := isProposal_of_evaluateCandidate rfl heval
    obtain ⟨due, hdue, hreached, hnewer, rfl⟩ := (h.isProposal_iff hrow hdescribes).mp hp
    exact ⟨versionId, kind, due, hversionId, hkind, hdue, hreached, hnewer, haction due⟩
  · rintro ⟨versionId', kind', due, hversionId', hkind', hdue, hreached, hnewer, rfl⟩
    cases hversionId.symm.trans hversionId'
    cases hkind.symm.trans hkind'
    obtain ⟨collected, hcollected⟩ := h.exists_collected hrow hdescribes hdue now
    have hmem : ∀ p, p ∈ collected.flatten ↔ IsProposal (db.evaluationContext candidate
        terms.configRevision terms.configuration now) p :=
      fun p => mem_flatten_collectVersionRule rfl hcollected
    have hproposal := (h.isProposal_iff hrow hdescribes).mpr ⟨due, hdue, hreached, hnewer, rfl⟩
    have hwinner : ∃ p, selectWinner collected.flatten = some p := by
      rw [← Option.isSome_iff_exists, Option.isSome_iff_ne_none, selectWinner,
        Ne, head?_sortBy_eq_none_iff]
      exact List.ne_nil_of_mem ((hmem _).mpr hproposal)
    obtain ⟨p, hp⟩ := hwinner
    have hpmem := (hmem p).mp (head?_sortBy_eq_some proposalSortKey hp).1
    obtain ⟨due', hdue', -, -, rfl⟩ := (h.isProposal_iff hrow hdescribes).mp hpmem
    cases hdue.symm.trans hdue'
    have hrevision : 0 < (db.evaluationContext candidate terms.configRevision terms.configuration
      now).configRevision := h.revision_pos
    rw [evaluateCandidate, ensure_of hrevision, ok_bind]
    show (terms.configuration.rules.zipIdx.mapM _ >>= _) = _
    rw [hcollected, ok_bind, hp, Option.map_some, haction]

end

end

end RetainedKey

end IpfS3.Lifecycle
