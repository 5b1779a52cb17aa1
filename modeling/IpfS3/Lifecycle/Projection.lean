import IpfS3.Lifecycle.Config

/-!
# From the stored configuration back to the S3 rules

`lifecycle/config.rs`: `to_s3_rules` answers a request for the lifecycle of a bucket from the
canonical configuration that is stored.  It validates the configuration and projects its rules one
by one.

Canonicalising a projected rule gives back the rule, field by field (`canonicalizeRule_projectRule`),
as long as the days of its expiration fit the signed field of the request and its dates have a text.
The validator of the stored form bounds the days of the other actions, but not those of an
expiration, and it takes any midnight; a stored configuration is projectable exactly when both are
in range (`projectable_iff`).

How an instant is written as an S3 timestamp is the library's, and a parameter, with what is assumed
of it in `WritesRfc3339`.
-/

namespace IpfS3.Lifecycle

open Fallible Keyset List Option

/-! ## Projection -/

/-- `i32::try_from` on a number of days. -/
def tryDays (days : UInt32) (message : String) : AppResult Int32 := do
  ensure (days.toNat ≤ maxDays) (invalid message)
  .ok days.toInt32

def projectTag (tag : CanonicalTag) : Tag := ⟨some tag.key, some tag.value⟩

def LifecycleRuleFilter.default : LifecycleRuleFilter := ⟨none, none, none, none, none⟩

/-- `project_filter`: without tags, the tags of an `And` are left out. -/
def projectFilter : CanonicalFilter → AppResult LifecycleRuleFilter
  | .all => .ok .default
  | .keyPrefix pfx => .ok { LifecycleRuleFilter.default with pfx := some pfx }
  | .tag tag => .ok { LifecycleRuleFilter.default with tag := some (projectTag tag) }
  | .objectSizeGreaterThan bytes =>
    .ok { LifecycleRuleFilter.default with objectSizeGreaterThan := some bytes }
  | .objectSizeLessThan bytes =>
    .ok { LifecycleRuleFilter.default with objectSizeLessThan := some bytes }
  | .and pfx tags objectSizeGreaterThan objectSizeLessThan =>
    .ok { LifecycleRuleFilter.default with
      and := some ⟨objectSizeGreaterThan, objectSizeLessThan, pfx,
        if tags.isEmpty then none else some (tags.map projectTag)⟩ }

def projectSelectorFilter : CanonicalRuleSelector → AppResult (Option LifecycleRuleFilter)
  | .legacyPrefix _ => .ok none
  | .modern filter => do
    let filter ← projectFilter filter
    .ok (some filter)

def projectSelectorPrefix : CanonicalRuleSelector → Option Text
  | .legacyPrefix pfx => some pfx
  | .modern _ => none

def projectStatus : LifecycleRuleStatus → Text
  | .enabled => enabledStatus
  | .disabled => disabledStatus

def projectAbort (days : UInt32) : AppResult (Option Int32) := do
  let days ← tryDays days "abort days after initiation are out of range"
  .ok (some days)

/-- `project_noncurrent_expiration`, with the casts `as i32` and `i32::from`. -/
def projectNoncurrentExpiration (expiration : NoncurrentExpiration) : NoncurrentVersionExpiration :=
  ⟨expiration.newerNoncurrentVersions.map fun newer => newer.toUInt32.toInt32,
    some expiration.noncurrentDays.toInt32⟩

def projectNoncurrentTransition (transition : NoncurrentTransition) : NoncurrentVersionTransition :=
  ⟨transition.newerNoncurrentVersions.map fun newer => newer.toUInt32.toInt32,
    some transition.noncurrentDays.toInt32, some standardIaClass⟩

section

variable (utcToTimestamp : ℤ → Timestamp)

def projectExpiration : CurrentExpiration → AppResult LifecycleExpiration
  | .date utcMidnight => .ok ⟨some (utcToTimestamp utcMidnight), none, none⟩
  | .days days => do
    let days ← tryDays days "lifecycle expiration days are out of range"
    .ok ⟨none, some days, none⟩
  | .expiredObjectDeleteMarker => .ok ⟨none, none, some true⟩

def projectTransition : CurrentTransition → AppResult Transition
  | .date utcMidnight => .ok ⟨some (utcToTimestamp utcMidnight), none, some standardIaClass⟩
  | .days days => do
    let days ← tryDays days "lifecycle transition days are out of range"
    .ok ⟨none, some days, some standardIaClass⟩

def projectTransitionList (transition : CurrentTransition) : AppResult (List Transition) := do
  let transition ← projectTransition utcToTimestamp transition
  .ok [transition]

def projectRule (rule : CanonicalLifecycleRule) : AppResult LifecycleRule := do
  let abortIncompleteMultipartUpload ← rule.abortIncompleteMultipartUpload.mapM projectAbort
  let expiration ← rule.expiration.mapM (projectExpiration utcToTimestamp)
  let filter ← projectSelectorFilter rule.selector
  let transitions ← rule.transition.mapM (projectTransitionList utcToTimestamp)
  .ok {
    abortIncompleteMultipartUpload, expiration, filter, id := rule.id
    noncurrentVersionExpiration := rule.noncurrentVersionExpiration.map projectNoncurrentExpiration
    noncurrentVersionTransitions := rule.noncurrentVersionTransition.map fun transition =>
      [projectNoncurrentTransition transition]
    pfx := projectSelectorPrefix rule.selector
    status := projectStatus rule.status
    transitions }

def toS3Rules (config : CanonicalLifecycleConfiguration) : AppResult (List LifecycleRule) := do
  validateCanonicalConfiguration config
  config.rules.mapM (projectRule utcToTimestamp)

end

/-! ## Days -/

variable {utcToTimestamp : ℤ → Timestamp} {days : UInt32} {message : String}
  {selector : CanonicalRuleSelector} {rule : CanonicalLifecycleRule}
  {config : CanonicalLifecycleConfiguration}

theorem toInt_toInt32 (h : days.toNat ≤ maxDays) :
    days.toInt32.toInt = days.toNat := by
  have hlt : 2 * days.toNat < 2 ^ 32 := by
    rw [maxDays] at h
    omega
  exact BitVec.toInt_eq_toNat_of_lt hlt

theorem positiveDays_toInt32 (hpos : days ≠ 0) (hle : days.toNat ≤ maxDays) :
    positiveDays days.toInt32 message = .ok days := by
  have hne : days.toNat ≠ 0 := fun h => hpos (UInt32.toNat_inj.mp h)
  have hlt : 0 < days.toInt32 := by
    rw [Int32.lt_iff_toInt_lt, toInt_toInt32 hle]
    show (0 : ℤ) < _
    omega
  rw [positiveDays, ensure_of hlt, ok_bind, UInt32.toUInt32_toInt32]

theorem le_maxDays_of_positiveDays {value : Int32} (h : positiveDays value message = .ok days) :
    days.toNat ≤ maxDays := by
  obtain ⟨hpos, h⟩ := of_ensure h
  cases h
  have hnonneg : (0 : ℤ) ≤ value.toInt := (Int32.lt_iff_toInt_lt.mp hpos).le
  have hlt : value.toInt < 2 ^ 31 := value.toInt_lt
  have hnat : value.toUInt32.toNat = value.toInt.toNat :=
    Int32.toNat_toUInt32_of_le (Int32.le_iff_toInt_le.mpr hnonneg)
  rw [hnat, maxDays]
  omega

theorem tryDays_eq_ok_iff {value : Int32} :
    tryDays days message = .ok value ↔ days.toNat ≤ maxDays ∧ value = days.toInt32 := by
  rw [tryDays, ensure_bind_eq_ok_iff]
  exact and_congr_right fun _ => ⟨fun h => (Except.ok.inj h).symm, fun h => by rw [h]⟩

/-! ## Fields -/

theorem canonicalizeStatus_projectStatus (status : LifecycleRuleStatus) :
    canonicalizeStatus (projectStatus status) = .ok status := by
  cases status <;> rfl

theorem canonicalizeAbort_projectAbort (h : validateAbort selector days = .ok ()) :
    ∃ projected, projectAbort days = .ok projected ∧ canonicalizeAbort projected = .ok days := by
  obtain ⟨hpos, h⟩ := of_ensure h
  obtain ⟨hle, -⟩ := of_ensure h
  refine ⟨some days.toInt32, ?_, positiveDays_toInt32 hpos hle⟩
  rw [projectAbort, tryDays_eq_ok_iff.mpr ⟨hle, rfl⟩]
  rfl

/-- The writer of timestamps gives text that parses to the instant written. -/
def RoundTrips (utcToTimestamp : ℤ → Timestamp) (date : ℤ) : Prop :=
  utcToTimestamp date = ⟨date, some date⟩

theorem timestampToUtcWithMessages_utcToTimestamp {date : ℤ}
    {invalidMessage utcMessage midnightMessage : String} (hround : RoundTrips utcToTimestamp date)
    (hmidnight : isMidnight date = true) :
    timestampToUtcWithMessages (utcToTimestamp date) invalidMessage utcMessage midnightMessage =
      .ok date := by
  rw [timestampToUtcWithMessages, hround, required, ok_bind, ensure_of rfl, ok_bind,
    ensure_of hmidnight, ok_bind]

def CurrentExpiration.dates : CurrentExpiration → List ℤ
  | .date utcMidnight => [utcMidnight]
  | _ => []

def CurrentTransition.dates : CurrentTransition → List ℤ
  | .date utcMidnight => [utcMidnight]
  | _ => []

def CurrentExpiration.dayCounts : CurrentExpiration → List UInt32
  | .days count => [count]
  | _ => []

theorem canonicalizeExpiration_projectExpiration {expiration : CurrentExpiration}
    (h : validateExpiration selector expiration = .ok ())
    (hdates : ∀ date ∈ expiration.dates, RoundTrips utcToTimestamp date)
    (hdays : ∀ days ∈ expiration.dayCounts, days.toNat ≤ maxDays) :
    ∃ projected, projectExpiration utcToTimestamp expiration = .ok projected ∧
      canonicalizeExpiration projected = .ok expiration := by
  cases expiration with
  | date utcMidnight =>
    refine ⟨_, rfl, ?_⟩
    have hround := hdates utcMidnight mem_cons_self
    show (timestampToUtc (utcToTimestamp utcMidnight) >>= fun date => _) = _
    rw [timestampToUtc, timestampToUtcWithMessages_utcToTimestamp hround (ensure_eq_ok_iff.mp h)]
    rfl
  | days days =>
    have hle := hdays days mem_cons_self
    refine ⟨⟨none, some days.toInt32, none⟩, ?_, ?_⟩
    · rw [projectExpiration, tryDays_eq_ok_iff.mpr ⟨hle, rfl⟩]
      rfl
    · show (positiveDays days.toInt32 _ >>= fun days => _) = _
      rw [positiveDays_toInt32 (ensure_eq_ok_iff.mp h) hle]
      rfl
  | expiredObjectDeleteMarker => exact ⟨_, rfl, rfl⟩

theorem le_maxDays_of_projectExpiration {expiration : CurrentExpiration}
    {projected : LifecycleExpiration}
    (h : projectExpiration utcToTimestamp expiration = .ok projected)
    (hdays : days ∈ expiration.dayCounts) : days.toNat ≤ maxDays := by
  cases expiration with
  | days count =>
    obtain rfl := mem_singleton.mp hdays
    obtain ⟨value, hvalue, -⟩ := of_bind h
    exact (tryDays_eq_ok_iff.mp hvalue).1
  | date _ => cases hdays
  | expiredObjectDeleteMarker => cases hdays

theorem parsed_of_timestampToUtcWithMessages {value : Timestamp} {date : ℤ}
    {invalidMessage utcMessage midnightMessage : String}
    (h : timestampToUtcWithMessages value invalidMessage utcMessage midnightMessage = .ok date) :
    value.parsed = some date := by
  rw [timestampToUtcWithMessages] at h
  cases hparsed : value.parsed with
  | none =>
    rw [hparsed] at h
    cases h
  | some parsed =>
    rw [hparsed] at h
    obtain ⟨-, h⟩ := of_ensure h
    obtain ⟨-, h⟩ := of_ensure h
    cases h
    rfl

theorem requested_of_canonicalizeExpiration {expiration : LifecycleExpiration}
    {canonical : CurrentExpiration} (h : canonicalizeExpiration expiration = .ok canonical) :
    (∀ date ∈ canonical.dates, ∃ t ∈ expiration.date, t.parsed = some date) ∧
    ∀ days ∈ canonical.dayCounts,
      ∃ value, positiveDays value "lifecycle expiration days must be positive" = .ok days := by
  obtain ⟨date, count, marker⟩ := expiration
  -- of the twelve combinations of fields, three are accepted
  rcases date with _ | date <;> rcases count with _ | count <;> rcases marker with _ | _ | _
  case none.some.none =>
    obtain ⟨days, hdays, h⟩ := of_bind h
    cases h
    exact ⟨forall_mem_nil _, forall_mem_singleton.mpr ⟨count, hdays⟩⟩
  case some.none.none =>
    obtain ⟨utcMidnight, hdate, h⟩ := of_bind h
    cases h
    exact ⟨forall_mem_singleton.mpr ⟨date, rfl, parsed_of_timestampToUtcWithMessages hdate⟩,
      forall_mem_nil _⟩
  case none.none.some.true =>
    cases h
    exact ⟨forall_mem_nil _, forall_mem_nil _⟩
  all_goals cases h

theorem written_of_projectExpiration {expiration : CurrentExpiration}
    {projected : LifecycleExpiration} {t : Timestamp}
    (h : projectExpiration utcToTimestamp expiration = .ok projected) (ht : t ∈ projected.date) :
    ∃ date, t = utcToTimestamp date := by
  cases expiration with
  | date utcMidnight =>
    cases h
    exact ⟨utcMidnight, (Option.some.inj ht).symm⟩
  | days days =>
    obtain ⟨value, -, h⟩ := of_bind h
    cases h
    cases ht
  | expiredObjectDeleteMarker =>
    cases h
    cases ht

theorem written_of_projectTransition {transition : CurrentTransition} {projected : Transition}
    {t : Timestamp}
    (h : projectTransition utcToTimestamp transition = .ok projected) (ht : t ∈ projected.date) :
    ∃ date, t = utcToTimestamp date := by
  cases transition with
  | date utcMidnight =>
    cases h
    exact ⟨utcMidnight, (Option.some.inj ht).symm⟩
  | days days =>
    obtain ⟨value, -, h⟩ := of_bind h
    cases h
    cases ht

theorem exists_of_canonicalizeTransitionList {α β : Type} {canonicalize : α → AppResult β}
    {transitions : Option (List α)} {canonical : β}
    (h : canonicalizeTransitionList canonicalize message transitions = .ok (some canonical)) :
    ∃ transition ∈ transitions.getD [], canonicalize transition = .ok canonical := by
  rcases transitions with _ | _ | ⟨transition, _ | _⟩
  case some.cons.nil =>
    obtain ⟨value, hvalue, h⟩ := of_bind h
    cases h
    exact ⟨transition, mem_cons_self, hvalue⟩
  all_goals cases h

theorem requested_of_canonicalizeCurrentTransition {transition : Transition}
    {canonical : CurrentTransition} (h : canonicalizeCurrentTransition transition = .ok canonical) :
    ∀ date ∈ canonical.dates, ∃ t ∈ transition.date, t.parsed = some date := by
  obtain ⟨date, count, storageClass⟩ := transition
  obtain ⟨⟨⟩, -, h⟩ := of_bind h
  rcases date with _ | date <;> rcases count with _ | count
  case none.some =>
    obtain ⟨days, -, h⟩ := of_bind h
    cases h
    exact forall_mem_nil _
  case some.none =>
    obtain ⟨utcMidnight, hdate, h⟩ := of_bind h
    cases h
    exact forall_mem_singleton.mpr ⟨date, rfl, parsed_of_timestampToUtcWithMessages hdate⟩
  all_goals cases h

theorem canonicalizeCurrentTransition_projectTransition {transition : CurrentTransition}
    (h : validateTransition transition = .ok ())
    (hdates : ∀ date ∈ transition.dates, RoundTrips utcToTimestamp date) :
    ∃ projected, projectTransition utcToTimestamp transition = .ok projected ∧
      canonicalizeCurrentTransition projected = .ok transition := by
  have hclass : requireStandardIa (some standardIaClass) = .ok () := rfl
  cases transition with
  | date utcMidnight =>
    refine ⟨_, rfl, ?_⟩
    have hround := hdates utcMidnight mem_cons_self
    simp only [canonicalizeCurrentTransition, hclass, ok_bind]
    rw [transitionTimestampToUtc, timestampToUtcWithMessages_utcToTimestamp hround
      (ensure_eq_ok_iff.mp h)]
    rfl
  | days days =>
    obtain ⟨hpos, h⟩ := of_ensure h
    have hle := ensure_eq_ok_iff.mp h
    refine ⟨⟨none, some days.toInt32, some standardIaClass⟩, ?_, ?_⟩
    · rw [projectTransition, tryDays_eq_ok_iff.mpr ⟨hle, rfl⟩]
      rfl
    · simp only [canonicalizeCurrentTransition, hclass, ok_bind]
      rw [positiveDays_toInt32 hpos hle]
      rfl

theorem canonicalizeCurrentTransitionList_projectTransition {transition : Option CurrentTransition}
    (h : ∀ t ∈ transition, validateTransition t = .ok ())
    (hdates : ∀ t ∈ transition, ∀ date ∈ t.dates, RoundTrips utcToTimestamp date) :
    ∃ projected, transition.mapM (projectTransitionList utcToTimestamp) = .ok projected ∧
      canonicalizeCurrentTransitionList projected = .ok transition := by
  cases transition with
  | none => exact ⟨none, rfl, rfl⟩
  | some transition =>
    obtain ⟨projected, hproject, hback⟩ :=
      canonicalizeCurrentTransition_projectTransition (h transition rfl) (hdates transition rfl)
    refine ⟨some [projected], optionMapM_eq_ok_iff.mpr (Option.Rel.some ?_), ?_⟩
    · rw [projectTransitionList, hproject]
      rfl
    · rw [canonicalizeCurrentTransitionList, canonicalizeTransitionList, hback]
      rfl

/-! ## Noncurrent thresholds -/

/-- The thresholds of a validated noncurrent action. -/
structure ThresholdsInRange (thresholds : NoncurrentExpiration) (selector : CanonicalRuleSelector) :
    Prop where
  days_ne_zero : thresholds.noncurrentDays ≠ 0
  days_le : thresholds.noncurrentDays.toNat ≤ maxDays
  newer : ∀ newer ∈ thresholds.newerNoncurrentVersions,
    (1 ≤ newer ∧ newer ≤ 100) ∧ selector.isModern = true

theorem thresholdsInRange_of_valid {thresholds : NoncurrentExpiration}
    (h : validateNoncurrentThresholds thresholds selector message = .ok ()) :
    ThresholdsInRange thresholds selector := by
  obtain ⟨hpos, h⟩ := of_ensure h
  obtain ⟨hle, h⟩ := of_ensure h
  refine ⟨hpos, hle, fun newer hnewer => ?_⟩
  rw [mem_def.mp hnewer] at h
  obtain ⟨hrange, h⟩ := of_ensure h
  exact ⟨hrange, ensure_eq_ok_iff.mp h⟩

theorem one_le_toInt32_le {newer : UInt16} (h : 1 ≤ newer ∧ newer ≤ 100) :
    1 ≤ newer.toUInt32.toInt32 ∧ newer.toUInt32.toInt32 ≤ 100 := by
  have hone : 1 ≤ newer.toNat := UInt16.le_iff_toNat_le.mp h.1
  have hhundred : newer.toNat ≤ 100 := UInt16.le_iff_toNat_le.mp h.2
  have hle : newer.toUInt32.toNat ≤ maxDays := by
    rw [UInt16.toNat_toUInt32, maxDays]
    omega
  have hvalue : newer.toUInt32.toInt32.toInt = newer.toNat := by
    rw [toInt_toInt32 hle, UInt16.toNat_toUInt32]
  rw [Int32.le_iff_toInt_le, Int32.le_iff_toInt_le, hvalue]
  show (1 : ℤ) ≤ _ ∧ _ ≤ (100 : ℤ)
  omega

theorem canonicalizeNewerNoncurrentVersions_projected {newer : Option UInt16}
    (h : ∀ n ∈ newer, (1 ≤ n ∧ n ≤ 100) ∧ selector.isModern = true) :
    canonicalizeNewerNoncurrentVersions (newer.map fun n => n.toUInt32.toInt32) selector =
      .ok newer := by
  cases newer with
  | none => rfl
  | some n =>
    obtain ⟨hrange, hmodern⟩ := h n rfl
    rw [map_some, canonicalizeNewerNoncurrentVersions, ensure_of (one_le_toInt32_le hrange),
      ok_bind, ensure_of hmodern, ok_bind, UInt32.toUInt32_toInt32, UInt16.toUInt16_toUInt32]

theorem canonicalizeNoncurrentExpiration_project {expiration : NoncurrentExpiration}
    (h : ThresholdsInRange expiration selector) :
    canonicalizeNoncurrentExpiration (projectNoncurrentExpiration expiration) selector =
      .ok expiration := by
  rw [canonicalizeNoncurrentExpiration, projectNoncurrentExpiration, required, ok_bind,
    canonicalizeNewerNoncurrentVersions_projected h.newer, ok_bind,
    positiveDays_toInt32 h.days_ne_zero h.days_le, ok_bind]

theorem canonicalizeNoncurrentTransition_project {transition : NoncurrentTransition}
    (h : ThresholdsInRange transition selector) :
    canonicalizeNoncurrentTransition selector (projectNoncurrentTransition transition) =
      .ok transition := by
  have hclass : requireStandardIa (some standardIaClass) = .ok () := rfl
  rw [canonicalizeNoncurrentTransition, projectNoncurrentTransition, hclass, ok_bind, required,
    ok_bind, positiveDays_toInt32 h.days_ne_zero h.days_le, ok_bind,
    canonicalizeNewerNoncurrentVersions_projected h.newer, ok_bind]

/-! ## Selectors -/

theorem tagOrder_injective : Function.Injective tagOrder := by
  intro a b h
  have hpair : (a.key, a.value) = (b.key, b.value) := toLex.injective h
  obtain ⟨hkey, hvalue⟩ := Prod.mk.inj hpair
  cases a
  cases b
  rw [CanonicalTag.mk.injEq]
  exact ⟨hkey, hvalue⟩

theorem anyAdjacent_eq_false_iff {α : Type} {test : α → α → Bool} {L : List α} :
    anyAdjacent test L = false ↔ L.IsChain fun a b => test a b = false := by
  induction L with
  | nil => exact iff_of_true rfl List.IsChain.nil
  | cons a L ih =>
    cases L with
    | nil => exact iff_of_true rfl (List.IsChain.singleton a)
    | cons b L => rw [anyAdjacent, Bool.or_eq_false_iff, ih, isChain_cons_cons]

theorem pairwise_tagOrder {tags : List CanonicalTag}
    (h : anyAdjacent (fun first second => decide (tagOrder second < tagOrder first)) tags = false) :
    tags.Pairwise fun a b => tagOrder a ≤ tagOrder b := by
  have hchain := anyAdjacent_eq_false_iff.mp h
  have : Trans (fun a b : CanonicalTag => tagOrder a ≤ tagOrder b)
      (fun a b => tagOrder a ≤ tagOrder b) (fun a b => tagOrder a ≤ tagOrder b) := ⟨le_trans⟩
  refine isChain_iff_pairwise.mp (hchain.imp fun a b hab => ?_)
  exact not_lt.mp (of_decide_eq_false hab)

theorem anyAdjacent_of_nodup {tags : List CanonicalTag} (h : (tags.map CanonicalTag.key).Nodup) :
    anyAdjacent (fun first second => first.key == second.key) tags = false := by
  have hpairwise := pairwise_map.mp h
  refine anyAdjacent_eq_false_iff.mpr (hpairwise.isChain.imp fun a b hab => ?_)
  exact beq_false_of_ne hab

theorem nonnegativeSize_of_valid {bytes : Option ℤ} (h : validateSize bytes = .ok ()) :
    bytes.mapM nonnegativeSize = .ok bytes := by
  obtain ⟨checked, hchecked, -⟩ := of_bind h
  cases bytes with
  | none => rfl
  | some bytes =>
    obtain ⟨hnonneg⟩ := optionMapM_eq_ok_iff.mp hchecked
    have hle := (of_ensure hnonneg).1
    exact optionMapM_eq_ok_iff.mpr (Option.Rel.some (by rw [nonnegativeSize, ensure_of hle]; rfl))

theorem mapM_canonicalizeTag_projectTag (tags : List CanonicalTag) :
    (tags.map projectTag).mapM canonicalizeTag = .ok tags := by
  rw [mapM_eq_ok_iff, forall₂_map_left_iff, forall₂_same]
  intro tag _
  rfl

theorem getD_projectedTags (tags : List CanonicalTag) :
    (if tags.isEmpty then none else some (tags.map projectTag)).getD [] = tags.map projectTag := by
  cases tags <;> rfl

theorem canonicalizeFilter_projectFilter {filter : CanonicalFilter}
    (h : validateCanonicalSelector (.modern filter) = .ok ()) :
    ∃ projected, projectFilter filter = .ok projected ∧
      canonicalizeFilter projected = .ok filter := by
  cases filter with
  | all => exact ⟨_, rfl, rfl⟩
  | keyPrefix pfx => exact ⟨_, rfl, rfl⟩
  | tag tag => exact ⟨_, rfl, rfl⟩
  | objectSizeGreaterThan bytes =>
    obtain ⟨hbytes⟩ := optionMapM_eq_ok_iff.mp (nonnegativeSize_of_valid h)
    refine ⟨_, rfl, ?_⟩
    show (nonnegativeSize bytes >>= fun bytes => _) = _
    rw [hbytes]
    rfl
  | objectSizeLessThan bytes =>
    obtain ⟨hbytes⟩ := optionMapM_eq_ok_iff.mp (nonnegativeSize_of_valid h)
    refine ⟨_, rfl, ?_⟩
    show (nonnegativeSize bytes >>= fun bytes => _) = _
    rw [hbytes]
    rfl
  | and pfx tags lower upper =>
    obtain ⟨⟨⟩, hlower, h⟩ := of_bind h
    obtain ⟨⟨⟩, hupper, h⟩ := of_bind h
    obtain ⟨hsizes, h⟩ := of_ensure h
    obtain ⟨hsorted, h⟩ := of_ensure h
    have hdistinct := anyAdjacent_of_nodup (ensure_eq_ok_iff.mp h)
    refine ⟨_, rfl, ?_⟩
    show canonicalizeAnd _ = _
    rw [canonicalizeAnd, nonnegativeSize_of_valid hlower, ok_bind, nonnegativeSize_of_valid hupper,
      ok_bind, ensure_of hsizes, ok_bind, getD_projectedTags, mapM_canonicalizeTag_projectTag,
      ok_bind, sortBy_of_pairwise tagOrder (pairwise_tagOrder hsorted)]
    dsimp only
    rw [ensure_of hdistinct]
    rfl

theorem canonicalizeSelector_project (h : validateCanonicalSelector selector = .ok ()) :
    ∃ filter, projectSelectorFilter selector = .ok filter ∧
      canonicalizeSelector (projectSelectorPrefix selector) filter = .ok selector := by
  cases selector with
  | legacyPrefix pfx => exact ⟨none, rfl, rfl⟩
  | modern filter =>
    obtain ⟨projected, hproject, hback⟩ := canonicalizeFilter_projectFilter h
    refine ⟨some projected, ?_, ?_⟩
    · rw [projectSelectorFilter, hproject]
      rfl
    · rw [projectSelectorPrefix, canonicalizeSelector, hback]
      rfl

/-! ## Rules -/

/-- The checks of `validate_canonical_rule`, part by part. -/
structure RuleChecked (rule : CanonicalLifecycleRule) : Prop where
  selector : validateCanonicalSelector rule.selector = .ok ()
  expiration : ∀ e ∈ rule.expiration, validateExpiration rule.selector e = .ok ()
  noncurrentExpiration : ∀ t ∈ rule.noncurrentVersionExpiration, ThresholdsInRange t rule.selector
  transition : ∀ t ∈ rule.transition, validateTransition t = .ok ()
  noncurrentTransition : ∀ t ∈ rule.noncurrentVersionTransition, ThresholdsInRange t rule.selector
  abort : ∀ days ∈ rule.abortIncompleteMultipartUpload, validateAbort rule.selector days = .ok ()

theorem ruleChecked_of_valid (h : validateCanonicalRule rule = .ok ()) : RuleChecked rule := by
  obtain ⟨⟨⟩, hselector, h⟩ := of_bind h
  obtain ⟨⟨⟩, hexpiration, h⟩ := of_bind h
  obtain ⟨⟨⟩, hnoncurrent, h⟩ := of_bind h
  obtain ⟨⟨⟩, htransition, h⟩ := of_bind h
  obtain ⟨⟨⟩, hnoncurrentTransition, h⟩ := of_bind h
  obtain ⟨⟨⟩, habort, -⟩ := of_bind h
  exact {
    selector := hselector
    expiration := optionForM_eq_ok_iff.mp hexpiration
    noncurrentExpiration := fun t ht =>
      thresholdsInRange_of_valid (optionForM_eq_ok_iff.mp hnoncurrent t ht)
    transition := optionForM_eq_ok_iff.mp htransition
    noncurrentTransition := fun t ht =>
      thresholdsInRange_of_valid (optionForM_eq_ok_iff.mp hnoncurrentTransition t ht)
    abort := optionForM_eq_ok_iff.mp habort }

def CanonicalLifecycleRule.dates (rule : CanonicalLifecycleRule) : List ℤ :=
  rule.expiration.toList.flatMap CurrentExpiration.dates ++
    rule.transition.toList.flatMap CurrentTransition.dates

def CanonicalLifecycleRule.expirationDays (rule : CanonicalLifecycleRule) : List UInt32 :=
  rule.expiration.toList.flatMap CurrentExpiration.dayCounts

theorem mem_expirationDays :
    days ∈ rule.expirationDays ↔ ∃ e ∈ rule.expiration, days ∈ e.dayCounts := by
  simp [CanonicalLifecycleRule.expirationDays]

/-- **A projected rule canonicalises to the rule it was projected from.** -/
theorem canonicalizeRule_projectRule (h : RuleChecked rule)
    (hdates : ∀ date ∈ rule.dates, RoundTrips utcToTimestamp date)
    (hdays : ∀ days ∈ rule.expirationDays, days.toNat ≤ maxDays) :
    ∃ projected, projectRule utcToTimestamp rule = .ok projected ∧
      canonicalizeRule projected = .ok rule := by
  have hexpirationDates : ∀ e ∈ rule.expiration, ∀ date ∈ e.dates,
      RoundTrips utcToTimestamp date := fun e he date hdate =>
    hdates date (mem_append_left _ (mem_flatMap.mpr ⟨e, by simpa using he, hdate⟩))
  have htransitionDates : ∀ t ∈ rule.transition, ∀ date ∈ t.dates,
      RoundTrips utcToTimestamp date := fun t ht date hdate =>
    hdates date (mem_append_right _ (mem_flatMap.mpr ⟨t, by simpa using ht, hdate⟩))
  obtain ⟨abort, habort, habortBack⟩ := optionMapM_inverse fun days hmem =>
    canonicalizeAbort_projectAbort (h.abort days hmem)
  obtain ⟨expiration, hexpiration, hexpirationBack⟩ := optionMapM_inverse fun e he =>
    canonicalizeExpiration_projectExpiration (h.expiration e he) (hexpirationDates e he)
      fun days hmem => hdays days (mem_expirationDays.mpr ⟨e, he, hmem⟩)
  obtain ⟨filter, hfilter, hselectorBack⟩ := canonicalizeSelector_project h.selector
  obtain ⟨transitions, htransitions, htransitionsBack⟩ :=
    canonicalizeCurrentTransitionList_projectTransition h.transition htransitionDates
  have hnoncurrent : (rule.noncurrentVersionExpiration.map projectNoncurrentExpiration).mapM
      (fun value => canonicalizeNoncurrentExpiration value rule.selector) =
        .ok rule.noncurrentVersionExpiration := by
    rcases eq_none_or_eq_some rule.noncurrentVersionExpiration with hnone | ⟨t, ht⟩
    · rw [hnone]
      rfl
    · rw [ht, map_some]
      exact optionMapM_eq_ok_iff.mpr (Option.Rel.some
        (canonicalizeNoncurrentExpiration_project (h.noncurrentExpiration t ht)))
  have hnoncurrentTransition : canonicalizeNoncurrentTransitionList
      (rule.noncurrentVersionTransition.map fun t => [projectNoncurrentTransition t])
        rule.selector = .ok rule.noncurrentVersionTransition := by
    rcases eq_none_or_eq_some rule.noncurrentVersionTransition with hnone | ⟨t, ht⟩
    · rw [hnone]
      rfl
    · rw [ht, map_some, canonicalizeNoncurrentTransitionList, canonicalizeTransitionList,
        canonicalizeNoncurrentTransition_project (h.noncurrentTransition t ht)]
      rfl
  -- the marker action was checked against the tags of the selector when it was stored
  have hmarker : ¬(rule.expiration = some .expiredObjectDeleteMarker ∧
      selectorHasTagFilter rule.selector = true) := by
    rintro ⟨hmarker, htags⟩
    have hchecked := ensure_eq_ok_iff.mp (h.expiration _ hmarker)
    exact Bool.false_ne_true (hchecked.symm.trans htags)
  refine ⟨⟨abort, expiration, filter, rule.id,
    rule.noncurrentVersionExpiration.map projectNoncurrentExpiration,
    rule.noncurrentVersionTransition.map fun t => [projectNoncurrentTransition t],
    projectSelectorPrefix rule.selector, projectStatus rule.status, transitions⟩, ?_, ?_⟩
  · rw [projectRule, habort, ok_bind, hexpiration, ok_bind, hfilter, ok_bind, htransitions, ok_bind]
  · rw [canonicalizeRule, canonicalizeStatus_projectStatus, ok_bind, hselectorBack, ok_bind,
      hexpirationBack, ok_bind, hnoncurrent, ok_bind, htransitionsBack, ok_bind,
      hnoncurrentTransition, ok_bind, habortBack, ok_bind, ensure_of hmarker, ok_bind]

theorem le_maxDays_of_projectRule {projected : LifecycleRule}
    (h : projectRule utcToTimestamp rule = .ok projected) :
    ∀ days ∈ rule.expirationDays, days.toNat ≤ maxDays := by
  intro days hdays
  obtain ⟨e, he, hmem⟩ := mem_expirationDays.mp hdays
  obtain ⟨abort, -, h⟩ := of_bind h
  obtain ⟨expiration, hexpiration, -⟩ := of_bind h
  rw [mem_def.mp he] at hexpiration
  obtain ⟨hprojected⟩ := optionMapM_eq_ok_iff.mp hexpiration
  exact le_maxDays_of_projectExpiration hprojected hmem

theorem dated_of_canonicalizeRule {rule : LifecycleRule} {canonical : CanonicalLifecycleRule}
    (h : canonicalizeRule rule = .ok canonical) :
    rule.expiration.mapM canonicalizeExpiration = .ok canonical.expiration ∧
      canonicalizeCurrentTransitionList rule.transitions = .ok canonical.transition := by
  obtain ⟨status, -, h⟩ := of_bind h
  obtain ⟨selector, -, h⟩ := of_bind h
  obtain ⟨expiration, hexpiration, h⟩ := of_bind h
  obtain ⟨noncurrent, -, h⟩ := of_bind h
  obtain ⟨transition, htransition, h⟩ := of_bind h
  obtain ⟨noncurrentTransition, -, h⟩ := of_bind h
  obtain ⟨abort, -, h⟩ := of_bind h
  obtain ⟨-, h⟩ := of_ensure h
  cases h
  exact ⟨hexpiration, htransition⟩

theorem le_maxDays_of_canonicalizeRule {rule : LifecycleRule} {canonical : CanonicalLifecycleRule}
    (h : canonicalizeRule rule = .ok canonical) :
    ∀ days ∈ canonical.expirationDays, days.toNat ≤ maxDays := by
  intro days hdays
  obtain ⟨e, he, hmem⟩ := mem_expirationDays.mp hdays
  have hexpiration := (dated_of_canonicalizeRule h).1
  rw [mem_def.mp he] at hexpiration
  obtain ⟨source, -, hsource⟩ := exists_of_optionMapM hexpiration
  obtain ⟨value, hvalue⟩ := (requested_of_canonicalizeExpiration hsource).2 days hmem
  exact le_maxDays_of_positiveDays hvalue

/-! ## Dates -/

/-- The instants of the years 0 to 9999, from 719528 days before the epoch. -/
def InFourDigitYear (instant : ℤ) : Prop :=
  -719528 * dayNanos ≤ instant ∧ instant < 2932897 * dayNanos

/-- The text of a timestamp is RFC 3339, which writes a year with four digits. -/
def Timestamp.IsRfc3339 (t : Timestamp) : Prop := ∀ instant ∈ t.parsed, InFourDigitYear instant

/-- What is assumed of `utc_to_timestamp`: an instant of another year has no text, and one of these
years is read back from its text. -/
structure WritesRfc3339 (utcToTimestamp : ℤ → Timestamp) : Prop where
  isRfc3339 : ∀ date, (utcToTimestamp date).IsRfc3339
  roundTrips : ∀ date, InFourDigitYear date → RoundTrips utcToTimestamp date

def LifecycleRule.timestamps (rule : LifecycleRule) : List Timestamp :=
  rule.expiration.toList.flatMap (fun expiration => expiration.date.toList) ++
    (rule.transitions.getD []).flatMap fun transition => transition.date.toList

theorem mem_dates {date : ℤ} : date ∈ rule.dates ↔
    (∃ e ∈ rule.expiration, date ∈ e.dates) ∨ ∃ t ∈ rule.transition, date ∈ t.dates := by
  simp [CanonicalLifecycleRule.dates]

theorem mem_timestamps {rule : LifecycleRule} {t : Timestamp} : t ∈ rule.timestamps ↔
    (∃ e ∈ rule.expiration, t ∈ e.date) ∨ ∃ x ∈ rule.transitions.getD [], t ∈ x.date := by
  simp [LifecycleRule.timestamps]

theorem exists_timestamp_of_canonicalizeRule {rule : LifecycleRule}
    {canonical : CanonicalLifecycleRule} (h : canonicalizeRule rule = .ok canonical) :
    ∀ date ∈ canonical.dates, ∃ t ∈ rule.timestamps, t.parsed = some date := by
  obtain ⟨hexpiration, htransition⟩ := dated_of_canonicalizeRule h
  intro date hdate
  rcases mem_dates.mp hdate with ⟨e, he, hdate⟩ | ⟨x, hx, hdate⟩
  · rw [mem_def.mp he] at hexpiration
    obtain ⟨source, hmem, hsource⟩ := exists_of_optionMapM hexpiration
    obtain ⟨t, ht, hparsed⟩ := (requested_of_canonicalizeExpiration hsource).1 date hdate
    exact ⟨t, mem_timestamps.mpr (.inl ⟨source, hmem, ht⟩), hparsed⟩
  · rw [mem_def.mp hx] at htransition
    obtain ⟨source, hmem, hsource⟩ := exists_of_canonicalizeTransitionList htransition
    obtain ⟨t, ht, hparsed⟩ := requested_of_canonicalizeCurrentTransition hsource date hdate
    exact ⟨t, mem_timestamps.mpr (.inr ⟨source, hmem, ht⟩), hparsed⟩

theorem written_of_projectRule {projected : LifecycleRule}
    (h : projectRule utcToTimestamp rule = .ok projected) :
    ∀ t ∈ projected.timestamps, ∃ date, t = utcToTimestamp date := by
  obtain ⟨abort, -, h⟩ := of_bind h
  obtain ⟨expiration, hexpiration, h⟩ := of_bind h
  obtain ⟨filter, -, h⟩ := of_bind h
  obtain ⟨transitions, htransitions, h⟩ := of_bind h
  cases h
  intro t ht
  rcases mem_timestamps.mp ht with ⟨e, he, hmem⟩ | ⟨x, hx, hmem⟩
  · obtain rfl : expiration = some e := he
    obtain ⟨source, -, hsource⟩ := exists_of_optionMapM hexpiration
    exact written_of_projectExpiration hsource hmem
  · cases transitions with
    | none => cases hx
    | some list =>
      obtain ⟨source, -, hsource⟩ := exists_of_optionMapM htransitions
      obtain ⟨projected, hprojected, h⟩ := of_bind hsource
      cases h
      obtain rfl : x = projected := mem_singleton.mp hx
      exact written_of_projectTransition hprojected hmem

/-! ## Configurations -/

def CanonicalLifecycleConfiguration.dates (config : CanonicalLifecycleConfiguration) : List ℤ :=
  config.rules.flatMap CanonicalLifecycleRule.dates

def CanonicalLifecycleConfiguration.expirationDays (config : CanonicalLifecycleConfiguration) :
    List UInt32 :=
  config.rules.flatMap CanonicalLifecycleRule.expirationDays

theorem exists_source_of_accepted {input : List LifecycleRule}
    (h : validateAndCanonicalize input = .ok config) (hrule : rule ∈ config.rules) :
    ∃ source ∈ input, canonicalizeRule source = .ok rule := by
  obtain ⟨rules, hrules, h⟩ := of_bind h
  obtain ⟨⟨⟩, -, h⟩ := of_bind h
  cases h
  exact exists_of_forall₂ (mapM_eq_ok_iff.mp hrules) hrule

theorem le_maxDays_of_accepted {input : List LifecycleRule}
    (h : validateAndCanonicalize input = .ok config) :
    ∀ days ∈ config.expirationDays, days.toNat ≤ maxDays := by
  intro days hdays
  obtain ⟨rule, hrule, hmem⟩ := mem_flatMap.mp hdays
  obtain ⟨source, -, hsource⟩ := exists_source_of_accepted h hrule
  exact le_maxDays_of_canonicalizeRule hsource days hmem

theorem le_maxDays_of_toS3Rules {rules : List LifecycleRule}
    (h : toS3Rules utcToTimestamp config = .ok rules) :
    ∀ days ∈ config.expirationDays, days.toNat ≤ maxDays := by
  intro days hdays
  obtain ⟨rule, hrule, hmem⟩ := mem_flatMap.mp hdays
  obtain ⟨⟨⟩, -, h⟩ := of_bind h
  obtain ⟨projected, hprojected⟩ := mapM_isOk_iff.mp ⟨rules, h⟩ rule hrule
  exact le_maxDays_of_projectRule hprojected days hmem

/-- **A validated configuration whose expiration days are in range comes back from its
projection.** -/
theorem validateAndCanonicalize_toS3Rules
    (h : validateCanonicalConfiguration config = .ok ())
    (hdates : ∀ date ∈ config.dates, RoundTrips utcToTimestamp date)
    (hdays : ∀ days ∈ config.expirationDays, days.toNat ≤ maxDays) :
    ∃ rules, toS3Rules utcToTimestamp config = .ok rules ∧
      validateAndCanonicalize rules = .ok config := by
  have hvalid := (validated_of_validateCanonicalConfiguration h).rules_valid
  obtain ⟨rules, hproject, hback⟩ := mapM_inverse fun rule hrule =>
    canonicalizeRule_projectRule (ruleChecked_of_valid (hvalid rule hrule))
      (fun date hdate => hdates date (mem_flatMap.mpr ⟨rule, hrule, hdate⟩))
      fun days hmem => hdays days (mem_flatMap.mpr ⟨rule, hrule, hmem⟩)
  have hversion : (⟨schemaVersion, config.rules⟩ : CanonicalLifecycleConfiguration) = config := by
    rw [← (of_ensure h).1]
  refine ⟨rules, ?_, ?_⟩
  · rw [toS3Rules, h, ok_bind, hproject]
  · rw [validateAndCanonicalize, hback, ok_bind]
    simp only [hversion, h, ok_bind]

theorem inFourDigitYear_of_accepted {input : List LifecycleRule}
    (hinput : ∀ t ∈ input.flatMap LifecycleRule.timestamps, t.IsRfc3339)
    (h : validateAndCanonicalize input = .ok config) :
    ∀ date ∈ config.dates, InFourDigitYear date := by
  intro date hdate
  obtain ⟨rule, hrule, hmem⟩ := mem_flatMap.mp hdate
  obtain ⟨source, hsource, hcanonical⟩ := exists_source_of_accepted h hrule
  obtain ⟨t, ht, hparsed⟩ := exists_timestamp_of_canonicalizeRule hcanonical date hmem
  exact hinput t (mem_flatMap.mpr ⟨source, hsource, ht⟩) date hparsed

theorem isRfc3339_of_toS3Rules {rules : List LifecycleRule}
    (hwrites : WritesRfc3339 utcToTimestamp) (h : toS3Rules utcToTimestamp config = .ok rules) :
    ∀ t ∈ rules.flatMap LifecycleRule.timestamps, t.IsRfc3339 := by
  intro t ht
  obtain ⟨projected, hprojected, hmem⟩ := mem_flatMap.mp ht
  obtain ⟨⟨⟩, -, h⟩ := of_bind h
  obtain ⟨rule, -, hrule⟩ := exists_of_forall₂ (mapM_eq_ok_iff.mp h) hprojected
  obtain ⟨date, rfl⟩ := written_of_projectRule hrule t hmem
  exact hwrites.isRfc3339 date

/-- **Which stored configurations are projectable.**  A configuration that the validator of the
stored form accepts is projected to rules that canonicalise to it exactly when the days of its
expirations fit `i32` and its dates are of the years 0 to 9999; these are also the configurations
that a request can be accepted with.  With such dates it is the days alone that can make the
projection fail. -/
theorem projectable_iff {utcToTimestamp : ℤ → Timestamp}
    {config : CanonicalLifecycleConfiguration} (hwrites : WritesRfc3339 utcToTimestamp)
    (h : validateCanonicalConfiguration config = .ok ()) :
    ((∃ rules, toS3Rules utcToTimestamp config = .ok rules ∧
        validateAndCanonicalize rules = .ok config) ↔
      (∀ days ∈ config.expirationDays, days.toNat ≤ maxDays) ∧
        ∀ date ∈ config.dates, InFourDigitYear date) ∧
    ((∃ input, (∀ t ∈ input.flatMap LifecycleRule.timestamps, t.IsRfc3339) ∧
        validateAndCanonicalize input = .ok config) ↔
      (∀ days ∈ config.expirationDays, days.toNat ≤ maxDays) ∧
        ∀ date ∈ config.dates, InFourDigitYear date) ∧
    ((∀ date ∈ config.dates, InFourDigitYear date) →
      ((∃ rules, toS3Rules utcToTimestamp config = .ok rules) ↔
        ∀ days ∈ config.expirationDays, days.toNat ≤ maxDays)) := by
  have hback := fun hdates : ∀ date ∈ config.dates, InFourDigitYear date =>
    validateAndCanonicalize_toS3Rules h fun date hdate => hwrites.roundTrips date (hdates date hdate)
  have hranges : ∀ input, (∀ t ∈ input.flatMap LifecycleRule.timestamps, t.IsRfc3339) →
      validateAndCanonicalize input = .ok config →
      (∀ days ∈ config.expirationDays, days.toNat ≤ maxDays) ∧
        ∀ date ∈ config.dates, InFourDigitYear date := fun input htext hinput =>
    ⟨le_maxDays_of_accepted hinput, inFourDigitYear_of_accepted htext hinput⟩
  refine ⟨⟨?_, fun ⟨hdays, hdates⟩ => hback hdates hdays⟩, ⟨?_, ?_⟩, fun hdates => ⟨?_, ?_⟩⟩
  · rintro ⟨rules, hrules, haccepted⟩
    exact hranges rules (isRfc3339_of_toS3Rules hwrites hrules) haccepted
  · rintro ⟨input, htext, hinput⟩
    exact hranges input htext hinput
  · rintro ⟨hdays, hdates⟩
    obtain ⟨rules, hrules, haccepted⟩ := hback hdates hdays
    exact ⟨rules, isRfc3339_of_toS3Rules hwrites hrules, haccepted⟩
  · rintro ⟨rules, hrules⟩
    exact le_maxDays_of_toS3Rules hrules
  · intro hdays
    obtain ⟨rules, hrules, -⟩ := hback hdates hdays
    exact ⟨rules, hrules⟩

/-- A writer of timestamps that round-trips. -/
def exactTimestamp (date : ℤ) : Timestamp := ⟨date, some date⟩

/-- A writer of timestamps that gives the years 0 to 9999 a text. -/
def rfc3339Timestamp (date : ℤ) : Timestamp :=
  ⟨date, if -719528 * dayNanos ≤ date ∧ date < 2932897 * dayNanos then some date else none⟩

theorem writesRfc3339_rfc3339Timestamp : WritesRfc3339 rfc3339Timestamp where
  isRfc3339 := by
    intro date instant hinstant
    obtain ⟨hyear, h⟩ := ite_some_none_eq_some.mp hinstant
    cases h
    exact hyear
  roundTrips := fun _ hyear => congrArg (Timestamp.mk _) (if_pos hyear)

/-- A configuration of one rule that expires all objects as given. -/
def expires (expiration : CurrentExpiration) : CanonicalLifecycleConfiguration :=
  ⟨schemaVersion, [⟨none, .enabled, .modern .all, some expiration, none, none, none, none⟩]⟩

theorem projectable_iff_epoch :
    ∃ rules, toS3Rules rfc3339Timestamp (expires (.date 0)) = .ok rules ∧
      validateAndCanonicalize rules = .ok (expires (.date 0)) := by
  have hyear : InFourDigitYear 0 := by norm_num [InFourDigitYear, dayNanos]
  exact (projectable_iff writesRfc3339_rfc3339Timestamp (by decide)).1.mpr
    ⟨forall_mem_nil _, forall_mem_singleton.mpr hyear⟩

/-- A stored expiration after `2^31` days passes the validator and cannot be projected, and one at
the first midnight of the year 10000 does not come back. -/
theorem expires_unprojectable :
    validateCanonicalConfiguration (expires (.days 2147483648)) = .ok () ∧
      toS3Rules rfc3339Timestamp (expires (.days 2147483648)) =
        .error (invalid "lifecycle expiration days are out of range") ∧
      validateCanonicalConfiguration (expires (.date (2932897 * dayNanos))) = .ok () ∧
      (toS3Rules rfc3339Timestamp (expires (.date (2932897 * dayNanos))) >>=
          validateAndCanonicalize) = .error (invalid "expiration date is invalid") := by
  decide

end IpfS3.Lifecycle
