import IpfS3.Lifecycle.Projection

/-!
# The canonical form is stable

`lifecycle/config.rs`: an accepted configuration is stored as the text of its canonical form, read
back from that text, and projected for the answer to a client.  Each of these ways leads back to
the canonical form, and a client that sends the tags of a filter in another order gets the same one
(`canonicalForm_stable`).  The days of a request are signed, so those of an accepted configuration
are always in range for the projection (`le_maxDays_of_accepted`).

Serialising and parsing JSON is the library's; both are parameters.
-/

namespace IpfS3.Lifecycle

open Fallible Keyset

/-! ## The stored text -/

/-- `canonical_json`, with the library's serialisation. -/
def canonicalJson (toString : CanonicalLifecycleConfiguration → Option Text)
    (config : CanonicalLifecycleConfiguration) : AppResult Text := do
  validateCanonicalConfiguration config
  required (toString config) "lifecycle configuration cannot be serialized"

/-- `from_canonical_json`, with the library's parser. -/
def fromCanonicalJson (fromStr : Text → Option CanonicalLifecycleConfiguration) (json : Text) :
    AppResult CanonicalLifecycleConfiguration := do
  let config ← required (fromStr json) "stored lifecycle configuration is invalid"
  validateCanonicalConfiguration config
  .ok config

theorem fromCanonicalJson_canonicalJson {toString : CanonicalLifecycleConfiguration → Option Text}
    {fromStr : Text → Option CanonicalLifecycleConfiguration}
    {config : CanonicalLifecycleConfiguration} {json : Text}
    (h : validateCanonicalConfiguration config = .ok ()) (hwrite : toString config = some json)
    (hread : fromStr json = some config) :
    canonicalJson toString config = .ok json ∧ fromCanonicalJson fromStr json = .ok config := by
  constructor
  · rw [canonicalJson, h, ok_bind, hwrite, required]
  · rw [fromCanonicalJson, hread, required, ok_bind, h, ok_bind]

/-! ## The order of tags -/

/-- Two rules that are equal up to the order of the tags of an `And`. -/
inductive TagsPermuted : LifecycleRule → LifecycleRule → Prop
  | refl (rule : LifecycleRule) : TagsPermuted rule rule
  | and (rule : LifecycleRule) (filter : LifecycleRuleFilter) (and : LifecycleRuleAndOperator)
      {tags tags' : List Tag} (h : tags.Perm tags') :
      TagsPermuted
        { rule with filter := some { filter with and := some { and with tags := some tags } } }
        { rule with filter := some { filter with and := some { and with tags := some tags' } } }

theorem canonicalizeAnd_of_perm {and : LifecycleRuleAndOperator} {tags tags' : List Tag}
    {filter : CanonicalFilter} (hperm : tags.Perm tags')
    (h : canonicalizeAnd { and with tags := some tags } = .ok filter) :
    canonicalizeAnd { and with tags := some tags' } = .ok filter := by
  obtain ⟨lower, hlower, h⟩ := of_bind h
  obtain ⟨upper, hupper, h⟩ := of_bind h
  obtain ⟨hsizes, h⟩ := of_ensure h
  obtain ⟨canonical, hcanonical, h⟩ := of_bind h
  obtain ⟨canonical', hcanonical', hperm'⟩ := mapM_perm hcanonical hperm
  have hsorted : sortBy tagOrder canonical' = sortBy tagOrder canonical :=
    sortBy_eq_of_perm tagOrder tagOrder_injective hperm'
  refine bind_eq_ok_iff.mpr ⟨lower, hlower, bind_eq_ok_iff.mpr ⟨upper, hupper, ?_⟩⟩
  refine ensure_bind_eq_ok_iff.mpr ⟨hsizes, bind_eq_ok_iff.mpr ⟨canonical', hcanonical', ?_⟩⟩
  rw [hsorted]
  exact h

theorem canonicalizeFilter_and_eq_ok_iff {filter : LifecycleRuleFilter}
    {and : LifecycleRuleAndOperator} {canonical : CanonicalFilter} :
    canonicalizeFilter { filter with and := some and } = .ok canonical ↔
      (filter.pfx = none ∧ filter.tag = none ∧ filter.objectSizeGreaterThan = none ∧
        filter.objectSizeLessThan = none) ∧ canonicalizeAnd and = .ok canonical := by
  obtain ⟨_, lower, upper, pfx, tag⟩ := filter
  constructor
  · intro h
    rcases lower with _ | lower <;> rcases upper with _ | upper <;> rcases pfx with _ | pfx <;>
      rcases tag with _ | tag
    case none.none.none.none => exact ⟨⟨rfl, rfl, rfl, rfl⟩, h⟩
    all_goals cases h
  · rintro ⟨⟨rfl, rfl, rfl, rfl⟩, h⟩
    exact h

theorem canonicalizeRule_of_tagsPermuted {rule rule' : LifecycleRule}
    {canonical : CanonicalLifecycleRule} (hperm : TagsPermuted rule rule')
    (h : canonicalizeRule rule = .ok canonical) : canonicalizeRule rule' = .ok canonical := by
  cases hperm with
  | refl => exact h
  | @and rule filter and tags tags' hperm =>
    obtain ⟨status, hstatus, h⟩ := of_bind h
    obtain ⟨selector, hselector, h⟩ := of_bind h
    -- the order of the tags matters to the selector alone
    refine bind_eq_ok_iff.mpr ⟨status, hstatus, bind_eq_ok_iff.mpr ⟨selector, ?_, h⟩⟩
    cases hpfx : rule.pfx with
    | some pfx =>
      rw [hpfx] at hselector
      cases hselector
    | none =>
      rw [hpfx] at hselector
      obtain ⟨canonicalFilter, hfilter, hselector⟩ := of_bind hselector
      obtain ⟨hothers, hand⟩ := canonicalizeFilter_and_eq_ok_iff.mp hfilter
      refine bind_eq_ok_iff.mpr ⟨canonicalFilter, ?_, hselector⟩
      exact canonicalizeFilter_and_eq_ok_iff.mpr ⟨hothers, canonicalizeAnd_of_perm hperm hand⟩

theorem mapM_canonicalizeRule_of_tagsPermuted {input input' : List LifecycleRule}
    {rules : List CanonicalLifecycleRule} (hperm : List.Forall₂ TagsPermuted input input')
    (h : input.mapM canonicalizeRule = .ok rules) : input'.mapM canonicalizeRule = .ok rules := by
  rw [mapM_eq_ok_iff] at h ⊢
  induction hperm generalizing rules with
  | nil => exact h
  | cons hrule _ ih =>
    obtain ⟨canonical, rest, hcanonical, hrest, rfl⟩ := List.forall₂_cons_left_iff.mp h
    exact List.Forall₂.cons (canonicalizeRule_of_tagsPermuted hrule hcanonical) (ih hrest)

theorem validateAndCanonicalize_of_tagsPermuted {input input' : List LifecycleRule}
    {config : CanonicalLifecycleConfiguration} (hperm : List.Forall₂ TagsPermuted input input')
    (h : validateAndCanonicalize input = .ok config) :
    validateAndCanonicalize input' = .ok config := by
  obtain ⟨rules, hrules, h⟩ := of_bind h
  exact bind_eq_ok_iff.mpr ⟨rules, mapM_canonicalizeRule_of_tagsPermuted hperm hrules, h⟩

/-! ## The normal form -/

/-- **The canonical form of an accepted configuration is a normal form.**  It is projected to rules
that canonicalise to it again, it is read back from its text, and it does not depend on the order
in which the request gives the tags of an `And`. -/
theorem canonicalForm_stable (utcToTimestamp : ℤ → Timestamp)
    (toString : CanonicalLifecycleConfiguration → Option Text)
    (fromStr : Text → Option CanonicalLifecycleConfiguration) {input : List LifecycleRule}
    {config : CanonicalLifecycleConfiguration} {json : Text}
    (h : validateAndCanonicalize input = .ok config)
    (hdates : ∀ date ∈ config.dates, RoundTrips utcToTimestamp date)
    (hwrite : toString config = some json) (hread : fromStr json = some config) :
    (∃ rules, toS3Rules utcToTimestamp config = .ok rules ∧
      validateAndCanonicalize rules = .ok config) ∧
    (canonicalJson toString config = .ok json ∧ fromCanonicalJson fromStr json = .ok config) ∧
    ∀ input', List.Forall₂ TagsPermuted input input' →
      validateAndCanonicalize input' = .ok config := by
  have hvalid : validateCanonicalConfiguration config = .ok () := by
    obtain ⟨rules, -, h⟩ := of_bind h
    obtain ⟨⟨⟩, hvalid, h⟩ := of_bind h
    cases h
    exact hvalid
  exact ⟨validateAndCanonicalize_toS3Rules hvalid hdates (le_maxDays_of_accepted h),
    fromCanonicalJson_canonicalJson hvalid hwrite hread,
    fun input' hperm => validateAndCanonicalize_of_tagsPermuted hperm h⟩

/-- A rule that expires the objects with two tags at a date, and its parts after ten days. -/
def taggedRule (tags : List Tag) : LifecycleRule :=
  { abortIncompleteMultipartUpload := none
    expiration := some ⟨some (exactTimestamp 0), none, none⟩
    filter := some { LifecycleRuleFilter.default with
      and := some ⟨some 5, none, some [97], some tags⟩ }
    id := some [105]
    noncurrentVersionExpiration := some ⟨some 3, some 10⟩
    noncurrentVersionTransitions := none
    pfx := none
    status := enabledStatus
    transitions := none }

/-- The canonical form of `taggedRule` with the tags `b` and `a`. -/
def taggedConfig : CanonicalLifecycleConfiguration :=
  ⟨schemaVersion, [⟨some [105], .enabled,
    .modern (.and (some [97]) [⟨[97], []⟩, ⟨[98], [99]⟩] (some 5) none), some (.date 0),
    some ⟨10, some 3⟩, none, none, none⟩]⟩

/-- The text of `taggedConfig`. -/
def taggedJson : Text := Text.ascii (String.join
  ["\x7b\"schema_version\":1,\"rules\":[\x7b\"id\":\"i\",\"status\":\"enabled\",",
    "\"selector\":\x7b\"kind\":\"modern\",\"filter\":\x7b\"kind\":\"and\",\"prefix\":\"a\",",
    "\"tags\":[\x7b\"key\":\"a\",\"value\":\"\"\x7d,\x7b\"key\":\"b\",\"value\":\"c\"\x7d],",
    "\"object_size_greater_than\":5,\"object_size_less_than\":null\x7d\x7d,",
    "\"expiration\":\x7b\"kind\":\"date\",\"utc_midnight\":\"1970-01-01T00:00:00Z\"\x7d,",
    "\"noncurrent_version_expiration\":\x7b\"noncurrent_days\":10,",
    "\"newer_noncurrent_versions\":3\x7d,\"transition\":null,",
    "\"noncurrent_version_transition\":null,\"abort_incomplete_multipart_upload\":null\x7d]\x7d"]).toList

theorem canonicalForm_stable_tagged :
    validateAndCanonicalize [taggedRule [⟨some [98], some [99]⟩, ⟨some [97], none⟩]] =
        .ok taggedConfig ∧
      (∃ rules, toS3Rules exactTimestamp taggedConfig = .ok rules ∧
        validateAndCanonicalize rules = .ok taggedConfig) ∧
      fromCanonicalJson (fun json => if json = taggedJson then some taggedConfig else none)
        taggedJson = .ok taggedConfig ∧
      validateAndCanonicalize [taggedRule [⟨some [97], none⟩, ⟨some [98], some [99]⟩]] =
        .ok taggedConfig := by
  have haccepted : validateAndCanonicalize
      [taggedRule [⟨some [98], some [99]⟩, ⟨some [97], none⟩]] = .ok taggedConfig := by
    decide +kernel
  obtain ⟨hprojected, hstored, hpermuted⟩ := canonicalForm_stable exactTimestamp
    (fun config => if config = taggedConfig then some taggedJson else none)
    (fun json => if json = taggedJson then some taggedConfig else none) haccepted (fun _ _ => rfl)
    (if_pos rfl) (if_pos rfl)
  refine ⟨haccepted, hprojected, hstored.2, hpermuted _ (List.Forall₂.cons ?_ List.Forall₂.nil)⟩
  exact TagsPermuted.and (taggedRule []) .default ⟨some 5, none, some [97], none⟩
    (List.Perm.swap _ _ [])

end IpfS3.Lifecycle
