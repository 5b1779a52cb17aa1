import IpfS3.Lifecycle.Model

/-!
# Accepting a lifecycle configuration

`lifecycle/config.rs`: a configuration of the S3 request is brought into its canonical form
(`canonicalizeRule`), and the canonical form is validated (`validateCanonicalConfiguration`).  Both
are run by `validateAndCanonicalize`; a stored configuration is validated again when it is read.

The records of the request are those of the S3 library.  Of a timestamp, the code sees the instant
and what its text parses to.
-/

namespace IpfS3.Lifecycle

open Fallible Keyset

/-! ## The request -/

/-- `Timestamp`, with the instant that its formatted text parses to. -/
structure Timestamp where
  instant : ℤ
  parsed : Option ℤ
  deriving DecidableEq

/-- `Tag` of the request. -/
structure Tag where
  key : Option Text
  value : Option Text
  deriving DecidableEq

structure LifecycleRuleAndOperator where
  objectSizeGreaterThan : Option ℤ
  objectSizeLessThan : Option ℤ
  pfx : Option Text
  tags : Option (List Tag)
  deriving DecidableEq

structure LifecycleRuleFilter where
  and : Option LifecycleRuleAndOperator
  objectSizeGreaterThan : Option ℤ
  objectSizeLessThan : Option ℤ
  pfx : Option Text
  tag : Option Tag
  deriving DecidableEq

structure LifecycleExpiration where
  date : Option Timestamp
  days : Option Int32
  expiredObjectDeleteMarker : Option Bool
  deriving DecidableEq

structure NoncurrentVersionExpiration where
  newerNoncurrentVersions : Option Int32
  noncurrentDays : Option Int32
  deriving DecidableEq

structure Transition where
  date : Option Timestamp
  days : Option Int32
  storageClass : Option Text
  deriving DecidableEq

structure NoncurrentVersionTransition where
  newerNoncurrentVersions : Option Int32
  noncurrentDays : Option Int32
  storageClass : Option Text
  deriving DecidableEq

/-- `LifecycleRule`; an abort action is given by its days after initiation. -/
structure LifecycleRule where
  abortIncompleteMultipartUpload : Option (Option Int32)
  expiration : Option LifecycleExpiration
  filter : Option LifecycleRuleFilter
  id : Option Text
  noncurrentVersionExpiration : Option NoncurrentVersionExpiration
  noncurrentVersionTransitions : Option (List NoncurrentVersionTransition)
  pfx : Option Text
  status : Text
  transitions : Option (List Transition)
  deriving DecidableEq

/-! ## Canonical forms -/

def schemaVersion : ℕ := 1

def invalid (message : String) : AppError := .invalidLifecycleConfiguration message

def required {α : Type} (value : Option α) (message : String) : AppResult α :=
  match value with
  | none => .error (invalid message)
  | some value => .ok value

/-- `ExpirationStatus::ENABLED`. -/
def enabledStatus : Text := Text.ascii ['E', 'n', 'a', 'b', 'l', 'e', 'd']

/-- `ExpirationStatus::DISABLED`. -/
def disabledStatus : Text := Text.ascii ['D', 'i', 's', 'a', 'b', 'l', 'e', 'd']

/-- `TransitionStorageClass::STANDARD_IA`. -/
def standardIaClass : Text :=
  Text.ascii ['S', 'T', 'A', 'N', 'D', 'A', 'R', 'D', '_', 'I', 'A']

def nonnegativeSize (bytes : ℤ) : AppResult ℤ := do
  ensure (0 ≤ bytes) (invalid "lifecycle object size must be nonnegative")
  .ok bytes

def positiveDays (value : Int32) (message : String) : AppResult UInt32 := do
  ensure (0 < value) (invalid message)
  .ok value.toUInt32

def canonicalizeTag (tag : Tag) : AppResult CanonicalTag := do
  let key ← required tag.key "lifecycle tag key is required"
  .ok ⟨key, tag.value.getD []⟩

/-- The test of `windows(2).any`. -/
def anyAdjacent {α : Type} (test : α → α → Bool) : List α → Bool
  | first :: second :: rest => test first second || anyAdjacent test (second :: rest)
  | _ => false

/-- The derived order of `CanonicalTag`. -/
def tagOrder (tag : CanonicalTag) : Text ×ₗ Text := toLex (tag.key, tag.value)

/-- The check on the size bounds of an `And`. -/
def sizesOrdered : Option ℤ → Option ℤ → Bool
  | some lower, some upper => decide (lower < upper)
  | _, _ => true

def canonicalizeAnd (and : LifecycleRuleAndOperator) : AppResult CanonicalFilter := do
  let objectSizeGreaterThan ← and.objectSizeGreaterThan.mapM nonnegativeSize
  let objectSizeLessThan ← and.objectSizeLessThan.mapM nonnegativeSize
  ensure (sizesOrdered objectSizeGreaterThan objectSizeLessThan = true)
    (invalid "lifecycle And size bounds must be ordered")
  let tags ← (and.tags.getD []).mapM canonicalizeTag
  let tags := sortBy tagOrder tags
  ensure (anyAdjacent (fun first second => first.key == second.key) tags = false)
    (invalid "lifecycle And tag keys must be distinct")
  .ok (.and and.pfx tags objectSizeGreaterThan objectSizeLessThan)

def canonicalizeFilter (filter : LifecycleRuleFilter) : AppResult CanonicalFilter :=
  match filter.and, filter.pfx, filter.tag, filter.objectSizeGreaterThan,
    filter.objectSizeLessThan with
  | none, none, none, none, none => .ok .all
  | some and, none, none, none, none => canonicalizeAnd and
  | none, some pfx, none, none, none => .ok (.keyPrefix pfx)
  | none, none, some tag, none, none => do
    let tag ← canonicalizeTag tag
    .ok (.tag tag)
  | none, none, none, some bytes, none => do
    let bytes ← nonnegativeSize bytes
    .ok (.objectSizeGreaterThan bytes)
  | none, none, none, none, some bytes => do
    let bytes ← nonnegativeSize bytes
    .ok (.objectSizeLessThan bytes)
  | _, _, _, _, _ => .error (invalid "lifecycle Filter must contain at most one selector")

def canonicalizeSelector (pfx : Option Text) (filter : Option LifecycleRuleFilter) :
    AppResult CanonicalRuleSelector :=
  match pfx, filter with
  | some _, some _ => .error (invalid "lifecycle rule cannot contain both Prefix and Filter")
  | some pfx, none => .ok (.legacyPrefix pfx)
  | none, some filter => do
    let filter ← canonicalizeFilter filter
    .ok (.modern filter)
  | none, none => .error (invalid "lifecycle rule requires Prefix or Filter")

def timestampToUtcWithMessages (value : Timestamp)
    (invalidMessage utcMessage midnightMessage : String) : AppResult ℤ := do
  let parsed ← required value.parsed invalidMessage
  ensure (parsed = value.instant) (invalid utcMessage)
  ensure (isMidnight parsed = true) (invalid midnightMessage)
  .ok parsed

def timestampToUtc (value : Timestamp) : AppResult ℤ :=
  timestampToUtcWithMessages value "expiration date is invalid" "expiration date must use UTC"
    "expiration date must be UTC midnight"

def transitionTimestampToUtc (value : Timestamp) : AppResult ℤ :=
  timestampToUtcWithMessages value "transition date is invalid" "transition date must use UTC"
    "transition date must be UTC midnight"

def canonicalizeExpiration (expiration : LifecycleExpiration) : AppResult CurrentExpiration :=
  match expiration.date, expiration.days, expiration.expiredObjectDeleteMarker with
  | some date, none, none => do
    let utcMidnight ← timestampToUtc date
    .ok (.date utcMidnight)
  | none, some days, none => do
    let days ← positiveDays days "lifecycle expiration days must be positive"
    .ok (.days days)
  | none, none, some true => .ok .expiredObjectDeleteMarker
  | none, none, some false =>
    .error (invalid "expired object delete marker must be true when present")
  | _, _, _ => .error (invalid "lifecycle Expiration must contain exactly one action")

/-- The selectors with an explicit filter. -/
def CanonicalRuleSelector.isModern : CanonicalRuleSelector → Bool
  | .legacyPrefix _ => false
  | .modern _ => true

def canonicalizeNewerNoncurrentVersions (newerNoncurrentVersions : Option Int32)
    (selector : CanonicalRuleSelector) : AppResult (Option UInt16) :=
  match newerNoncurrentVersions with
  | none => .ok none
  | some value => do
    ensure (1 ≤ value ∧ value ≤ 100) (invalid "newer noncurrent versions must be between 1 and 100")
    ensure (selector.isModern = true)
      (invalid "newer noncurrent versions requires an explicit modern Filter")
    .ok (some value.toUInt32.toUInt16)

/-- `canonicalize_noncurrent_expiration`, which has the checks on the newer versions in place. -/
def canonicalizeNoncurrentExpiration (expiration : NoncurrentVersionExpiration)
    (selector : CanonicalRuleSelector) : AppResult NoncurrentExpiration := do
  let noncurrentDays ← required expiration.noncurrentDays "noncurrent expiration days are required"
  let newerNoncurrentVersions ←
    canonicalizeNewerNoncurrentVersions expiration.newerNoncurrentVersions selector
  let noncurrentDays ← positiveDays noncurrentDays "noncurrent expiration days must be positive"
  .ok ⟨noncurrentDays, newerNoncurrentVersions⟩

def requireStandardIa (storageClass : Option Text) : AppResult Unit := do
  let storageClass ← required storageClass "lifecycle transition storage class is required"
  ensure (storageClass = standardIaClass)
    (invalid "lifecycle transition storage class must be STANDARD_IA")

def canonicalizeCurrentTransition (transition : Transition) : AppResult CurrentTransition := do
  requireStandardIa transition.storageClass
  match transition.date, transition.days with
  | some date, none => do
    let utcMidnight ← transitionTimestampToUtc date
    .ok (.date utcMidnight)
  | none, some days => do
    let days ← positiveDays days "lifecycle transition days must be positive"
    .ok (.days days)
  | _, _ => .error (invalid "lifecycle Transition must contain exactly one of Date or Days")

def canonicalizeNoncurrentTransition (selector : CanonicalRuleSelector)
    (transition : NoncurrentVersionTransition) : AppResult NoncurrentTransition := do
  requireStandardIa transition.storageClass
  let noncurrentDays ← required transition.noncurrentDays "noncurrent transition days are required"
  let noncurrentDays ← positiveDays noncurrentDays "noncurrent transition days must be positive"
  let newerNoncurrentVersions ←
    canonicalizeNewerNoncurrentVersions transition.newerNoncurrentVersions selector
  .ok ⟨noncurrentDays, newerNoncurrentVersions⟩

def canonicalizeTransitionList {α β : Type} (canonicalize : α → AppResult β) (message : String)
    (transitions : Option (List α)) : AppResult (Option β) :=
  match transitions with
  | none => .ok none
  | some [transition] => do
    let transition ← canonicalize transition
    .ok (some transition)
  | some _ => .error (invalid message)

def canonicalizeCurrentTransitionList :
    Option (List Transition) → AppResult (Option CurrentTransition) :=
  canonicalizeTransitionList canonicalizeCurrentTransition
    "lifecycle Transition must contain exactly one step"

def canonicalizeNoncurrentTransitionList (transitions : Option (List NoncurrentVersionTransition))
    (selector : CanonicalRuleSelector) : AppResult (Option NoncurrentTransition) :=
  canonicalizeTransitionList (canonicalizeNoncurrentTransition selector)
    "NoncurrentVersionTransition must contain exactly one step" transitions

def canonicalizeAbort (days : Option Int32) : AppResult UInt32 := do
  let days ← required days "abort days after initiation are required"
  positiveDays days "abort days after initiation must be positive"

def canonicalizeStatus (status : Text) : AppResult LifecycleRuleStatus :=
  if status = enabledStatus then .ok .enabled
  else if status = disabledStatus then .ok .disabled
  else .error (invalid "lifecycle rule status must be Enabled or Disabled")

def selectorHasTagFilter : CanonicalRuleSelector → Bool
  | .modern (.tag _) => true
  | .modern (.and _ tags _ _) => !tags.isEmpty
  | _ => false

def canonicalizeRule (rule : LifecycleRule) : AppResult CanonicalLifecycleRule := do
  let status ← canonicalizeStatus rule.status
  let selector ← canonicalizeSelector rule.pfx rule.filter
  let expiration ← rule.expiration.mapM canonicalizeExpiration
  let noncurrentVersionExpiration ← rule.noncurrentVersionExpiration.mapM fun value =>
    canonicalizeNoncurrentExpiration value selector
  let transition ← canonicalizeCurrentTransitionList rule.transitions
  let noncurrentVersionTransition ←
    canonicalizeNoncurrentTransitionList rule.noncurrentVersionTransitions selector
  let abortIncompleteMultipartUpload ← rule.abortIncompleteMultipartUpload.mapM canonicalizeAbort
  ensure (¬(expiration = some .expiredObjectDeleteMarker ∧ selectorHasTagFilter selector = true))
    (invalid "expired object delete marker action cannot use a tag filter")
  .ok ⟨rule.id, status, selector, expiration, noncurrentVersionExpiration, transition,
    noncurrentVersionTransition, abortIncompleteMultipartUpload⟩

/-! ## Validation -/

/-- `i32::MAX`. -/
def maxDays : ℕ := 2 ^ 31 - 1

def validateSize (bytes : Option ℤ) : AppResult Unit := do
  let _ ← bytes.mapM nonnegativeSize
  .ok ()

def validateCanonicalSelector (selector : CanonicalRuleSelector) : AppResult Unit :=
  match selector with
  | .modern (.objectSizeGreaterThan bytes) | .modern (.objectSizeLessThan bytes) =>
    validateSize (some bytes)
  | .modern (.and _ tags objectSizeGreaterThan objectSizeLessThan) => do
    validateSize objectSizeGreaterThan
    validateSize objectSizeLessThan
    ensure (sizesOrdered objectSizeGreaterThan objectSizeLessThan = true)
      (invalid "lifecycle And size bounds must be ordered")
    ensure (anyAdjacent (fun first second => decide (tagOrder second < tagOrder first)) tags = false)
      (invalid "lifecycle And tags must be sorted")
    ensure (tags.map CanonicalTag.key).Nodup (invalid "lifecycle And tag keys must be distinct")
  | _ => .ok ()

def validateNoncurrentThresholds (thresholds : NoncurrentExpiration)
    (selector : CanonicalRuleSelector) (daysMessage : String) : AppResult Unit := do
  ensure (thresholds.noncurrentDays ≠ 0) (invalid daysMessage)
  ensure (thresholds.noncurrentDays.toNat ≤ maxDays)
    (invalid "noncurrent lifecycle days are out of range")
  match thresholds.newerNoncurrentVersions with
  | none => .ok ()
  | some newer => do
    ensure (1 ≤ newer ∧ newer ≤ 100) (invalid "newer noncurrent versions must be between 1 and 100")
    ensure (selector.isModern = true)
      (invalid "newer noncurrent versions requires an explicit modern Filter")

def CanonicalRuleSelector.isAbortable : CanonicalRuleSelector → Bool
  | .legacyPrefix _ | .modern .all | .modern (.keyPrefix _) => true
  | _ => false

/-- The checks of `validate_canonical_rule` on an expiration. -/
def validateExpiration (selector : CanonicalRuleSelector) : CurrentExpiration → AppResult Unit
  | .date utcMidnight =>
    ensure (isMidnight utcMidnight = true) (invalid "expiration date must be UTC midnight")
  | .days days => ensure (days ≠ 0) (invalid "lifecycle expiration days must be positive")
  | .expiredObjectDeleteMarker =>
    ensure (selectorHasTagFilter selector = false)
      (invalid "expired object delete marker action cannot use a tag filter")

/-- The checks of `validate_canonical_rule` on a transition. -/
def validateTransition : CurrentTransition → AppResult Unit
  | .date utcMidnight =>
    ensure (isMidnight utcMidnight = true) (invalid "transition date must be UTC midnight")
  | .days days => do
    ensure (days ≠ 0) (invalid "lifecycle transition days must be positive")
    ensure (days.toNat ≤ maxDays) (invalid "lifecycle transition days are out of range")

/-- The checks of `validate_canonical_rule` on an abort action. -/
def validateAbort (selector : CanonicalRuleSelector) (days : UInt32) : AppResult Unit := do
  ensure (days ≠ 0) (invalid "abort days after initiation must be positive")
  ensure (days.toNat ≤ maxDays) (invalid "abort days after initiation are out of range")
  ensure (selector.isAbortable = true)
    (invalid "abort incomplete multipart upload requires an all or prefix selector")

def validateCanonicalRule (rule : CanonicalLifecycleRule) : AppResult Unit := do
  validateCanonicalSelector rule.selector
  rule.expiration.forM (validateExpiration rule.selector)
  rule.noncurrentVersionExpiration.forM fun noncurrent =>
    validateNoncurrentThresholds noncurrent rule.selector
      "noncurrent expiration days must be positive"
  rule.transition.forM validateTransition
  rule.noncurrentVersionTransition.forM fun noncurrent =>
    validateNoncurrentThresholds noncurrent rule.selector
      "noncurrent transition days must be positive"
  rule.abortIncompleteMultipartUpload.forM (validateAbort rule.selector)
  ensure (rule.expiration.isSome = true ∨ rule.noncurrentVersionExpiration.isSome = true ∨
      rule.transition.isSome = true ∨ rule.noncurrentVersionTransition.isSome = true ∨
      rule.abortIncompleteMultipartUpload.isSome = true)
    (invalid "lifecycle rule requires a supported action")

/-- `chars().count()`: the bytes that start a character. -/
def charCount (text : Text) : ℕ := text.countP fun byte => byte / 64 != 2

/-- The check of an ID against the IDs of the rules before it. -/
def validateId (ids : List Text) : Option Text → AppResult (List Text)
  | none => .ok ids
  | some id => do
    ensure (charCount id ≤ 255) (invalid "lifecycle rule ID must be at most 255 characters")
    ensure (ids.contains id = false) (invalid "lifecycle rule IDs must be unique")
    .ok (id :: ids)

/-- The check of one rule, with the IDs of the rules before it. -/
def validateRule (ids : List Text) (rule : CanonicalLifecycleRule) : AppResult (List Text) := do
  let ids ← validateId ids rule.id
  validateCanonicalRule rule
  .ok ids

def validateCanonicalConfiguration (config : CanonicalLifecycleConfiguration) : AppResult Unit := do
  ensure (config.schemaVersion = schemaVersion)
    (invalid "unsupported lifecycle configuration schema version")
  ensure (1 ≤ config.rules.length ∧ config.rules.length ≤ 1000)
    (invalid "lifecycle configuration must contain 1 to 1000 rules")
  let _ ← config.rules.foldlM validateRule []
  .ok ()

def validateAndCanonicalize (input : List LifecycleRule) :
    AppResult CanonicalLifecycleConfiguration := do
  let rules ← input.mapM canonicalizeRule
  let config : CanonicalLifecycleConfiguration := ⟨schemaVersion, rules⟩
  validateCanonicalConfiguration config
  .ok config

/-! ## What an accepted configuration guarantees -/

/-- What the evaluator relies on in a configuration. -/
structure Validated (config : CanonicalLifecycleConfiguration) : Prop where
  length_le : config.rules.length ≤ 1000
  ids_nodup : (config.rules.filterMap CanonicalLifecycleRule.id).Nodup
  rules_valid : ∀ rule ∈ config.rules, validateCanonicalRule rule = .ok ()

theorem validateRule_eq_ok {ids ids' : List Text} {rule : CanonicalLifecycleRule}
    (h : validateRule ids rule = .ok ids') :
    ids' = rule.id.toList ++ ids ∧ (∀ id ∈ rule.id, id ∉ ids) ∧
      validateCanonicalRule rule = .ok () := by
  obtain ⟨next, hnext, h⟩ := of_bind h
  obtain ⟨⟨⟩, hvalid, h⟩ := of_bind h
  cases h
  cases hid : rule.id with
  | none =>
    rw [hid] at hnext
    cases hnext
    exact ⟨rfl, fun id hmem => absurd hmem (Option.not_mem_none id), hvalid⟩
  | some id =>
    rw [hid] at hnext
    obtain ⟨-, hnext⟩ := of_ensure hnext
    obtain ⟨hnew, hnext⟩ := of_ensure hnext
    cases hnext
    refine ⟨rfl, fun other hother => ?_, hvalid⟩
    obtain rfl := Option.mem_some_iff.mp hother
    simpa using hnew

theorem foldlM_validateRule {rules : List CanonicalLifecycleRule} {ids ids' : List Text}
    (h : rules.foldlM validateRule ids = .ok ids') :
    (rules.filterMap CanonicalLifecycleRule.id).Nodup ∧
      (∀ id ∈ rules.filterMap CanonicalLifecycleRule.id, id ∉ ids) ∧
      ∀ rule ∈ rules, validateCanonicalRule rule = .ok () := by
  induction rules generalizing ids with
  | nil => simp
  | cons rule rules ih =>
    obtain ⟨next, hrule, h⟩ := of_bind h
    obtain ⟨rfl, hnew, hvalid⟩ := validateRule_eq_ok hrule
    obtain ⟨hnodup, hdisjoint, hrules⟩ := ih h
    have hall : ∀ r ∈ rule :: rules, validateCanonicalRule r = .ok () := by
      rw [List.forall_mem_cons]
      exact ⟨hvalid, hrules⟩
    cases hid : rule.id with
    | none =>
      rw [hid] at hdisjoint
      rw [List.filterMap_cons_none hid]
      exact ⟨hnodup, hdisjoint, hall⟩
    | some id =>
      rw [hid] at hdisjoint hnew
      rw [List.filterMap_cons_some hid, List.nodup_cons, List.forall_mem_cons]
      refine ⟨⟨fun hmem => hdisjoint id hmem (List.mem_append_left ids List.mem_cons_self), hnodup⟩,
        ⟨hnew id rfl, fun other hother hmem => ?_⟩, hall⟩
      exact hdisjoint other hother (List.mem_append_right _ hmem)

theorem validated_of_validateCanonicalConfiguration {config : CanonicalLifecycleConfiguration}
    (h : validateCanonicalConfiguration config = .ok ()) : Validated config := by
  obtain ⟨-, h⟩ := of_ensure h
  obtain ⟨hlength, h⟩ := of_ensure h
  obtain ⟨ids, hids, -⟩ := of_bind h
  obtain ⟨hnodup, -, hrules⟩ := foldlM_validateRule hids
  exact ⟨hlength.2, hnodup, hrules⟩

theorem validated_of_accepted {input : List LifecycleRule}
    {config : CanonicalLifecycleConfiguration} (h : validateAndCanonicalize input = .ok config) :
    Validated config := by
  obtain ⟨rules, -, h⟩ := of_bind h
  obtain ⟨⟨⟩, hvalid, h⟩ := of_bind h
  cases h
  exact validated_of_validateCanonicalConfiguration hvalid

theorem isAbortable_of_valid {rule : CanonicalLifecycleRule} {days : UInt32}
    (h : validateCanonicalRule rule = .ok ())
    (habort : rule.abortIncompleteMultipartUpload = some days) :
    rule.selector.isAbortable = true := by
  obtain ⟨⟨⟩, -, h⟩ := of_bind h
  obtain ⟨⟨⟩, -, h⟩ := of_bind h
  obtain ⟨⟨⟩, -, h⟩ := of_bind h
  obtain ⟨⟨⟩, -, h⟩ := of_bind h
  obtain ⟨⟨⟩, -, h⟩ := of_bind h
  obtain ⟨⟨⟩, hforM, -⟩ := of_bind h
  rw [habort] at hforM
  obtain ⟨-, hforM⟩ := of_ensure hforM
  obtain ⟨-, hforM⟩ := of_ensure hforM
  exact ensure_eq_ok_iff.mp hforM

end IpfS3.Lifecycle
