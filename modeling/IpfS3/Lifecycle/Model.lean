import IpfS3.Foundations.Percent
import IpfS3.Store.VersionOperations

/-!
# Lifecycle configurations and candidates

The types of `lifecycle/model.rs`, the filters of `lifecycle/filter.rs`, and the dates of
`lifecycle/evaluator.rs`.

An instant is a number of nanoseconds.  The instants that the code can represent end with the day
`maxDate`; adding days is checked against it, so a due instant can be out of range.
-/

namespace IpfS3.Lifecycle

open Store

/-! ## Dates -/

def dayNanos : ℤ := 86400 * 10 ^ 9

/-- `NaiveDate::MAX`, 262142-12-31, in days since 1970-01-01. -/
def maxDate : ℤ := 95026236

/-- `date_naive`. -/
def dateOf (instant : ℤ) : ℤ := instant / dayNanos

def dueOutOfRange : AppError :=
  .invalidArgument "lifecycle due time is outside the UTC timestamp range"

/-- `next_utc_midnight_after_full_days`: the first midnight strictly after so many days. -/
def nextUtcMidnightAfterFullDays (start : ℤ) (days : UInt32) : AppResult ℤ :=
  let aged := start + days.toNat * dayNanos
  if maxDate < dateOf aged then .error dueOutOfRange
  else
    let nextDate := dateOf aged + 1
    if maxDate < nextDate then .error dueOutOfRange
    else .ok (nextDate * dayNanos)

/-- The check for an instant at midnight. -/
def isMidnight (instant : ℤ) : Bool := instant % dayNanos == 0

/-! ## Configurations -/

inductive LifecycleRuleStatus where
  | enabled
  | disabled
  deriving DecidableEq

structure CanonicalTag where
  key : Text
  value : Text
  deriving DecidableEq

inductive CanonicalFilter where
  | all
  | keyPrefix (pfx : Text)
  | tag (tag : CanonicalTag)
  | objectSizeGreaterThan (bytes : ℤ)
  | objectSizeLessThan (bytes : ℤ)
  | and (pfx : Option Text) (tags : List CanonicalTag) (objectSizeGreaterThan : Option ℤ)
      (objectSizeLessThan : Option ℤ)
  deriving DecidableEq

inductive CanonicalRuleSelector where
  | legacyPrefix (pfx : Text)
  | modern (filter : CanonicalFilter)
  deriving DecidableEq

inductive CurrentExpiration where
  | date (utcMidnight : ℤ)
  | days (days : UInt32)
  | expiredObjectDeleteMarker
  deriving DecidableEq

/-- `NoncurrentExpiration`, and `NoncurrentTransition` with the same fields. -/
structure NoncurrentExpiration where
  noncurrentDays : UInt32
  newerNoncurrentVersions : Option UInt16
  deriving DecidableEq

@[inherit_doc NoncurrentExpiration]
abbrev NoncurrentTransition := NoncurrentExpiration

inductive CurrentTransition where
  | date (utcMidnight : ℤ)
  | days (days : UInt32)
  deriving DecidableEq

structure CanonicalLifecycleRule where
  id : Option Text
  status : LifecycleRuleStatus
  selector : CanonicalRuleSelector
  expiration : Option CurrentExpiration
  noncurrentVersionExpiration : Option NoncurrentExpiration
  transition : Option CurrentTransition
  noncurrentVersionTransition : Option NoncurrentTransition
  /-- `AbortIncompleteMultipartUploadAction`, by its days after initiation. -/
  abortIncompleteMultipartUpload : Option UInt32
  deriving DecidableEq

structure CanonicalLifecycleConfiguration where
  schemaVersion : ℕ
  rules : List CanonicalLifecycleRule
  deriving DecidableEq

/-! ## Candidates and actions -/

structure MultipartUploadTargetIdentity where
  bucket : Text
  key : Text
  uploadId : Text
  initiatedAt : ℤ
  deriving DecidableEq

structure VersionLifecycleCandidate where
  target : VersionTargetIdentity
  isLatest : Bool
  bucketVersioningState : BucketVersioningState
  primaryStorageClass : Option StorageClass
  hotResidencyVerified : Bool
  size : ℤ
  lifecycleAgeStartedAt : ℤ
  becameNoncurrentAt : Option ℤ
  deriving DecidableEq

inductive LifecycleCandidate where
  | version (candidate : VersionLifecycleCandidate)
  | multipartUpload (target : MultipartUploadTargetIdentity)
  deriving DecidableEq

inductive LifecycleTargetIdentity where
  | version (target : VersionTargetIdentity)
  | multipartUpload (target : MultipartUploadTargetIdentity)
  deriving DecidableEq

def LifecycleCandidate.target : LifecycleCandidate → LifecycleTargetIdentity
  | .version candidate => .version candidate.target
  | .multipartUpload target => .multipartUpload target

inductive RuleIdentity where
  | id (id : Text)
  | ordinal (ordinal : UInt16)
  deriving DecidableEq

/-- `NewLifecycleAction`; its idempotency key is filled in after the evaluation. -/
structure NewLifecycleAction where
  idempotencyKey : Text
  bucket : Text
  configRevision : ℤ
  ruleIdentity : RuleIdentity
  actionKind : LifecycleActionKind
  target : LifecycleTargetIdentity
  dueAt : ℤ
  deriving DecidableEq

structure ObjectTag where
  key : String
  value : String
  deriving DecidableEq

/-! ## Filters -/

def tagMatches (expected : CanonicalTag) (tags : List ObjectTag) : Bool :=
  tags.any fun actual =>
    Percent.utf8 actual.key == expected.key && Percent.utf8 actual.value == expected.value

def boundsMatch (size : ℤ) (greater less : Option ℤ) : Bool :=
  greater.all (fun bound => decide (bound < size)) && less.all fun bound => decide (size < bound)

def matchesModernFilter (filter : CanonicalFilter) (key : Text) (size : ℤ) (tags : List ObjectTag) :
    Bool :=
  match filter with
  | .all => true
  | .keyPrefix pfx => Text.startsWith key pfx
  | .tag tag => tagMatches tag tags
  | .objectSizeGreaterThan bytes => decide (bytes < size)
  | .objectSizeLessThan bytes => decide (size < bytes)
  | .and pfx expectedTags objectSizeGreaterThan objectSizeLessThan =>
    (pfx.all fun pfx => Text.startsWith key pfx) &&
      (expectedTags.all fun tag => tagMatches tag tags) &&
      boundsMatch size objectSizeGreaterThan objectSizeLessThan

def matchesFilter (selector : CanonicalRuleSelector) (key : Text) (size : ℤ)
    (tags : List ObjectTag) : Bool :=
  match selector with
  | .legacyPrefix pfx => Text.startsWith key pfx
  | .modern filter => matchesModernFilter filter key size tags

end IpfS3.Lifecycle
