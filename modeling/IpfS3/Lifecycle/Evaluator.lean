import IpfS3.Lifecycle.Config

/-!
# The lifecycle evaluator

`lifecycle/evaluator.rs`: `evaluateCandidate` collects the proposals of all enabled rules that match
a candidate, and selects the first in the order of their effect priority, their due instant and
their rule.

The collectors differ in what they do with a due instant out of range: a transition and an abort
action skip it, and an expiration fails.
-/

namespace IpfS3.Lifecycle

open Fallible Keyset Store

structure LifecycleEvaluationContext where
  candidate : LifecycleCandidate
  tags : List ObjectTag
  publicVersionCount : ℕ
  newerNoncurrentCount : ℕ
  configRevision : ℤ
  configuration : CanonicalLifecycleConfiguration
  databaseNow : ℤ
  deriving DecidableEq

structure LifecycleProposal where
  action : NewLifecycleAction
  stableRuleIdentity : Text
  effectPriority : ℕ
  deriving DecidableEq

structure VersionEvaluationContext where
  candidate : VersionLifecycleCandidate
  facts : LifecycleEvaluationContext
  deriving DecidableEq

/-! ## Identities of rules -/

/-- The decimal digit of a number below ten. -/
def digit (n : ℕ) : UInt8 := UInt8.ofNat (48 + n % 10)

/-- The format `{:05}` of an ordinal. -/
def fiveDigits (n : ℕ) : Text :=
  [digit (n / 10000), digit (n / 1000), digit (n / 100), digit (n / 10), digit n]

def ruleIdentity (id : Option Text) (ordinal : ℕ) : AppResult (RuleIdentity × Text) :=
  match id with
  | some id => .ok (.id id, Text.ascii ['i', 'd', ':'] ++ id)
  | none => do
    ensure (ordinal < 2 ^ 16) (.invalidArgument "lifecycle rule ordinal is out of range")
    .ok (.ordinal (UInt16.ofNat ordinal),
      Text.ascii ['o', 'r', 'd', 'i', 'n', 'a', 'l', ':'] ++ fiveDigits ordinal)

/-! ## Proposals -/

def effectPriority (candidate : VersionLifecycleCandidate) : LifecycleActionKind → ℕ
  | .expireCurrent =>
    match candidate.bucketVersioningState with
    | .unversioned => 0
    | .suspended => if candidate.target.publicVersionId = .null then 0 else 2
    | .enabled => 2
  | .transitionCurrent | .transitionNoncurrent => 1
  | .expireNoncurrent | .deleteExpiredMarker | .abortIncompleteMultipartUpload => 0

def proposal (context : VersionEvaluationContext) (identity : RuleIdentity × Text)
    (actionKind : LifecycleActionKind) (dueAt : ℤ) : LifecycleProposal where
  action :=
    { idempotencyKey := []
      bucket := context.candidate.target.bucket
      configRevision := context.facts.configRevision
      ruleIdentity := identity.1
      actionKind := actionKind
      target := .version context.candidate.target
      dueAt := dueAt }
  stableRuleIdentity := identity.2
  effectPriority := effectPriority context.candidate actionKind

/-- The proposal of an action at its due instant, once that has been reached. -/
def proposeAt (context : VersionEvaluationContext) (identity : RuleIdentity × Text)
    (actionKind : LifecycleActionKind) (dueAt : ℤ) : List LifecycleProposal :=
  if dueAt ≤ context.facts.databaseNow then [proposal context identity actionKind dueAt] else []

def currentDueAt (expiration : CurrentExpiration) (candidate : VersionLifecycleCandidate) :
    AppResult (Option ℤ) :=
  match expiration with
  | .date utcMidnight => .ok (some utcMidnight)
  | .days days => do
    let dueAt ← nextUtcMidnightAfterFullDays candidate.lifecycleAgeStartedAt days
    .ok (some dueAt)
  | .expiredObjectDeleteMarker => .ok none

/-- The proposal of a current expiration by a date or by days. -/
def collectDated (context : VersionEvaluationContext) (expiration : CurrentExpiration)
    (identity : RuleIdentity × Text) (actionKind : LifecycleActionKind) :
    AppResult (List LifecycleProposal) := do
  let dueAt ← currentDueAt expiration context.candidate
  match dueAt with
  | none => .ok []
  | some dueAt => .ok (proposeAt context identity actionKind dueAt)

/-- The expiration of a delete marker that is the only version of its key. -/
def collectSoleMarker (context : VersionEvaluationContext) (identity : RuleIdentity × Text) :
    CurrentExpiration → AppResult (List LifecycleProposal)
  | .expiredObjectDeleteMarker =>
    -- the marker is due at once, at whatever instant its age started
    .ok [proposal context identity .deleteExpiredMarker context.candidate.lifecycleAgeStartedAt]
  | .date utcMidnight => collectDated context (.date utcMidnight) identity .deleteExpiredMarker
  | .days days => collectDated context (.days days) identity .deleteExpiredMarker

def collectCurrentProposal (context : VersionEvaluationContext)
    (expiration : Option CurrentExpiration) (identity : RuleIdentity × Text) :
    AppResult (List LifecycleProposal) :=
  match expiration, context.candidate.target.kind with
  | none, _ => .ok []
  | some expiration, .object => collectDated context expiration identity .expireCurrent
  | some expiration, .deleteMarker =>
    if context.facts.publicVersionCount = 1 then collectSoleMarker context identity expiration
    else .ok []

/-- The test on the newer noncurrent versions. -/
def newerSatisfied (newerNoncurrentVersions : Option UInt16) (newerNoncurrentCount : ℕ) : Bool :=
  newerNoncurrentVersions.all fun required => decide (required.toNat < newerNoncurrentCount)

def transitionDueAt (context : VersionEvaluationContext) (rule : CanonicalLifecycleRule) :
    Option (LifecycleActionKind × ℤ) :=
  if context.candidate.isLatest = true then
    match rule.transition with
    | none => none
    | some (.date utcMidnight) => some (.transitionCurrent, utcMidnight)
    | some (.days days) =>
      match nextUtcMidnightAfterFullDays context.candidate.lifecycleAgeStartedAt days with
      | .error _ => none
      | .ok due => some (.transitionCurrent, due)
  else
    match rule.noncurrentVersionTransition, context.candidate.becameNoncurrentAt with
    | some transition, some start =>
      if newerSatisfied transition.newerNoncurrentVersions context.facts.newerNoncurrentCount = true
      then
        match nextUtcMidnightAfterFullDays start transition.noncurrentDays with
        | .error _ => none
        | .ok due => some (.transitionNoncurrent, due)
      else none
    | _, _ => none

def collectTransitionProposal (context : VersionEvaluationContext) (rule : CanonicalLifecycleRule)
    (identity : RuleIdentity × Text) : List LifecycleProposal :=
  if context.candidate.target.kind = .object ∧
      context.candidate.primaryStorageClass = some .standard then
    match transitionDueAt context rule with
    | none => []
    | some (kind, dueAt) => proposeAt context identity kind dueAt
  else []

def collectNoncurrentProposal (context : VersionEvaluationContext)
    (expiration : Option NoncurrentExpiration) (identity : RuleIdentity × Text) :
    AppResult (List LifecycleProposal) :=
  match expiration, context.candidate.becameNoncurrentAt with
  | some expiration, some becameNoncurrentAt => do
    let dueAt ← nextUtcMidnightAfterFullDays becameNoncurrentAt expiration.noncurrentDays
    if newerSatisfied expiration.newerNoncurrentVersions context.facts.newerNoncurrentCount = true
    then .ok (proposeAt context identity .expireNoncurrent dueAt)
    else .ok []
  | _, _ => .ok []

/-! ## Evaluation -/

/-- The rules that `evaluate_candidate` goes through: enabled, and matching the version. -/
def selected (context : VersionEvaluationContext) (rule : CanonicalLifecycleRule) : Bool :=
  decide (rule.status = .enabled) && matchesFilter rule.selector context.candidate.target.key
    context.candidate.size context.facts.tags

/-- The expiration of a current or a noncurrent version. -/
def collectExpirationProposal (context : VersionEvaluationContext) (rule : CanonicalLifecycleRule)
    (identity : RuleIdentity × Text) : AppResult (List LifecycleProposal) :=
  if context.candidate.isLatest = true then collectCurrentProposal context rule.expiration identity
  else collectNoncurrentProposal context rule.noncurrentVersionExpiration identity

def collectVersionRule (context : VersionEvaluationContext) :
    CanonicalLifecycleRule × ℕ → AppResult (List LifecycleProposal)
  | (rule, ordinal) =>
    if selected context rule = true then do
      let identity ← ruleIdentity rule.id ordinal
      let expiration ← collectExpirationProposal context rule identity
      .ok (collectTransitionProposal context rule identity ++ expiration)
    else .ok []

def proposalSortKey (proposal : LifecycleProposal) : ℕ ×ₗ ℤ ×ₗ Text :=
  toLex (proposal.effectPriority, toLex (proposal.action.dueAt, proposal.stableRuleIdentity))

def selectWinner (proposals : List LifecycleProposal) : Option LifecycleProposal :=
  (sortBy proposalSortKey proposals).head?

/-- The match of a multipart upload; other selectors than those of all keys or of a prefix are
rejected. -/
def matchesUpload (selector : CanonicalRuleSelector) (key : Text) : AppResult Bool :=
  match selector with
  | .modern .all => .ok true
  | .legacyPrefix pfx | .modern (.keyPrefix pfx) => .ok (Text.startsWith key pfx)
  | _ => .error (.invalidArgument "invalid multipart lifecycle selector")

def uploadProposal (context : LifecycleEvaluationContext) (target : MultipartUploadTargetIdentity)
    (identity : RuleIdentity × Text) (dueAt : ℤ) : LifecycleProposal where
  action :=
    { idempotencyKey := []
      bucket := target.bucket
      configRevision := context.configRevision
      ruleIdentity := identity.1
      actionKind := .abortIncompleteMultipartUpload
      target := .multipartUpload target
      dueAt := dueAt }
  stableRuleIdentity := identity.2
  effectPriority := 0

def collectUploadRule (context : LifecycleEvaluationContext)
    (target : MultipartUploadTargetIdentity) :
    CanonicalLifecycleRule × ℕ → AppResult (List LifecycleProposal)
  | (rule, ordinal) =>
    if rule.status = .enabled then
      match rule.abortIncompleteMultipartUpload with
      | none => .ok []
      | some days => do
        let matched ← matchesUpload rule.selector target.key
        if matched = true then
          match nextUtcMidnightAfterFullDays target.initiatedAt days with
          | .error _ => .ok []
          | .ok dueAt =>
            if dueAt ≤ context.databaseNow then do
              let identity ← ruleIdentity rule.id ordinal
              .ok [uploadProposal context target identity dueAt]
            else .ok []
        else .ok []
    else .ok []

/-- The order in which `evaluate_multipart` sorts its proposals. -/
def uploadSortKey (proposal : LifecycleProposal) : ℤ ×ₗ Text :=
  toLex (proposal.action.dueAt, proposal.stableRuleIdentity)

def evaluateMultipart (context : LifecycleEvaluationContext)
    (target : MultipartUploadTargetIdentity) : AppResult (Option NewLifecycleAction) := do
  let proposals ← context.configuration.rules.zipIdx.mapM (collectUploadRule context target)
  .ok ((sortBy uploadSortKey proposals.flatten).head?.map LifecycleProposal.action)

def evaluateCandidate (context : LifecycleEvaluationContext) :
    AppResult (Option NewLifecycleAction) := do
  ensure (0 < context.configRevision)
    (.invalidArgument "lifecycle configuration revision must be positive")
  match context.candidate with
  | .multipartUpload target => evaluateMultipart context target
  | .version candidate => do
    let proposals ← context.configuration.rules.zipIdx.mapM
      (collectVersionRule ⟨candidate, context⟩)
    .ok ((selectWinner proposals.flatten).map LifecycleProposal.action)

end IpfS3.Lifecycle
