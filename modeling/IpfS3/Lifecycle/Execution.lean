import IpfS3.Foundations.Decimal
import IpfS3.Lifecycle.Actions
import IpfS3.Lifecycle.Evaluator

/-!
# Scheduling and executing lifecycle actions

A scan evaluates the versions of a page and inserts an action for each that is due
(`schedule_claimed_scan_page` in `lifecycle/evaluator.rs`).  A worker that has claimed an action
revalidates everything the scan has seen, in the transaction that deletes the version
(`execute_final_transaction` in `lifecycle/actions.rs`): the row and its role, the revision of the
configuration, the counts, and that the evaluation still selects this very action.

The admission of the mutation is left out: it belongs to the ownership of keys.  A transaction reads
the clock once.  `from_canonical_json` is the identity here, and a version's residency is what
`resolve_version_residency` returns for it.
-/

namespace IpfS3.Lifecycle

open Fallible Store Table VersionStore ActionTables

/-- The tables that scans and executions read. -/
structure LifecycleStore where
  store : VersionStore
  /-- The tags of each object. -/
  tags : List (Text × List ObjectTag)
  /-- For each version with a residency, its storage class and whether it is verified hot. -/
  residencies : List (Text × AppResult (StorageClass × Bool))
  /-- The revision and the configuration of each bucket. -/
  configurations : List (Text × ℤ × Option CanonicalLifecycleConfiguration)
  sagas : List TransitionSaga
  actions : Keyed LifecycleActionRow.id

namespace LifecycleStore

variable (db : LifecycleStore)

def tables : ActionTables := ⟨db.store.states.map Prod.fst, db.sagas, db.actions⟩

/-- The database after a transaction on the actions. -/
def withActions (t : ActionTables) : LifecycleStore := { db with actions := t.actions }

def listObjectTags (objectId : Text) : List ObjectTag := (db.tags.lookup objectId).getD []

def joinedObject (row : VersionRow) : Option Object :=
  row.objectId.bind fun objectId => db.store.objects.find? fun o => o.id == objectId

/-! ## Candidates -/

def versionEvaluationFacts (row : VersionRow) (joinedObject : Option Object) :
    AppResult (BucketVersioningState × Option StorageClass × Bool) := do
  let state ← getVersioningState db.store.states row.bucket
  let kind ← versionKind row
  match kind, joinedObject with
  | .deleteMarker, _ => .ok (state, none, false)
  | .object, none => .error (.internal "lifecycle content version has no object")
  | .object, some object => do
    ensure (row.objectId = some object.id ∧ row.bucket = object.bucket ∧ row.key = object.key)
      (.internal "lifecycle content owner mismatch")
    match db.residencies.lookup row.id with
    | none => .ok (state, some .standard, false)
    | some resolved => do
      let (storageClass, verifiedHot) ← resolved
      .ok (state, some storageClass, verifiedHot)

/-- The size of a candidate, with the checks of `candidate_from_row` on its object. -/
def candidateSize (row : VersionRow) : VersionKind → Option Object → AppResult ℤ
  | .object, none => .error (.internal "object version index references a missing object")
  | .object, some object => do
    ensure (row.objectId = some object.id ∧ object.bucket = row.bucket ∧ object.key = row.key)
      (.internal "object version index references a mismatched object")
    .ok object.size
  | .deleteMarker, some _ => .error (.internal "delete marker version index references an object")
  | .deleteMarker, none => .ok 0

def candidateFromRow (row : VersionRow) : AppResult VersionLifecycleCandidate := do
  let kind ← versionKind row
  let versionId ← publicVersionId row
  let (state, storageClass, verifiedHot) ← db.versionEvaluationFacts row (db.joinedObject row)
  let size ← candidateSize row kind (db.joinedObject row)
  .ok ⟨⟨row.bucket, row.key, row.id, versionId, kind, row.objectId, row.sequence⟩, row.isLatest,
    state, storageClass, verifiedHot, size, row.lifecycleAgeStartedAt, row.becameNoncurrentAt⟩

def isNewerNoncurrent (sequence : ℤ) (row : VersionRow) : Bool :=
  !row.isLatest && decide (sequence < row.sequence)

/-- The facts of an evaluation, read from the current state. -/
def evaluationContext (candidate : VersionLifecycleCandidate) (configRevision : ℤ)
    (configuration : CanonicalLifecycleConfiguration) (now : ℤ) : LifecycleEvaluationContext where
  candidate := .version candidate
  tags := candidate.target.objectId.elim [] db.listObjectTags
  publicVersionCount := (db.store.keyRows candidate.target.bucket candidate.target.key).length
  newerNoncurrentCount := (db.store.keyRows candidate.target.bucket candidate.target.key).countP
    (isNewerNoncurrent candidate.target.sequence)
  configRevision := configRevision
  configuration := configuration
  databaseNow := now

end LifecycleStore

/-! ## Scheduling -/

def persistedRuleIdentity : RuleIdentity → Text
  | .id id => Text.ascii ['i', 'd', ':'] ++ id
  | .ordinal ordinal =>
    Text.ascii ['o', 'r', 'd', 'i', 'n', 'a', 'l', ':'] ++ decimal ordinal.toNat

/-- The target of an action, as it is stored. -/
def persistedTarget : LifecycleTargetIdentity → PersistedTarget
  | .version target =>
    .version target.versionRowId target.publicVersionId.asS3Str target.objectId target.sequence
  | .multipartUpload target => .multipartUpload target.uploadId target.initiatedAt

def LifecycleTargetIdentity.key : LifecycleTargetIdentity → Text
  | .version target => target.key
  | .multipartUpload target => target.key

def validateTarget (target : VersionTargetIdentity) : AppResult Unit :=
  ensure ((target.kind = .object ∧ target.objectId ≠ none ∧ target.objectId ≠ some []) ∨
      (target.kind = .deleteMarker ∧ target.objectId = none))
    (.invalidArgument "lifecycle action target kind and object ID are inconsistent")

def invalidActionIdentity : AppError :=
  .invalidArgument "invalid lifecycle action target identity"

def validateActionIdentity (action : NewLifecycleAction) : AppResult Unit := do
  ensure (action.bucket ≠ [] ∧ 0 < action.configRevision) invalidActionIdentity
  match action.target with
  | .version target => do
    ensure (action.actionKind ≠ .abortIncompleteMultipartUpload) invalidActionIdentity
    ensure (target.bucket = action.bucket ∧ target.key ≠ [] ∧ target.versionRowId ≠ [] ∧
      0 ≤ target.sequence) invalidActionIdentity
    validateTarget target
    ensure (action.actionKind = .transitionCurrent ∨ action.actionKind = .transitionNoncurrent →
      target.kind = .object)
      (.invalidArgument "lifecycle transition target must be a content version")
    ensure (target.publicVersionId.asS3Str ≠ [])
      (.invalidArgument "lifecycle action public version ID must not be empty")
  | .multipartUpload target =>
    ensure (action.actionKind = .abortIncompleteMultipartUpload ∧ target.bucket = action.bucket ∧
      target.key ≠ [] ∧ target.uploadId ≠ []) invalidActionIdentity

def newActionRow (action : NewLifecycleAction) (id : Text) (now : ℤ) : LifecycleActionRow where
  id := id
  bucket := action.bucket
  objectKey := action.target.key
  configRevision := action.configRevision
  ruleId := persistedRuleIdentity action.ruleIdentity
  actionKind := action.actionKind
  target := persistedTarget action.target
  dueAt := action.dueAt
  state := .pending
  attempts := 0
  nextAttemptAt := now
  claimEpoch := 0
  failureClass := none
  lastErrorRedacted := none
  createdAt := now
  updatedAt := now

/-- `insert_idempotent`; a row with the same idempotency key is left as it is. -/
def insertIdempotent (actions : Keyed LifecycleActionRow.id) (action : NewLifecycleAction)
    (id : Text) (now : ℤ) : AppResult (Keyed LifecycleActionRow.id) := do
  validateActionIdentity action
  let row := newActionRow action id now
  if actions.rows.any (fun other => other.idempotencyKey == row.idempotencyKey) = true then
    .ok actions
  else if h : actions.get row.id = none then .ok (actions.insert row h)
  else .error uniqueViolation

/-- A transition whose source is not verified yet is left for a later scan. -/
def isUnverifiedTransition (candidate : VersionLifecycleCandidate) (action : NewLifecycleAction) :
    Bool :=
  (action.actionKind == .transitionCurrent || action.actionKind == .transitionNoncurrent) &&
    !candidate.hotResidencyVerified

namespace LifecycleStore

variable (db : LifecycleStore)

/-- One round of the loop of `schedule_claimed_scan_page`. -/
def scheduleCandidate (configRevision : ℤ) (configuration : CanonicalLifecycleConfiguration)
    (now : ℤ) (candidate : VersionLifecycleCandidate) (actionId : Text) :
    AppResult LifecycleStore := do
  let result ← evaluateCandidate (db.evaluationContext candidate configRevision configuration now)
  match result with
  | none => .ok db
  | some action =>
    if isUnverifiedTransition candidate action = true then .ok db
    else do
      let actions ← insertIdempotent db.actions action actionId now
      .ok { db with actions := actions }

def pageRows (bucket : Text) (page : List (Text × Text)) : List (VersionRow × Text) :=
  page.filterMap fun (rowId, actionId) =>
    ((db.store.versions.filter fun row => row.bucket == bucket).find?
      fun row => row.id == rowId).map (·, actionId)

/-- `schedule_claimed_scan_page`, on any page of version rows of a bucket. -/
def scheduleClaimedScanPage (bucket : Text) (page : List (Text × Text)) (now : ℤ) :
    AppResult LifecycleStore :=
  match db.configurations.lookup bucket with
  | some (configRevision, some configuration) => do
    let candidates ← (db.pageRows bucket page).mapM fun (row, actionId) => do
      let candidate ← db.candidateFromRow row
      .ok (candidate, actionId)
    candidates.foldlM (fun db (candidate, actionId) =>
      db.scheduleCandidate configRevision configuration now candidate actionId) db
  | _ => .ok db

end LifecycleStore

/-! ## Revalidation -/

def invalidPersistedActionIdentity : AppError := .internal "invalid lifecycle action identity"

/-- The kind of version that an action is about. -/
def targetKind (actionKind : LifecycleActionKind) (objectId : Option Text) : AppResult VersionKind :=
  match actionKind with
  | .expireCurrent | .transitionCurrent | .transitionNoncurrent => .ok .object
  | .deleteExpiredMarker => .ok .deleteMarker
  | .expireNoncurrent => .ok (if objectId.isSome = true then .object else .deleteMarker)
  | .abortIncompleteMultipartUpload => .error invalidPersistedActionIdentity

def targetFromAction (action : LifecycleActionRow) : AppResult LifecycleTargetIdentity := do
  ensure (action.bucket ≠ [] ∧ action.objectKey ≠ [] ∧ 0 < action.configRevision)
    invalidPersistedActionIdentity
  match action.target with
  | .version versionRowId publicVersionId objectId sequence => do
    ensure (versionRowId ≠ [] ∧ publicVersionId ≠ [] ∧ 0 ≤ sequence) invalidPersistedActionIdentity
    let kind ← targetKind action.actionKind objectId
    let versionId ← (PublicVersionId.parseS3 publicVersionId).mapError
      fun _ => invalidPersistedActionIdentity
    ensure (kind = .object ↔ objectId.isSome = true) invalidPersistedActionIdentity
    .ok (.version ⟨action.bucket, action.objectKey, versionRowId, versionId, kind, objectId,
      sequence⟩)
  | .multipartUpload uploadId uploadCreatedAt => do
    ensure (action.actionKind = .abortIncompleteMultipartUpload ∧ uploadId ≠ [])
      invalidPersistedActionIdentity
    .ok (.multipartUpload ⟨action.bucket, action.objectKey, uploadId, uploadCreatedAt⟩)

def sameActionDefinition (left right : LifecycleActionRow) : Bool :=
  left.id == right.id && left.idempotencyKey == right.idempotencyKey &&
    left.objectKey == right.objectKey

def actionMatchesExpected (action : LifecycleActionRow) (expected : NewLifecycleAction) : Bool :=
  action.objectKey == expected.target.key && action.target == persistedTarget expected.target &&
    action.bucket == expected.bucket && action.configRevision == expected.configRevision &&
    action.ruleId == persistedRuleIdentity expected.ruleIdentity &&
    action.actionKind == expected.actionKind && action.dueAt == expected.dueAt

/-- The role that an action expects of its version. -/
def expectedIsLatest : LifecycleActionKind → AppResult Bool
  | .expireCurrent | .transitionCurrent | .deleteExpiredMarker => .ok true
  | .expireNoncurrent | .transitionNoncurrent => .ok false
  | .abortIncompleteMultipartUpload =>
    .error (.internal "multipart lifecycle action reached version revalidation")

def actionApplies : LifecycleActionKind → VersionKind → Bool
  | .expireCurrent, .object | .transitionCurrent, .object | .transitionNoncurrent, .object => true
  | .deleteExpiredMarker, .deleteMarker => true
  | .expireNoncurrent, _ => true
  | _, _ => false

/-! ## Retries -/

/-- The attempts and the backoff of a worker. -/
structure ExecutionSettings where
  maxAttempts : ℤ
  baseBackoffSecs : ℕ
  maxBackoffSecs : ℕ
  deriving DecidableEq

def validateExecutionSettings (settings : ExecutionSettings) : AppResult Unit := do
  ensure (0 < settings.maxAttempts ∧ settings.maxAttempts ≤ maxLifecycleActionAttempts)
    (.invalidArgument "lifecycle action max attempts is out of range")
  ensure (settings.baseBackoffSecs ≠ 0 ∧ settings.baseBackoffSecs ≤ settings.maxBackoffSecs)
    (.invalidArgument "lifecycle action retry backoff is invalid")

/-- `retry_delay_secs`, with the saturation of a `u64`. -/
def retryDelaySecs (attempts : ℤ) (settings : ExecutionSettings) : ℕ :=
  let attemptIndex := min (attempts - 1).toNat 62
  min settings.maxBackoffSecs (min (2 ^ 64 - 1) (settings.baseBackoffSecs * 2 ^ attemptIndex))

def retryAt (now attempts : ℤ) (settings : ExecutionSettings) : AppResult ℤ := do
  let delay := retryDelaySecs attempts settings
  ensure (delay < 2 ^ 63) (.invalidArgument "lifecycle retry delay is out of range")
  match checkedAddSigned now (delay * secondNanos) with
  | none => .error (.invalidArgument "lifecycle retry time is outside the database range")
  | some nextAttemptAt => .ok nextAttemptAt

namespace ActionTables

/-- The end of a settlement: the row must still carry the claim. -/
def settled (result : ActionTables × Bool) : AppResult ActionTables := do
  ensure (result.2 = true) .staleContentMutation
  .ok result.1

/-- `settle_post_admission_failure`, without the mutation guard that it releases. -/
def settlePostAdmissionFailure (t : ActionTables) (claim : ClaimedLifecycleAction)
    (settings : ExecutionSettings) (failureClass : FailureClass) (retry : Bool) (lockedAt now : ℤ) :
    AppResult ActionTables :=
  match t.lockClaimForExecution claim lockedAt with
  | none => .ok t
  | some action =>
    if retry = true ∧ action.attempts < settings.maxAttempts then do
      let nextAttemptAt ← retryAt now action.attempts settings
      let result ← t.scheduleRetry claim now nextAttemptAt failureClass
      settled result
    else do
      let result ← t.markFailedSafe claim now failureClass
      settled result

end ActionTables

namespace LifecycleStore

variable (db : LifecycleStore)

/-! ## Revalidation of the target -/

/-- The lock of the target's object in `revalidate_candidate`; the outer option is `none` for a target
that is stale. -/
def lockTargetObject (selected : VersionRow) (target : VersionTargetIdentity) :
    AppResult (Option (Option Object)) :=
  match target.kind, target.objectId with
  | .object, none => .error (.internal "lifecycle object target is invalid")
  | .object, some objectId =>
    match db.store.objects.find? fun o => o.id == objectId with
    | none => .ok none
    | some object =>
      if object.bucket = target.bucket ∧ object.key = target.key ∧
          object.isLatest = selected.isLatest then .ok (some (some object))
      else .ok none
  | .deleteMarker, _ =>
    if selected.isLatest = true ∧ (db.store.currentObjects target.bucket target.key).length ≠ 0 then
      .ok none
    else .ok (some none)

def revalidateCandidate (target : VersionTargetIdentity) (actionKind : LifecycleActionKind) :
    AppResult (Option VersionLifecycleCandidate) :=
  match db.store.lockVersionById target.versionRowId with
  | none => .ok none
  | some selected => do
    let isLatest ← expectedIsLatest actionKind
    let matched ← targetMatchesRow selected target
    if matched = false ∨ selected.isLatest ≠ isLatest ∨ actionApplies actionKind target.kind = false
    then .ok none
    else do
      let locked ← db.lockTargetObject selected target
      match locked with
      | none => .ok none
      | some object => do
        let (state, storageClass, verifiedHot) ← db.versionEvaluationFacts selected object
        .ok (some ⟨target, selected.isLatest, state, storageClass, verifiedHot,
          object.elim 0 Object.size, selected.lifecycleAgeStartedAt, selected.becameNoncurrentAt⟩)

/-! ## Execution -/

/-- `cancel_guarded_in_transaction`. -/
def cancelStale (claim : ClaimedLifecycleAction) (now : ℤ) : AppResult LifecycleStore := do
  let (t, done) ← db.tables.markCancelled claim now .cancelledStale
  ensure (done = true) .staleContentMutation
  .ok (db.withActions t)

def expirationWinsWithoutTransitions (action : LifecycleActionRow)
    (context : LifecycleEvaluationContext) : AppResult Bool := do
  let rules := context.configuration.rules.map fun rule =>
    { rule with transition := none, noncurrentVersionTransition := none }
  let expected ← evaluateCandidate
    { context with configuration := { context.configuration with rules := rules } }
  .ok (expected.any (actionMatchesExpected action))

/-- The end of `execute_final_transaction` when the evaluation selects another action. -/
def settleUnexpected (claim : ClaimedLifecycleAction) (action : LifecycleActionRow)
    (context : LifecycleEvaluationContext) (expected : Option NewLifecycleAction) (now : ℤ) :
    AppResult LifecycleStore :=
  if action.actionKind = .expireCurrent ∧
      expected.any (fun winner => winner.actionKind == .transitionCurrent) = true then do
    let wins ← expirationWinsWithoutTransitions action context
    if wins = true then do
      let (t, done) ← db.tables.waitForTransition claim now now
      ensure (done = true) .staleContentMutation
      .ok (db.withActions t)
    else db.cancelStale claim now
  else db.cancelStale claim now

/-- The deletion of `execute_final_transaction`. -/
def deleteTarget (claim : ClaimedLifecycleAction) (target : VersionTargetIdentity)
    (actionKind : LifecycleActionKind) (ids : InstallIds) (now : ℤ) : AppResult LifecycleStore := do
  let (store, result) ← db.store.executeLifecycleDelete target actionKind ids now now
  let deleted := { db with store := store }
  match result with
  | .stale => deleted.cancelStale claim now
  | .applied _ | .alreadySatisfied => do
    ensure ((deleted.tables.markSucceeded claim now).2 = true) .staleContentMutation
    .ok (deleted.withActions (deleted.tables.markSucceeded claim now).1)

/-- `execute_final_transaction` once the configuration has been read. -/
def executeUnder (claim : ClaimedLifecycleAction) (action : LifecycleActionRow)
    (target : VersionTargetIdentity) (ids : InstallIds) (now configRevision : ℤ)
    (configuration : CanonicalLifecycleConfiguration) : AppResult LifecycleStore := do
  let candidate ← db.revalidateCandidate target action.actionKind
  match candidate with
  | none => db.cancelStale claim now
  | some candidate => do
    let context := db.evaluationContext candidate configRevision configuration now
    let expected ← evaluateCandidate context
    if expected.any (actionMatchesExpected action) = true then
      db.deleteTarget claim target action.actionKind ids now
    else db.settleUnexpected claim action context expected now

def executeFinalTransaction (claim : ClaimedLifecycleAction) (target : VersionTargetIdentity)
    (ids : InstallIds) (maxAttempts now : ℤ) : AppResult LifecycleStore :=
  match db.tables.lockClaimForExecution claim now with
  | none => .ok db
  | some action =>
    if sameActionDefinition action claim.action = false then db.cancelStale claim now
    else if waitingForDependency action = true ∧ maxAttempts ≤ action.attempts then do
      let (t, done) ← db.tables.markFailedSafe claim now .internalDependency
      ensure (done = true) .staleContentMutation
      .ok (db.withActions t)
    else
      match db.configurations.lookup target.bucket with
      | some (configRevision, some configuration) =>
        if configRevision ≠ action.configRevision then db.cancelStale claim now
        else db.executeUnder claim action target ids now configRevision configuration
      | _ => db.cancelStale claim now

/-- `is_temporary_execution_error`; no modelled statement fails by contention. -/
def isTemporaryExecutionError (error : AppError) : Bool := error == .staleContentMutation

/-- What follows a final transaction that was rolled back.  A settlement that fails as well leaves the
claim to expire. -/
def settleFailure (claim : ClaimedLifecycleAction) (settings : ExecutionSettings) (now : ℤ)
    (error : AppError) : LifecycleStore :=
  let settled :=
    if isTemporaryExecutionError error = true then
      db.tables.settlePostAdmissionFailure claim settings .databaseContention true now now
    else db.tables.settlePostAdmissionFailure claim settings .internalDependency false now now
  match settled with
  | .error _ => db
  | .ok t => db.withActions t

/-- `execute_claimed_lifecycle_action` on a version, once the mutation has been admitted. -/
def executeClaimed (claim : ClaimedLifecycleAction) (ids : InstallIds) (settings : ExecutionSettings)
    (now : ℤ) : LifecycleStore :=
  match targetFromAction claim.action with
  | .error error => db.settleFailure claim settings now error
  | .ok (.multipartUpload _) => db
  | .ok (.version target) =>
    match db.executeFinalTransaction claim target ids settings.maxAttempts now with
    | .error error => db.settleFailure claim settings now error
    | .ok db' => db'

/-- A worker claims one action that expires a noncurrent version and executes it. -/
def executeAction (actionId workerId : Text) (leaseUntil : ℤ) (settings : ExecutionSettings)
    (ids : InstallIds) (now : ℤ) : AppResult LifecycleStore :=
  match db.actions.get actionId with
  | none => .ok db
  | some action =>
    if action.actionKind ≠ .expireNoncurrent ∨ leaseUntil ≤ now then .ok db
    else do
      validateExecutionSettings settings
      let (t, claim) ← db.tables.claimOne workerId settings.maxAttempts now leaseUntil [] action
      match claim with
      | none => .ok (db.withActions t)
      | some claim => .ok ((db.withActions t).executeClaimed claim ids settings now)

end LifecycleStore

inductive LifecycleEvent where
  | scan (bucket : Text) (page : List (Text × Text)) (now : ℤ)
  | execute (actionId workerId : Text) (leaseUntil : ℤ) (settings : ExecutionSettings)
      (ids : InstallIds) (now : ℤ)

def LifecycleEvent.now : LifecycleEvent → ℤ
  | .scan _ _ now => now
  | .execute _ _ _ _ _ now => now

def handle (db : LifecycleStore) : LifecycleEvent → AppResult LifecycleStore
  | .scan bucket page now => db.scheduleClaimedScanPage bucket page now
  | .execute actionId workerId leaseUntil settings ids now =>
    db.executeAction actionId workerId leaseUntil settings ids now

end IpfS3.Lifecycle
