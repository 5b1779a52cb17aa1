import IpfS3.Foundations.Keyed
import IpfS3.Lifecycle.Model

/-!
# The table of lifecycle actions

`store/lifecycle_action.rs`: a worker claims a row that is due, and the claim is a token of the row,
the worker and the epoch at which it was claimed.  Every later statement of the worker names the row
by that token (`activeClaimCondition`), so it does nothing once the row has been claimed again.

Each function is one transaction; its clock readings are arguments.  The retries of SQLite, the
bucket and row locks and the renewal of the mutation guard are left out.  A row lock that another
transaction holds shows in one place: `claim_due` skips locked rows, and takes their ids here.
-/

namespace IpfS3.Lifecycle

open Fallible Keyset Store Table

/-! ## Rows -/

/-- The columns `state`, `lease_until`, `claimed_by` and `finished_at`.  By two constraints of the
table a row has a lease and a worker exactly when it is claimed, and a finishing time exactly when
it is finished. -/
inductive LifecycleActionState where
  | pending
  | claimed (claimedBy : Text) (leaseUntil : ℤ)
  | succeeded (finishedAt : ℤ)
  | cancelled (finishedAt : ℤ)
  | failedSafe (finishedAt : ℤ)
  deriving DecidableEq

/-- The values of the column `failure_class`. -/
inductive FailureClass where
  | databaseContention
  | admissionTemporarilyUnavailable
  | internalDependency
  | cancelledStale
  | waitingForTransition
  | waitingForMutation
  deriving DecidableEq

/-- The values of the column `last_error_redacted`. -/
inductive LastErrorRedacted where
  | redactedLifecycleActionError
  | transitionSettlementRequired
  deriving DecidableEq

/-- The columns of the target, of which a constraint of the table makes those of a version or those
of an upload null. -/
inductive PersistedTarget where
  | version (versionRowId publicVersionId : Text) (objectId : Option Text) (sequence : ℤ)
  | multipartUpload (uploadId : Text) (uploadCreatedAt : ℤ)
  deriving DecidableEq

/-- What the idempotency key of an action is the digest of; it stands for the digest. -/
structure ActionIdentity where
  bucket : Text
  configRevision : ℤ
  ruleId : Text
  actionKind : LifecycleActionKind
  target : PersistedTarget
  dueAt : ℤ
  deriving DecidableEq

/-- A row of `lifecycle_actions`. -/
structure LifecycleActionRow where
  id : Text
  bucket : Text
  objectKey : Text
  configRevision : ℤ
  ruleId : Text
  actionKind : LifecycleActionKind
  target : PersistedTarget
  dueAt : ℤ
  state : LifecycleActionState
  attempts : ℤ
  nextAttemptAt : ℤ
  claimEpoch : ℤ
  failureClass : Option FailureClass
  lastErrorRedacted : Option LastErrorRedacted
  createdAt : ℤ
  updatedAt : ℤ
  deriving DecidableEq

/-- The column `idempotency_key`.  It is computed from columns that no statement writes. -/
def LifecycleActionRow.idempotencyKey (row : LifecycleActionRow) : ActionIdentity :=
  ⟨row.bucket, row.configRevision, row.ruleId, row.actionKind, row.target, row.dueAt⟩

inductive TransitionCheckpoint where
  | prepare
  | copy
  | verify
  | publish
  | cleanup
  deriving DecidableEq

inductive SettlementKind where
  | cancelled
  | cleanupComplete
  deriving DecidableEq

/-- The columns of `lifecycle_transitions` that a claim reads. -/
structure TransitionSaga where
  actionId : Text
  checkpoint : TransitionCheckpoint
  publicationReceipt : Option Text
  settlementKind : Option SettlementKind
  completedAt : Option ℤ
  deriving DecidableEq

/-- The tables that the transactions on actions read. -/
structure ActionTables where
  buckets : List Text
  sagas : List TransitionSaga
  actions : Keyed LifecycleActionRow.id

structure ClaimedLifecycleAction where
  action : LifecycleActionRow
  claimEpoch : ℤ
  workerId : Text
  deriving DecidableEq

/-! ## Conditions -/

def waitingForTransition (action : LifecycleActionRow) : Bool :=
  action.actionKind == .expireCurrent && action.failureClass == some .waitingForTransition

def PersistedTarget.isVersion : PersistedTarget → Bool
  | .version .. => true
  | .multipartUpload .. => false

def waitingForDependency (action : LifecycleActionRow) : Bool :=
  waitingForTransition action ||
    (action.target.isVersion && action.failureClass == some .waitingForMutation)

/-- The bounds of an `i64`. -/
def saturate (n : ℤ) : ℤ := max (-2 ^ 63) (min (2 ^ 63 - 1) n)

def consumedAttempts (action : LifecycleActionRow) : ℤ :=
  saturate (action.attempts - if waitingForDependency action = true then 0 else 1)

def isTransitionAction (action : LifecycleActionRow) : Bool :=
  match action.actionKind with
  | .transitionCurrent | .transitionNoncurrent => true
  | .expireCurrent | .expireNoncurrent | .deleteExpiredMarker | .abortIncompleteMultipartUpload =>
    false

/-- A saga that has been neither settled nor completed. -/
def TransitionSaga.isUnfinished (saga : TransitionSaga) : Bool :=
  saga.settlementKind.isNone && saga.completedAt.isNone

def unfinishedTransitionSagaExists (sagas : List TransitionSaga) (action : LifecycleActionRow) :
    Bool :=
  sagas.any fun saga => saga.actionId == action.id && saga.isUnfinished

def dueClaimCondition (sagas : List TransitionSaga) (now : ℤ) (action : LifecycleActionRow) : Bool :=
  match action.state with
  | .pending => decide (action.nextAttemptAt ≤ now) && decide (action.dueAt ≤ now)
  | .claimed _ leaseUntil =>
    decide (leaseUntil ≤ now) && (action.lastErrorRedacted != some .transitionSettlementRequired ||
      unfinishedTransitionSagaExists sagas action)
  | .failedSafe _ => isTransitionAction action && unfinishedTransitionSagaExists sagas action
  | .succeeded _ | .cancelled _ => false

def activeClaimCondition (claim : ClaimedLifecycleAction) (action : LifecycleActionRow) : Bool :=
  match action.state with
  | .claimed claimedBy _ =>
    action.id == claim.action.id && claimedBy == claim.workerId &&
      action.claimEpoch == claim.claimEpoch
  | .pending | .succeeded _ | .cancelled _ | .failedSafe _ => false

/-- The condition `lease_until > now`. -/
def leaseAfter (now : ℤ) (action : LifecycleActionRow) : Bool :=
  match action.state with
  | .claimed _ leaseUntil => decide (now < leaseUntil)
  | .pending | .succeeded _ | .cancelled _ | .failedSafe _ => false

def isAllowedFailureClass : FailureClass → Bool
  | .databaseContention | .admissionTemporarilyUnavailable | .internalDependency
  | .cancelledStale => true
  | .waitingForTransition | .waitingForMutation => false

def validateFailureClass (failureClass : FailureClass) : AppResult Unit :=
  ensure (isAllowedFailureClass failureClass = true)
    (.invalidArgument "invalid lifecycle action failure class")

/-! ## Instants -/

def secondNanos : ℤ := 10 ^ 9

def checkedAddSigned (instant duration : ℤ) : Option ℤ :=
  if maxDate < dateOf (instant + duration) then none else some (instant + duration)

def maxLifecycleActionAttempts : ℤ := 8

def maxLifecycleActionClaimLimit : ℕ := 1000

def maxLifecycleActionLeaseSeconds : ℤ := 86400

def transitionRecheckSeconds : ℤ := 30

def validateLeaseDuration (leaseFor : ℤ) : AppResult Unit :=
  ensure (0 < leaseFor ∧ leaseFor ≤ maxLifecycleActionLeaseSeconds * secondNanos)
    (.invalidArgument "lifecycle action lease must be between 1 second and 86400 seconds")

def leaseEnd (now leaseFor : ℤ) : AppResult ℤ :=
  match checkedAddSigned now leaseFor with
  | none =>
    .error (.invalidArgument "lifecycle action lease is outside the database timestamp range")
  | some leaseUntil => .ok leaseUntil

/-- A text of white space only, in the UTF-8 encoding of the characters that `str::trim` removes. -/
def isBlank : Text → Bool
  | [] => true
  | 0xC2 :: 0x85 :: rest | 0xC2 :: 0xA0 :: rest => isBlank rest
  | 0xE1 :: 0x9A :: 0x80 :: rest | 0xE2 :: 0x81 :: 0x9F :: rest | 0xE3 :: 0x80 :: 0x80 :: rest =>
    isBlank rest
  | 0xE2 :: 0x80 :: c :: rest =>
    ((0x80 ≤ c && c ≤ 0x8A) || c == 0xA8 || c == 0xA9 || c == 0xAF) && isBlank rest
  | c :: rest => ((9 ≤ c && c ≤ 13) || c == 32) && isBlank rest

def validateClaimRequest (workerId : Text) (leaseFor : ℤ) (limit : ℕ) : AppResult Unit := do
  ensure (isBlank workerId = false) (.invalidArgument "lifecycle worker ID must not be empty")
  validateLeaseDuration leaseFor
  ensure (0 < limit ∧ limit ≤ maxLifecycleActionClaimLimit)
    (.invalidArgument "lifecycle action claim limit must be between 1 and 1000")

/-! ## Statements -/

/-- The new end of a claimed row's lease. -/
def LifecycleActionState.renewed (leaseUntil : ℤ) : LifecycleActionState → LifecycleActionState
  | .claimed claimedBy _ => .claimed claimedBy leaseUntil
  | state => state

namespace ActionTables

variable (t : ActionTables)

def updateRows (p : LifecycleActionRow → Bool) (f : LifecycleActionRow → LifecycleActionRow)
    (hf : ∀ row, (f row).id = row.id) : ActionTables × Bool :=
  ({ t with actions := t.actions.update p f hf }, decide (t.actions.affected p = 1))

def lockClaimForExecution (claim : ClaimedLifecycleAction) (now : ℤ) : Option LifecycleActionRow :=
  if t.buckets.contains claim.action.bucket = true then
    (t.actions.rows.find? (activeClaimCondition claim)).filter (leaseAfter now)
  else none

/-- `renew_claim`; the row is locked at `lockedAt` and the lease counts from `now`. -/
def renewClaim (claim : ClaimedLifecycleAction) (leaseFor lockedAt now : ℤ) :
    AppResult (ActionTables × Bool) := do
  validateLeaseDuration leaseFor
  match t.lockClaimForExecution claim lockedAt with
  | none => .ok (t, false)
  | some _ => do
    let leaseUntil ← leaseEnd now leaseFor
    .ok (t.updateRows (fun row => activeClaimCondition claim row && leaseAfter now row)
      (fun row => { row with
        state := row.state.renewed leaseUntil, updatedAt := now })
      fun _ => rfl)

def markSucceeded (claim : ClaimedLifecycleAction) (now : ℤ) : ActionTables × Bool :=
  t.updateRows (activeClaimCondition claim)
    (fun row => { row with
      state := .succeeded now, failureClass := none, lastErrorRedacted := none, updatedAt := now })
    fun _ => rfl

def terminalFailureUpdate (claim : ClaimedLifecycleAction) (now : ℤ)
    (terminalState : LifecycleActionState) (failureClass : FailureClass) :
    AppResult (ActionTables × Bool) := do
  validateFailureClass failureClass
  .ok (t.updateRows (activeClaimCondition claim)
    (fun row => { row with
      state := terminalState, failureClass := some failureClass,
      lastErrorRedacted := some .redactedLifecycleActionError, updatedAt := now })
    fun _ => rfl)

def markCancelled (claim : ClaimedLifecycleAction) (now : ℤ) (failureClass : FailureClass) :
    AppResult (ActionTables × Bool) :=
  t.terminalFailureUpdate claim now (.cancelled now) failureClass

def markFailedSafe (claim : ClaimedLifecycleAction) (now : ℤ) (failureClass : FailureClass) :
    AppResult (ActionTables × Bool) :=
  t.terminalFailureUpdate claim now (.failedSafe now) failureClass

def scheduleRetry (claim : ClaimedLifecycleAction) (now nextAttemptAt : ℤ)
    (failureClass : FailureClass) : AppResult (ActionTables × Bool) := do
  validateFailureClass failureClass
  ensure (now < nextAttemptAt)
    (.invalidArgument "lifecycle retry must be scheduled after the database time")
  .ok (t.updateRows (activeClaimCondition claim)
    (fun row => { row with
      state := .pending,
      -- the claim of a dependency probe was not charged, its failure is
      attempts := claim.action.attempts +
        if waitingForDependency claim.action = true then 1 else 0,
      nextAttemptAt := nextAttemptAt, failureClass := some failureClass,
      lastErrorRedacted := some .redactedLifecycleActionError, updatedAt := now })
    fun _ => rfl)

/-- The update of a row that goes back to the queue without a charge. -/
def requeue (claim : ClaimedLifecycleAction) (action : LifecycleActionRow) (now nextAttemptAt : ℤ)
    (reason : Option FailureClass) : ActionTables × Bool :=
  t.updateRows (fun row => activeClaimCondition claim row && leaseAfter now row)
    (fun row => { row with
      state := .pending, attempts := consumedAttempts action, nextAttemptAt := nextAttemptAt,
      failureClass := reason, lastErrorRedacted := none, updatedAt := now })
    fun _ => rfl

/-- `park_dependency_in_transaction`. -/
def parkDependency (claim : ClaimedLifecycleAction) (action : LifecycleActionRow)
    (reason : FailureClass) (now : ℤ) : ActionTables × Bool :=
  t.requeue claim action now (now + transitionRecheckSeconds * secondNanos) (some reason)

def waitForMutationDependency (claim : ClaimedLifecycleAction) (maxAttempts lockedAt now : ℤ) :
    ActionTables × Bool :=
  match t.lockClaimForExecution claim lockedAt with
  | none => (t, true)
  | some action =>
    if maxAttempts ≤ consumedAttempts action then (t, false)
    else ((t.parkDependency claim action .waitingForMutation now).1, true)

/-- `wait_for_transition_in_transaction`. -/
def waitForTransition (claim : ClaimedLifecycleAction) (lockedAt now : ℤ) :
    AppResult (ActionTables × Bool) :=
  match t.lockClaimForExecution claim lockedAt with
  | none => .ok (t, false)
  | some action => do
    ensure (action.actionKind = .expireCurrent) (.internal "invalid transition dependency action")
    .ok (t.parkDependency claim action .waitingForTransition now)

/-- `wait_for_hot_verification_in_transaction`. -/
def waitForHotVerification (claim : ClaimedLifecycleAction) (lockedAt now : ℤ) :
    AppResult (ActionTables × Bool) :=
  match t.lockClaimForExecution claim lockedAt with
  | none => .ok (t, false)
  | some action => do
    ensure (isTransitionAction action = true)
      (.internal "invalid hot verification dependency action")
    match checkedAddSigned now (transitionRecheckSeconds * secondNanos) with
    | none =>
      .error (.internal "lifecycle transition recheck time is outside the database range")
    | some nextAttemptAt => .ok (t.requeue claim action now nextAttemptAt none)

/-! ## Claiming -/

inductive TransitionSagaState where
  | none
  | outstanding
  | published
  deriving DecidableEq

def transitionSagaState (actionId : Text) : TransitionSagaState :=
  match t.sagas.find? fun saga => saga.actionId == actionId with
  | .none => .none
  | .some saga =>
    if saga.isUnfinished = true then
      if saga.publicationReceipt.isSome = true ∧
          (saga.checkpoint = .publish ∨ saga.checkpoint = .cleanup) then .published
      else .outstanding
    else .none

def dueCandidates (now : ℤ) (limit : ℕ) : List LifecycleActionRow :=
  (sortBy (fun row => toLex (row.dueAt, row.id))
    (t.actions.rows.filter (dueClaimCondition t.sagas now))).take limit

/-- The condition of the statements on a candidate: the row as it was read, and still due. -/
def isCandidate (candidate : LifecycleActionRow) (now : ℤ) (row : LifecycleActionRow) : Bool :=
  row.id == candidate.id && row.attempts == candidate.attempts &&
    row.claimEpoch == candidate.claimEpoch && dueClaimCondition t.sagas now row

/-- What a candidate becomes when it is claimed. -/
def claimedRow (candidate : LifecycleActionRow) (workerId : Text) (now leaseUntil : ℤ)
    (row : LifecycleActionRow) : LifecycleActionRow :=
  { row with
    state := .claimed workerId leaseUntil
    attempts := saturate (candidate.attempts + if waitingForDependency candidate = true then 0 else 1)
    claimEpoch := candidate.claimEpoch + 1
    updatedAt := now
    -- a row that failed safe, or that is being settled, stays marked for its settlement
    lastErrorRedacted := match candidate.state with
      | .failedSafe _ => some .transitionSettlementRequired
      | _ => row.lastErrorRedacted }

def claimCandidate (candidate : LifecycleActionRow) (workerId : Text) (now leaseUntil : ℤ) :
    AppResult (ActionTables × Option ClaimedLifecycleAction) := do
  ensure (candidate.claimEpoch + 1 < 2 ^ 63) (.database "lifecycle action claim epoch overflow")
  let updated := t.updateRows (t.isCandidate candidate now)
    (claimedRow candidate workerId now leaseUntil) fun _ => rfl
  if updated.2 = false then .ok (updated.1, none)
  else
    match updated.1.actions.get candidate.id with
    | none => .error (.internal "claimed lifecycle action disappeared")
    | some action => .ok (updated.1, some ⟨action, action.claimEpoch, workerId⟩)

/-- `fail_safe_exhausted`, without the mutation guard that it clears. -/
def failSafeExhausted (candidate : LifecycleActionRow) (now : ℤ) : AppResult ActionTables := do
  ensure (candidate.target.isVersion = true → t.buckets.contains candidate.bucket = true)
    (.noSuchBucket candidate.bucket)
  let failureClass := (candidate.failureClass.filter isAllowedFailureClass).getD .internalDependency
  .ok (t.updateRows (t.isCandidate candidate now)
    (fun row => { row with
      state := .failedSafe now, failureClass := some failureClass,
      lastErrorRedacted := some .redactedLifecycleActionError, updatedAt := now })
    fun _ => rfl).1

/-- A candidate whose attempts are used up is claimed all the same: once after a claim that expired,
once for a transition, and as often as it takes for a saga that has to be settled. -/
def isRecoverable (candidate : LifecycleActionRow) (maxAttempts : ℤ) : Bool :=
  let saga := if isTransitionAction candidate = true then t.transitionSagaState candidate.id else .none
  let isClaimed := match candidate.state with
    | .claimed _ _ => true
    | _ => false
  (!waitingForDependency candidate && candidate.attempts == maxAttempts &&
      (isClaimed || isTransitionAction candidate)) ||
    saga == .published || (saga == .outstanding && decide (maxAttempts < candidate.attempts))

/-- One round of the loop of `claim_due_in_transaction`. -/
def claimOne (workerId : Text) (maxAttempts now leaseUntil : ℤ) (lockedElsewhere : List Text)
    (candidate : LifecycleActionRow) : AppResult (ActionTables × Option ClaimedLifecycleAction) :=
  if t.buckets.contains candidate.bucket = false ∨ lockedElsewhere.contains candidate.id = true then
    .ok (t, none)
  else
    match (t.actions.get candidate.id).filter (dueClaimCondition t.sagas now) with
    | none => .ok (t, none)
    | some candidate =>
      if maxAttempts ≤ candidate.attempts ∧ t.isRecoverable candidate maxAttempts = false then do
        let t ← t.failSafeExhausted candidate now
        .ok (t, none)
      else t.claimCandidate candidate workerId now leaseUntil

end ActionTables

open ActionTables

/-- The loop of `claim_due_in_transaction` over the candidates. -/
def claimAll (workerId : Text) (maxAttempts now leaseUntil : ℤ) (lockedElsewhere : List Text) :
    List LifecycleActionRow → ActionTables → AppResult (ActionTables × List ClaimedLifecycleAction)
  | [], t => .ok (t, [])
  | candidate :: candidates, t => do
    let (t, claim) ← t.claimOne workerId maxAttempts now leaseUntil lockedElsewhere candidate
    let (t, claims) ← claimAll workerId maxAttempts now leaseUntil lockedElsewhere candidates t
    .ok (t, claim.toList ++ claims)

/-- `claim_due_with_max_attempts`: the candidates are discovered at `discoveredAt`, and claimed at
`now`, once the buckets are locked. -/
def ActionTables.claimDue (t : ActionTables) (workerId : Text) (leaseFor maxAttempts : ℤ) (limit : ℕ)
    (discoveredAt now : ℤ) (lockedElsewhere : List Text) :
    AppResult (ActionTables × List ClaimedLifecycleAction) := do
  validateClaimRequest workerId leaseFor limit
  ensure (1 ≤ maxAttempts ∧ maxAttempts ≤ maxLifecycleActionAttempts)
    (.invalidArgument "lifecycle max attempts must be in 1..=8")
  let leaseUntil ← leaseEnd now leaseFor
  claimAll workerId maxAttempts now leaseUntil lockedElsewhere (t.dueCandidates discoveredAt limit) t

/-! ## Runs -/

/-- The transactions on the actions.  The last one stands for the transactions that write buckets and
sagas. -/
inductive ActionOperation where
  | claimDue (workerId : Text) (leaseFor maxAttempts : ℤ) (limit : ℕ) (discoveredAt now : ℤ)
      (lockedElsewhere : List Text)
  | renewClaim (claim : ClaimedLifecycleAction) (leaseFor lockedAt now : ℤ)
  | scheduleRetry (claim : ClaimedLifecycleAction) (now nextAttemptAt : ℤ)
      (failureClass : FailureClass)
  | waitForMutationDependency (claim : ClaimedLifecycleAction) (maxAttempts lockedAt now : ℤ)
  | waitForTransition (claim : ClaimedLifecycleAction) (lockedAt now : ℤ)
  | waitForHotVerification (claim : ClaimedLifecycleAction) (lockedAt now : ℤ)
  | markSucceeded (claim : ClaimedLifecycleAction) (now : ℤ)
  | markCancelled (claim : ClaimedLifecycleAction) (now : ℤ) (failureClass : FailureClass)
  | markFailedSafe (claim : ClaimedLifecycleAction) (now : ℤ) (failureClass : FailureClass)
  | writeOthers (buckets : List Text) (sagas : List TransitionSaga)

def ActionOperation.claim : ActionOperation → Option ClaimedLifecycleAction
  | .claimDue .. | .writeOthers .. => none
  | .renewClaim claim .. | .scheduleRetry claim .. | .waitForMutationDependency claim ..
  | .waitForTransition claim .. | .waitForHotVerification claim .. | .markSucceeded claim ..
  | .markCancelled claim .. | .markFailedSafe claim .. => some claim

/-- One transaction, with the claims that it hands out. -/
def transactAction (t : ActionTables) :
    ActionOperation → AppResult (ActionTables × List ClaimedLifecycleAction)
  | .claimDue workerId leaseFor maxAttempts limit discoveredAt now lockedElsewhere =>
    t.claimDue workerId leaseFor maxAttempts limit discoveredAt now lockedElsewhere
  | .renewClaim claim leaseFor lockedAt now => do
    let (t, _) ← t.renewClaim claim leaseFor lockedAt now
    .ok (t, [])
  | .scheduleRetry claim now nextAttemptAt failureClass => do
    let (t, _) ← t.scheduleRetry claim now nextAttemptAt failureClass
    .ok (t, [])
  | .waitForMutationDependency claim maxAttempts lockedAt now =>
    .ok ((t.waitForMutationDependency claim maxAttempts lockedAt now).1, [])
  | .waitForTransition claim lockedAt now => do
    let (t, _) ← t.waitForTransition claim lockedAt now
    .ok (t, [])
  | .waitForHotVerification claim lockedAt now => do
    let (t, _) ← t.waitForHotVerification claim lockedAt now
    .ok (t, [])
  | .markSucceeded claim now => .ok ((t.markSucceeded claim now).1, [])
  | .markCancelled claim now failureClass => do
    let (t, _) ← t.markCancelled claim now failureClass
    .ok (t, [])
  | .markFailedSafe claim now failureClass => do
    let (t, _) ← t.markFailedSafe claim now failureClass
    .ok (t, [])
  | .writeOthers buckets sagas => .ok ({ t with buckets := buckets, sagas := sagas }, [])

end IpfS3.Lifecycle
