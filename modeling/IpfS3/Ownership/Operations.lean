import IpfS3.Foundations.Decimal
import IpfS3.Ownership.Admission

/-!
# Ownership transactions

The other transactions on the ownership of a bucket, and all of them as the steps of a run.
Lifecycle admissions give way to others instead of superseding them, and name their token after
their action and its epoch; a ZIP execution renames the tokens of its outputs when another worker
takes it over.  A failed transaction is rolled back.

`execute` is one transaction with its result, `transact` the state that it commits.
-/

namespace IpfS3
namespace Text

def digit (b : UInt8) : Option ℕ :=
  if 48 ≤ b ∧ b ≤ 57 then some (b.toNat - 48) else none

/-- The value of a non-empty string of decimal digits. -/
def parseNat (s : Text) : Option ℕ :=
  if s = [] then none
  else s.foldlM (fun n b => (digit b).map fun d => 10 * n + d) 0

/-- `str::parse::<i64>`. -/
def parseI64 (s : Text) : Option ℤ :=
  let value := match s with
    | 43 :: digits => (parseNat digits).map Int.ofNat
    | 45 :: digits => (parseNat digits).map fun n => -Int.ofNat n
    | digits => (parseNat digits).map Int.ofNat
  value.filter fun n => decide (-2 ^ 63 ≤ n ∧ n < 2 ^ 63)

end Text

namespace Ownership

open Table Fallible Batches BoundedMerge

namespace OwnershipState

variable (st : OwnershipState)

/-! ## Lifecycle mutations -/

/-- The token of a lifecycle action in one of its epochs. -/
def lifecycleMutationId (actionId : Text) (claimEpoch : ℤ) : Text :=
  Text.ascii ['l', 'i', 'f', 'e', 'c', 'y', 'c', 'l', 'e', ':'] ++ actionId ++
    Text.ascii [':'] ++ decimal claimEpoch.toNat

def lifecycleMutationEpoch (token actionId : Text) : Option ℤ := do
  let rest ← token.stripPrefix (Text.ascii ['l', 'i', 'f', 'e', 'c', 'y', 'c', 'l', 'e', ':'])
  let rest ← Text.stripPrefix rest actionId
  let rest ← Text.stripPrefix rest (Text.ascii [':'])
  Text.parseI64 rest

def validLifecycleOwner (actionId : Text) (claimEpoch : ℤ) : AppResult Unit :=
  ensure (actionId ≠ [] ∧ 58 ∉ actionId ∧ 0 < claimEpoch)
    (.internal "invalid lifecycle mutation owner")

/-- Somebody else owns the key, or holds a prefix over it. -/
def lifecycleBlocked (key : Text) : Bool :=
  (st.findDestination key).any (fun d => d.ownerJobId.isSome) ||
    !(st.prefixOwnerJobsForKey key none none).isEmpty ||
    st.hasOverlappingStandardPrefixMutation key

def olderSameAction (actionId : Text) (claimEpoch : ℤ) (d : Destination) : Bool :=
  d.mutationId.all fun active =>
    (lifecycleMutationEpoch active actionId).any (fun epoch => decide (0 < epoch ∧ epoch < claimEpoch))
      && d.mutationPrefix.isNone

def installLifecycleToken (key mutationId : Text) (now : ℤ) :
    AppResult (OwnershipState × Option StandardMutationGuard) := do
  let (st, guard) ← st.upsertStandardMutation (st.findDestination key) key mutationId none now
  .ok (st, some guard)

/-- The last part of `try_admit_lifecycle_mutation`. -/
def admitLifecycle (key actionId : Text) (claimEpoch now : ℤ) :
    AppResult (OwnershipState × Option StandardMutationGuard) :=
  let mutationId := lifecycleMutationId actionId claimEpoch
  match st.findDestination key with
  | none => st.installLifecycleToken key mutationId now
  | some d =>
    if d.mutationId = some mutationId then
      if d.mutationPrefix.isSome = true then .ok (st, none)
      else .ok (st, some ⟨key, mutationId, d.generation, none⟩)
    else if olderSameAction actionId claimEpoch d = true then
      st.installLifecycleToken key mutationId now
    else .ok (st, none)

def tryAdmitLifecycleMutation (key actionId : Text) (claimEpoch now : ℤ) :
    AppResult (OwnershipState × Option StandardMutationGuard) := do
  validLifecycleOwner actionId claimEpoch
  let st ← st.recoverExpiredMutations now
  if st.lifecycleBlocked key = true then .ok (st, none)
  else st.admitLifecycle key actionId claimEpoch now

/-- The destination carries a token of the action, not newer than the epoch. -/
def ownedByAction (actionId : Text) (claimEpoch : ℤ) (d : Destination) : Bool :=
  d.mutationPrefix.isNone && d.mutationId.any fun active =>
    (lifecycleMutationEpoch active actionId).any fun epoch => decide (0 < epoch ∧ epoch ≤ claimEpoch)

def clearLifecycleMutationIfOwned (key actionId : Text) (claimEpoch : ℤ) :
    AppResult (OwnershipState × Bool) := do
  validLifecycleOwner actionId claimEpoch
  match st.findDestination key with
  | none => .ok (st, false)
  | some destination =>
    if ownedByAction actionId claimEpoch destination = false then .ok (st, false)
    else do
      let current := fun d : Destination =>
        d.key == key && d.mutationId == destination.mutationId
      ensure (st.destinations.countP current = 1)
        (.database "stale lifecycle mutation cleanup compare-and-set")
      .ok ({ st with destinations := updateWhere current tokenCleared st.destinations }, true)

/-- `renew_lifecycle_mutation_in_transaction`. -/
def renewLifecycleMutation (key actionId : Text) (epoch now : ℤ) : AppResult OwnershipState :=
  let token := lifecycleMutationId actionId epoch
  match st.findDestination key with
  | none => .ok st
  | some destination =>
    if destination.mutationId = some token then
      st.extendLease ⟨key, token, destination.generation, destination.mutationPrefix⟩ now
    else .ok st

/-! ## ZIP guards -/

/-- `verify_zip_output_guards_in_transaction`. -/
def verifyZipOutputGuards (sourceKey : Text) (keys : List Text)
    (guards : List StandardMutationGuard) (now : ℤ) : AppResult Unit := do
  ensure (keys.Nodup ∧ keys.length = guards.length ∧ ¬keys.contains sourceKey ∧
    (∀ guard ∈ guards, guard.key ≠ sourceKey ∧ guard.mutationPrefix = none ∧
      keys.contains guard.key) ∧
    (guards.map (·.key)).Nodup) .staleContentMutation
  guards.forM fun guard => st.verifyStandardMutationGuard guard guard.key [] now

/-- `renew_zip_output_guards_in_transaction`. -/
def renewZipOutputGuards (sourceKey : Text) (keys : List Text)
    (guards : List StandardMutationGuard) (now : ℤ) : AppResult OwnershipState := do
  st.verifyZipOutputGuards sourceKey keys guards now
  guards.foldlM (fun st guard => st.extendLease guard now) st

/-- `complete_zip_output_guards_in_transaction`. -/
def completeZipOutputGuards (sourceKey : Text) (keys : List Text)
    (guards : List StandardMutationGuard) (now : ℤ) : AppResult OwnershipState := do
  st.verifyZipOutputGuards sourceKey keys guards now
  guards.foldlM (fun st guard => st.completeStandardMutation guard now) st

/-- `rotate_guard` of `store/zip/execution.rs`: the token gets a new name at its generation. -/
def rotateGuard (old : StandardMutationGuard) (newToken : Text) (now : ℤ) :
    AppResult OwnershipState := do
  let row := fun d : Destination => d.key == old.key && d.mutationId == some old.mutationId &&
    d.generation == old.expectedGeneration && d.mutationPrefix.isNone
  ensure (st.destinations.countP row = 1) .staleContentMutation
  let lease := fun l => leaseIdentity old l && activeLease now l
  ensure (st.leases.countP lease = 1) .staleContentMutation
  let destinations := updateWhere row (fun d => { d with mutationId := some newToken })
    st.destinations
  let leases := updateWhere lease (fun l => { l with
    mutationId := newToken, leaseUntil := now + standardMutationLeaseSeconds }) st.leases
  .ok { st with destinations := destinations, leases := leases }

/-! ## Jobs -/

/-- One job of `supersede_bucket`. -/
def supersedeActive (now : ℤ) (st : OwnershipState) (jobId : Text) : AppResult OwnershipState :=
  st.supersedeJob jobId none now

def supersedeBucket (now : ℤ) : AppResult OwnershipState :=
  batchLoop
    (fun st : OwnershipState => page id (fun jobId => st.isActiveJob jobId) ownershipBatchSize
      (st.jobs.map ImportJob.id))
    id (supersedeActive now) (st.jobs.length + 1) none st

/-- The end of a claimed job: its row, then its ownership. -/
def finishClaimed (state : JobState) (jobId workerId : Text) (claimEpoch now : ℤ) :
    AppResult OwnershipState := do
  let current := activeClaim jobId workerId claimEpoch now
  ensure (st.jobs.countP current = 1) .staleImportOwnership
  let jobs := updateWhere current (terminated state now) st.jobs
  { st with jobs := jobs }.releaseJobOwnership jobId none

def failClaimed (claim : ImportClaim) (now : ℤ) : AppResult OwnershipState := do
  st.verifyActiveClaim claim now
  st.finishClaimed .failed claim.jobId claim.workerId claim.claimEpoch now

/-- `complete_publication_in_transaction`. -/
def completePublication (guard : ImportPublicationGuard) (logicalSize now : ℤ) :
    AppResult OwnershipState := do
  ensure (0 ≤ logicalSize) .staleImportOwnership
  st.finishClaimed .completed guard.jobId guard.workerId guard.claimEpoch now

/-- `due_claim_condition`. -/
def dueClaim (now : ℤ) (job : ImportJob) : Bool :=
  job.state == .queued && decide (job.nextAttemptAt ≤ now) && job.lockedBy.isNone &&
      job.lockedUntil.isNone ||
    job.state == .running && job.lockedUntil.any fun until' => decide (until' ≤ now)

def claimCandidate (jobId workerId : Text) (leaseUntil now : ℤ) : OwnershipState × Bool :=
  let due := fun job : ImportJob => job.id == jobId && dueClaim now job &&
    decide (job.attempts < 2 ^ 31 - 1) && decide (job.claimEpoch < 2 ^ 63 - 1)
  let jobs := updateWhere due (fun job => { job with
    state := .running, attempts := job.attempts + 1, claimEpoch := job.claimEpoch + 1,
    lockedBy := some workerId, lockedUntil := some leaseUntil }) st.jobs
  ({ st with jobs := jobs }, st.jobs.countP due == 1)

def renewClaim (claim : ImportClaim) (leaseUntil now : ℤ) : OwnershipState × Bool :=
  if leaseUntil ≤ now then (st, false)
  else
    let current := activeClaim claim.jobId claim.workerId claim.claimEpoch now
    let jobs := updateWhere current (fun job => { job with lockedUntil := some leaseUntil }) st.jobs
    ({ st with jobs := jobs }, st.jobs.countP current == 1)

def retry (claim : ImportClaim) (attempt nextAttemptAt now : ℤ) : AppResult OwnershipState := do
  let current := fun job : ImportJob =>
    activeClaim claim.jobId claim.workerId claim.claimEpoch now job && job.attempts == attempt
  ensure (st.jobs.countP current = 1) .staleImportOwnership
  let jobs := updateWhere current (fun job => { job with
    state := .queued, nextAttemptAt := nextAttemptAt, lockedBy := none, lockedUntil := none })
    st.jobs
  .ok { st with jobs := jobs }

/-- `delete_terminal_before`, with the actions of the foreign keys on the deleted jobs. -/
def deleteTerminalBefore (cutoff : ℤ) : OwnershipState :=
  let expired := fun job : ImportJob =>
    !job.state.isActive && job.completedAt.any fun at' => decide (at' < cutoff)
  let gone := fun jobId : Text => st.jobs.any fun job => expired job && job.id == jobId
  { st with
    jobs := deleteWhere expired st.jobs
    destinations := updateWhere (fun d => d.ownerJobId.any gone)
      (fun d => { d with ownerJobId := none }) st.destinations
    prefixClaims := deleteWhere (fun c => gone c.jobId) st.prefixClaims
    targets := deleteWhere (fun t => gone t.jobId) st.targets }

/-! ## Publication guards -/

/-- One entry of `target_map`. -/
def insertExpected (expected : List (Text × ℤ)) (target : ExpectedImportTarget) :
    AppResult (List (Text × ℤ)) := do
  ensure (1 ≤ target.generation) .staleImportOwnership
  ensure ((expected.lookup target.key).all (fun generation => generation == target.generation) =
    true) .staleImportOwnership
  .ok (insertWith (fun _ generation => generation) target.key target.generation expected)

def targetMap (targets : List ExpectedImportTarget) : AppResult (List (Text × ℤ)) :=
  targets.foldlM insertExpected []

def durableTargets (jobId : Text) : List (Text × ℤ) :=
  (st.targets.filter fun t => t.jobId == jobId).foldl
    (fun durable t => insertWith (fun _ generation => generation) t.key t.expectedGeneration durable)
    []

/-- `verify_publication_guard`, for the keys of the publication. -/
def verifyPublicationGuard (guard : ImportPublicationGuard) (publicationKeys : List Text)
    (now : ℤ) : AppResult Unit := do
  let expected ← targetMap guard.targets
  ensure (expected.map Prod.fst = keySet publicationKeys) .staleImportOwnership
  ensure (∀ entry ∈ expected, st.ownsGeneration guard.jobId entry.1 entry.2 = true)
    .staleImportOwnership
  ensure (st.jobs.any (activeClaim guard.jobId guard.workerId guard.claimEpoch now) = true)
    .staleImportOwnership
  ensure (st.durableTargets guard.jobId = expected) .staleImportOwnership

end OwnershipState

/-! ## Runs -/

/-- The ownership transactions of a bucket. -/
inductive Op where
  | submit (request : NewImportJob)
  | claimExtractedTarget (claim : ImportClaim) (key : Text)
  | releaseExtractedTarget (claim : ImportClaim) (key : Text) (generation : ℤ)
  | resetExtractedTargetBatch (claim : ImportClaim)
  | admitContentMutations (keys : List Text) (mutationIds : List (Text × Text))
      (excluding : Option Text)
  | admitPrefixMutation (pfx : Text)
  | admitContentAndPrefixMutation (key pfx mutationId : Text)
  | admitZipOutputsWithoutSource (sourceKey : Text) (keys : List Text)
      (mutationIds : List (Text × Text))
  | admitZipV2Source (sourceKey : Text) (outputKeys : List Text) (mutationId : Text)
  | tryAdmitLifecycleMutation (key actionId : Text) (claimEpoch : ℤ)
  | clearLifecycleMutationIfOwned (key actionId : Text) (claimEpoch : ℤ)
  | renewLifecycleMutation (key actionId : Text) (epoch : ℤ)
  | renewStandardMutation (guard : StandardMutationGuard)
  | completeStandardMutation (guard : StandardMutationGuard)
  | releaseStandardMutation (guard : StandardMutationGuard)
  | renewZipOutputGuards (sourceKey : Text) (keys : List Text)
      (guards : List StandardMutationGuard)
  | completeZipOutputGuards (sourceKey : Text) (keys : List Text)
      (guards : List StandardMutationGuard)
  | rotateGuard (old : StandardMutationGuard) (newToken : Text)
  | supersedeJob (jobId : Text)
  | supersedeBucket
  | failClaimed (claim : ImportClaim)
  | completePublication (guard : ImportPublicationGuard) (logicalSize : ℤ)
  | claimCandidate (jobId workerId : Text) (leaseUntil : ℤ)
  | renewClaim (claim : ImportClaim) (leaseUntil : ℤ)
  | retry (claim : ImportClaim) (attempt nextAttemptAt : ℤ)
  | deleteTerminalBefore (cutoff : ℤ)
  deriving DecidableEq

inductive Outcome where
  | done
  | flag (value : Bool)
  | submitted (outcome : SubmitImportOutcome)
  | generation (generation : ℤ)
  | guards (guards : List StandardMutationGuard)
  | lifecycle (guard : Option StandardMutationGuard)
  deriving DecidableEq

/-- The guards that a transaction returns. -/
def Outcome.issued : Outcome → List StandardMutationGuard
  | guards issued => issued
  | lifecycle guard => guard.toList
  | done | flag _ | submitted _ | generation _ => []

/-- The result of a transaction with an outcome. -/
def returning {α : Type} (outcome : α → Outcome) (result : AppResult (OwnershipState × α)) :
    AppResult (OwnershipState × Outcome) := do
  let (st, value) ← result
  .ok (st, outcome value)

/-- The result of a transaction without an outcome. -/
def returningDone (result : AppResult OwnershipState) : AppResult (OwnershipState × Outcome) := do
  let st ← result
  .ok (st, .done)

namespace OwnershipState

/-- One transaction at a time of the database clock. -/
def execute (st : OwnershipState) (now : ℤ) : Op → AppResult (OwnershipState × Outcome)
  | .submit request => returning .submitted (st.submit request now)
  | .claimExtractedTarget claim key => returning .generation (st.claimExtractedTarget claim key now)
  | .releaseExtractedTarget claim key generation =>
    returningDone (st.releaseExtractedTarget claim key generation now)
  | .resetExtractedTargetBatch claim => returningDone (st.resetExtractedTargetBatch claim now)
  | .admitContentMutations keys mutationIds excluding =>
    returning .guards (st.admitContentMutations (keySet keys) mutationIds excluding now)
  | .admitPrefixMutation pfx => returningDone (st.admitPrefixMutation pfx now)
  | .admitContentAndPrefixMutation key pfx mutationId =>
    returning (fun guard => .guards [guard])
      (st.admitContentAndPrefixMutation key pfx mutationId now)
  | .admitZipOutputsWithoutSource sourceKey keys mutationIds =>
    returning .guards (st.admitZipOutputsWithoutSource sourceKey (keySet keys) mutationIds now)
  | .admitZipV2Source sourceKey outputKeys mutationId =>
    returning .guards (st.admitZipV2Source sourceKey (keySet outputKeys) mutationId now)
  | .tryAdmitLifecycleMutation key actionId claimEpoch =>
    returning .lifecycle (st.tryAdmitLifecycleMutation key actionId claimEpoch now)
  | .clearLifecycleMutationIfOwned key actionId claimEpoch =>
    returning .flag (st.clearLifecycleMutationIfOwned key actionId claimEpoch)
  | .renewLifecycleMutation key actionId epoch =>
    returningDone (st.renewLifecycleMutation key actionId epoch now)
  | .renewStandardMutation guard => returningDone (st.renewStandardMutation guard now)
  | .completeStandardMutation guard => returningDone (st.completeStandardMutation guard now)
  | .releaseStandardMutation guard => returning .flag (.ok (st.releaseStandardMutation guard now))
  | .renewZipOutputGuards sourceKey keys guards =>
    returningDone (st.renewZipOutputGuards sourceKey keys guards now)
  | .completeZipOutputGuards sourceKey keys guards =>
    returningDone (st.completeZipOutputGuards sourceKey keys guards now)
  | .rotateGuard old newToken => returningDone (st.rotateGuard old newToken now)
  | .supersedeJob jobId => returningDone (st.supersedeJob jobId none now)
  | .supersedeBucket => returningDone (st.supersedeBucket now)
  | .failClaimed claim => returningDone (st.failClaimed claim now)
  | .completePublication guard logicalSize =>
    returningDone (st.completePublication guard logicalSize now)
  | .claimCandidate jobId workerId leaseUntil =>
    returning .flag (.ok (st.claimCandidate jobId workerId leaseUntil now))
  | .renewClaim claim leaseUntil => returning .flag (.ok (st.renewClaim claim leaseUntil now))
  | .retry claim attempt nextAttemptAt => returningDone (st.retry claim attempt nextAttemptAt now)
  | .deleteTerminalBefore cutoff => returningDone (.ok (st.deleteTerminalBefore cutoff))

/-- The state that a transaction commits. -/
def transact (st : OwnershipState) (step : ℤ × Op) : AppResult OwnershipState := do
  let (st, _) ← st.execute step.1 step.2
  .ok st

def empty : OwnershipState := ⟨[], [], [], [], []⟩

end OwnershipState

/-- The job that an admission leaves alone. -/
def Op.excluding : Op → Option Text
  | admitContentMutations _ _ excluding => excluding
  | _ => none

end Ownership
end IpfS3
