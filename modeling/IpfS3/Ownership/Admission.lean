import IpfS3.Ownership.Supersession

/-!
# Import claims and admissions

The functions of `store/import/ownership.rs` that give ownership: the submission of an import job
and the claims of its worker, the admissions of standard, ZIP and lifecycle mutations, and the
checks of a publication guard.  All of them run in a transaction that has locked the bucket.
-/

namespace IpfS3.Ownership

open Table Fallible Batches BoundedMerge Keyset

/-- `NewImportJob`, with the fields that ownership reads. -/
structure NewImportJob where
  id : Text
  key : Text
  requestFingerprint : Text
  clientToken : Option Text
  decompressPrefix : Option Text
  deriving DecidableEq

/-- `SubmitImportOutcome`, with the id of the job. -/
inductive SubmitImportOutcome where
  | created (jobId : Text)
  | replayed (jobId : Text)
  deriving DecidableEq

namespace OwnershipState

variable (st : OwnershipState)

/-! ## Import claims -/

def insertQueued (request : NewImportJob) (now : ℤ) : AppResult OwnershipState := do
  ensure (∀ job ∈ st.jobs, job.id ≠ request.id) uniqueViolation
  .ok { st with
    jobs := st.jobs ++ [{
      id := request.id, key := request.key, requestFingerprint := request.requestFingerprint,
      clientToken := request.clientToken, decompressPrefix := request.decompressPrefix,
      state := .queued, attempts := 0, nextAttemptAt := now, lockedBy := none, lockedUntil := none,
      claimEpoch := 0, completedAt := none }] }

/-- `claim_primary_destination`.  The destination is read before anything is superseded. -/
def claimPrimaryDestination (jobId key : Text) (now : ℤ) : AppResult (OwnershipState × ℤ) := do
  let previous := st.findDestination key
  let st ← st.supersedeConflicts [(key, previous.bind (·.ownerJobId))] none (some jobId) now
  let st ← st.invalidateStandardMutations [key] none
  st.upsertDestinationOwner previous key (some jobId)

def nextPrefixClaimOrder : ℤ :=
  match greatest PrefixClaim.claimOrder st.prefixClaims with
  | none => 0
  | some claim => min (claim.claimOrder + 1) (2 ^ 63 - 1)

def installPrefixClaim (jobId pfx : Text) (now : ℤ) : AppResult OwnershipState := do
  let claimOrder := st.nextPrefixClaimOrder
  let st ← st.supersedeConflicts [] (some pfx) (some jobId) now
  let st ← st.invalidateStandardMutations [] (some pfx)
  if st.prefixClaims.any (fun c => c.jobId == jobId && c.pfx == pfx) then .ok st
  else .ok { st with prefixClaims := st.prefixClaims ++ [⟨jobId, pfx, claimOrder⟩] }

def insertTarget (target : JobTarget) : AppResult OwnershipState := do
  ensure (∀ t ∈ st.targets, t.jobId = target.jobId → t.key ≠ target.key) uniqueViolation
  .ok { st with targets := st.targets ++ [target] }

def findIdempotent (key token : Text) : Option ImportJob :=
  st.jobs.find? fun job => job.key == key && job.clientToken == some token

/-- The creation of a job in `submit_decided_in_transaction`. -/
def createJob (request : NewImportJob) (now : ℤ) : AppResult OwnershipState := do
  let st ← st.insertQueued request now
  let (st, expectedGeneration) ← st.claimPrimaryDestination request.id request.key now
  let st ← st.insertTarget ⟨request.id, request.key, expectedGeneration, .archive⟩
  match request.decompressPrefix with
  | none => .ok st
  | some pfx => st.installPrefixClaim request.id pfx now

/-- `submit_decided_in_transaction`. -/
def submit (request : NewImportJob) (now : ℤ) :
    AppResult (OwnershipState × SubmitImportOutcome) :=
  match request.clientToken.bind (st.findIdempotent request.key) with
  | some existing =>
    if existing.requestFingerprint = request.requestFingerprint then
      .ok (st, .replayed existing.id)
    else .error .importIdempotencyConflict
  | none => do
    let st ← st.createJob request now
    .ok (st, .created request.id)

/-- `active_claim_filter`. -/
def activeClaim (jobId workerId : Text) (claimEpoch now : ℤ) (job : ImportJob) : Bool :=
  job.id == jobId && job.state == .running && job.lockedBy == some workerId &&
    job.claimEpoch == claimEpoch && job.lockedUntil.any fun until' => decide (now < until')

def verifyActiveClaim (claim : ImportClaim) (now : ℤ) : AppResult Unit :=
  ensure (st.jobs.any (activeClaim claim.jobId claim.workerId claim.claimEpoch now) = true)
    .staleImportOwnership

/-- `job_queries::prefix`. -/
def jobPrefix (jobId : Text) : AppResult (Option Text) :=
  match st.findJob jobId with
  | none => .error .staleImportOwnership
  | some job => .ok job.decompressPrefix

def verifyPrefixClaim (jobId pfx : Text) : AppResult Unit :=
  ensure (st.prefixClaims.any (fun c => c.jobId == jobId && c.pfx == pfx) = true)
    .staleImportOwnership

def verifyExtractionClaim (claim : ImportClaim) (key : Text) (now : ℤ) : AppResult Unit := do
  st.verifyActiveClaim claim now
  match ← st.jobPrefix claim.jobId with
  | none => .ok ()
  | some pfx => do
    ensure (key.startsWith pfx = true) .staleImportOwnership
    st.verifyPrefixClaim claim.jobId pfx

def verifyDecompressionAttempt (claim : ImportClaim) (now : ℤ) : AppResult Unit := do
  st.verifyActiveClaim claim now
  match ← st.jobPrefix claim.jobId with
  | none => .error .staleImportOwnership
  | some pfx => st.verifyPrefixClaim claim.jobId pfx

def findTarget (jobId key : Text) : Option JobTarget :=
  st.targets.find? fun t => t.jobId == jobId && t.key == key

def ownsGeneration (jobId key : Text) (generation : ℤ) : Bool :=
  (st.findDestination key).any fun d =>
    d.generation == generation && d.ownerJobId == some jobId

def claimExtractedTarget (claim : ImportClaim) (key : Text) (now : ℤ) :
    AppResult (OwnershipState × ℤ) := do
  st.verifyExtractionClaim claim key now
  match st.findTarget claim.jobId key with
  | some existing =>
    if existing.kind = .extracted ∧
        st.ownsGeneration claim.jobId key existing.expectedGeneration = true then
      .ok (st, existing.expectedGeneration)
    else .error .staleImportOwnership
  | none => do
    let (st, generation) ← st.claimPrimaryDestination claim.jobId key now
    let st ← st.insertTarget ⟨claim.jobId, key, generation, .extracted⟩
    .ok (st, generation)

def clearOwner (jobId key : Text) (generation : ℤ) : AppResult OwnershipState := do
  let owned := fun d : Destination =>
    d.key == key && d.generation == generation && d.ownerJobId == some jobId
  ensure (st.destinations.countP owned = 1) .staleImportOwnership
  .ok { st with
    destinations := updateWhere owned (fun d => { d with ownerJobId := none }) st.destinations }

def releaseExtractedTarget (claim : ImportClaim) (key : Text) (generation now : ℤ) :
    AppResult OwnershipState := do
  st.verifyExtractionClaim claim key now
  ensure ((st.findTarget claim.jobId key).any (fun t =>
    t.expectedGeneration == generation && t.kind == .extracted) = true) .staleImportOwnership
  ensure (st.ownsGeneration claim.jobId key generation = true) .staleImportOwnership
  let targets := deleteWhere (fun t => t.jobId == claim.jobId && t.key == key) st.targets
  { st with targets := targets }.clearOwner claim.jobId key generation

/-- One target of `reset_extracted_target_batch`. -/
def resetExtractedTarget (jobId : Text) (st : OwnershipState) (target : JobTarget) :
    AppResult OwnershipState := do
  ensure (st.ownsGeneration jobId target.key target.expectedGeneration = true)
    .staleImportOwnership
  let st ← st.clearOwner jobId target.key target.expectedGeneration
  let deleted := fun t : JobTarget => t.jobId == jobId && t.key == target.key &&
    t.kind == .extracted && t.expectedGeneration == target.expectedGeneration
  ensure (st.targets.countP deleted = 1) .staleImportOwnership
  .ok { st with targets := deleteWhere deleted st.targets }

def resetExtractedTargetBatch (claim : ImportClaim) (now : ℤ) : AppResult OwnershipState := do
  st.verifyDecompressionAttempt claim now
  let targets := page JobTarget.key
    (fun t => t.jobId == claim.jobId && t.kind == .extracted) ownershipBatchSize st.targets none
  let st ← targets.foldlM (resetExtractedTarget claim.jobId) st
  st.verifyDecompressionAttempt claim now
  .ok st

/-! ## Admissions -/

/-- A `BTreeSet` of keys. -/
def keySet (keys : List Text) : List Text := sortBy id keys.dedup

/-- The destination of a key with its owner. -/
def exactTarget (key : Text) : Text × Option Text :=
  (key, (st.findDestination key).bind (·.ownerJobId))

def admitKey (mutationIds : List (Text × Text)) (now : ℤ)
    (acc : OwnershipState × List StandardMutationGuard) (key : Text) :
    AppResult (OwnershipState × List StandardMutationGuard) :=
  match mutationIds.lookup key with
  | none => .error (.internal "content admission is missing a mutation token")
  | some mutationId => do
    let (st, guard) ←
      acc.1.upsertStandardMutation (acc.1.findDestination key) key mutationId none now
    .ok (st, acc.2 ++ [guard])

/-- `admit_content_mutations_in_transaction`. -/
def admitContentMutations (keys : List Text) (mutationIds : List (Text × Text))
    (excluding : Option Text) (now : ℤ) :
    AppResult (OwnershipState × List StandardMutationGuard) := do
  let exactTargets := keys.map st.exactTarget
  let st ← st.supersedeConflicts exactTargets none excluding now
  let st ← st.invalidateStandardMutations keys none
  keys.foldlM (admitKey mutationIds now) (st, [])

/-- `admit_prefix_mutation_in_transaction`. -/
def admitPrefixMutation (pfx : Text) (now : ℤ) : AppResult OwnershipState := do
  let st ← st.supersedeConflicts [] (some pfx) none now
  st.invalidateStandardMutations [] (some pfx)

/-- `admit_content_and_prefix_mutation_in_transaction`. -/
def admitContentAndPrefixMutation (key pfx mutationId : Text) (now : ℤ) :
    AppResult (OwnershipState × StandardMutationGuard) := do
  let exactTargets := [st.exactTarget key]
  let st ← st.supersedeConflicts exactTargets (some pfx) none now
  let st ← st.invalidateStandardMutations [key] (some pfx)
  st.upsertStandardMutation (st.findDestination key) key mutationId (some pfx) now

/-! ## ZIP admissions -/

/-- The owners of prefixes over a key, page by page, added to the affected jobs. -/
def affectedJobs (affected : List Text) (key : Text) : AppResult (List Text) :=
  let owner := ((st.findDestination key).bind (·.ownerJobId)).toList
  batchLoop (fun (_ : List Text) after => st.prefixOwnerJobsForKey key after none) id
    (fun affected jobId => .ok (affected ++ [jobId])) (st.jobs.length + 1) none (affected ++ owner)

/-- The loss of this job could revoke authority over the source. -/
def jobTouchesSource (sourceKey jobId : Text) : Bool :=
  (st.exactTarget sourceKey).2 == some jobId ||
    (st.findJob jobId).any (fun job => job.key == sourceKey && job.state.isActive) ||
    (st.findTarget jobId sourceKey).isSome ||
    st.prefixClaims.any fun c => c.jobId == jobId && sourceKey.startsWith c.pfx

/-- One active token of the check below. -/
def tokenSparesSource (sourceKey : Text) (keys : List Text) (st : OwnershipState)
    (d : Destination) : AppResult OwnershipState := do
  let covers := fun key => d.mutationPrefix.any fun pfx => Text.startsWith key pfx
  ensure (¬(keys.any (fun key => key == d.key || covers key) = true ∧
    (d.key = sourceKey ∨ covers sourceKey = true))) .staleContentMutation
  .ok st

def checkZipOutputsDoNotRevokeSource (sourceKey : Text) (keys : List Text) : AppResult Unit := do
  let affected ← keys.foldlM st.affectedJobs []
  ensure (∀ jobId ∈ keySet affected, st.jobTouchesSource sourceKey jobId = false)
    .staleContentMutation
  let active := fun d : Destination => d.mutationId.isSome
  let _ ← batchLoop
    (fun st : OwnershipState => page Destination.key active ownershipBatchSize st.destinations)
    Destination.key (tokenSparesSource sourceKey keys) (st.destinations.length + 1) none st
  .ok ()

/-- `admit_zip_outputs_without_source_in_transaction`. -/
def admitZipOutputsWithoutSource (sourceKey : Text) (keys : List Text)
    (mutationIds : List (Text × Text)) (now : ℤ) :
    AppResult (OwnershipState × List StandardMutationGuard) := do
  ensure (sourceKey ∉ keys ∧ keys.length = mutationIds.length ∧
    ∀ key ∈ keys, (mutationIds.lookup key).any (fun mutationId => !mutationId.isEmpty) = true)
    .staleContentMutation
  st.checkZipOutputsDoNotRevokeSource sourceKey keys
  st.admitContentMutations keys mutationIds none now

/-- `admit_zip_v2_source_in_transaction`. -/
def admitZipV2Source (sourceKey : Text) (outputKeys : List Text) (mutationId : Text) (now : ℤ) :
    AppResult (OwnershipState × List StandardMutationGuard) := do
  ensure (sourceKey ≠ [] ∧ mutationId ≠ [] ∧ sourceKey ∉ outputKeys) .staleContentMutation
  st.checkZipOutputsDoNotRevokeSource sourceKey outputKeys
  st.admitContentMutations [sourceKey] [(sourceKey, mutationId)] none now

end OwnershipState
end IpfS3.Ownership
