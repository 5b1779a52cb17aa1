import IpfS3.Ownership.Tables
import IpfS3.Foundations.Batches
import IpfS3.Foundations.BoundedMerge

/-!
# Supersession and invalidation

The loops of `store/import/ownership.rs` that take ownership away: `release_job_ownership`,
`supersede_conflicts_in_order`, `invalidate_standard_mutations_in_order` and
`recover_expired_mutations_in_transaction`.  They read at most `OWNERSHIP_BATCH_SIZE` rows at a time
and go on after the last key.  A loop is given more turns than it can take: one for every row that
it may read, and one to see that none is left.
-/

namespace IpfS3.Ownership

open Table Fallible Batches BoundedMerge

namespace OwnershipState

variable (st : OwnershipState)

/-! ## Releasing the ownership of a job -/

/-- One row of `release_job_ownership_with_invalidation`. -/
def releaseDestination (jobId : Text) (invalidationPrefix : Option Text) (st : OwnershipState)
    (destination : Destination) : AppResult OwnershipState :=
  let owned := fun d : Destination => d.key == destination.key && d.ownerJobId == some jobId
  if invalidationPrefix.any fun pfx => destination.key.startsWith pfx then do
    let next ← nextGeneration destination.generation
    let destinations := updateWhere owned
      (fun d => { d with ownerJobId := none, generation := next }) st.destinations
    .ok { st with destinations := destinations }
  else
    .ok { st with
      destinations := updateWhere owned (fun d => { d with ownerJobId := none }) st.destinations }

/-- `release_job_ownership_with_invalidation`. -/
def releaseJobOwnership (jobId : Text) (invalidationPrefix : Option Text) :
    AppResult OwnershipState := do
  let owned := fun d : Destination => d.ownerJobId == some jobId
  let st ← batchLoop
    (fun st : OwnershipState => page Destination.key owned ownershipBatchSize st.destinations)
    Destination.key (releaseDestination jobId invalidationPrefix)
    (st.destinations.length + 1) none st
  .ok { st with
    prefixClaims := deleteWhere (fun c => c.jobId == jobId) st.prefixClaims
    targets := deleteWhere (fun t => t.jobId == jobId) st.targets }

/-! ## Superseding jobs -/

def terminated (state : JobState) (now : ℤ) (job : ImportJob) : ImportJob :=
  { job with state := state, lockedBy := none, lockedUntil := none, completedAt := some now }

/-- `supersede_job_with_destination_invalidation`. -/
def supersedeJob (jobId : Text) (invalidationPrefix : Option Text) (now : ℤ) :
    AppResult OwnershipState :=
  match st.findJob jobId with
  | none => .error .noSuchImportJob
  | some job =>
    if job.state.isActive = false then .ok st
    else do
      let current := fun j : ImportJob => j.id == jobId && j.state.isActive
      ensure (st.jobs.countP current = 1) .staleImportOwnership
      let jobs := updateWhere current (terminated .superseded now) st.jobs
      { st with jobs := jobs }.releaseJobOwnership jobId invalidationPrefix

/-- `query_owner_job_ids`: distinct ids of active jobs after an id, in order. -/
def queryOwnerJobIds (candidates : List Text) (after excluding : Option Text) : List Text :=
  page id (fun jobId => st.isActiveJob jobId && excluding != some jobId) ownershipBatchSize
    candidates.dedup after

def prefixOwnerJobsForKey (key : Text) (after excluding : Option Text) : List Text :=
  st.queryOwnerJobIds
    ((st.prefixClaims.filter fun c => sqlStartsWith key c.pfx).map (·.jobId)) after excluding

def prefixOwnerJobsForPrefix (pfx : Text) (after excluding : Option Text) : List Text :=
  st.queryOwnerJobIds
    ((st.prefixClaims.filter fun c => sqlStartsWith pfx c.pfx || sqlStartsWith c.pfx pfx).map
      (·.jobId)) after excluding

def destinationOwnerJobsForPrefix (pfx : Text) (after excluding : Option Text) : List Text :=
  st.queryOwnerJobIds
    ((st.destinations.filter fun d => sqlStartsWith d.key pfx).filterMap (·.ownerJobId))
    after excluding

def insertConflictingJob (after excluding : Option Text) (invalidate : Bool)
    (conflicting : List (Text × Bool)) (jobId : Text) : List (Text × Bool) :=
  if excluding = some jobId ∨ after.any (fun a => decide (jobId ≤ a)) = true then conflicting
  else insertCapped ownershipBatchSize (· || ·) jobId invalidate conflicting

/-- The smallest conflicting jobs after an id: owners of prefixes over an exact key, the owner of an
exact key as it was read before, owners of overlapping prefixes and of keys under the prefix. -/
def conflictingJobs (exactTargets : List (Text × Option Text))
    (mutationPrefix excluding : Option Text) (st : OwnershipState) (after : Option Text) :
    List (Text × Bool) :=
  let insertAll := fun (invalidate : Bool) (conflicting : List (Text × Bool)) (ids : List Text) =>
    ids.foldl (insertConflictingJob after excluding invalidate) conflicting
  let exact := exactTargets.foldl
    (fun conflicting target => insertAll false
      (insertAll false conflicting (st.prefixOwnerJobsForKey target.1 after excluding))
      target.2.toList) []
  match mutationPrefix with
  | none => exact
  | some pfx => insertAll true
      (insertAll true exact (st.prefixOwnerJobsForPrefix pfx after excluding))
      (st.destinationOwnerJobsForPrefix pfx after excluding)

/-- One conflicting job of `supersede_conflicts_in_order`. -/
def supersedeConflict (mutationPrefix : Option Text) (now : ℤ) (st : OwnershipState)
    (conflict : Text × Bool) : AppResult OwnershipState :=
  if conflict.2 = true then
    match mutationPrefix with
    | none => .error (.internal "prefix ownership conflict is missing its literal prefix")
    | some pfx => st.supersedeJob conflict.1 (some pfx) now
  else st.supersedeJob conflict.1 none now

/-- `supersede_conflicts_in_order`. -/
def supersedeConflicts (exactTargets : List (Text × Option Text))
    (mutationPrefix excluding : Option Text) (now : ℤ) : AppResult OwnershipState :=
  batchLoop (conflictingJobs exactTargets mutationPrefix excluding) Prod.fst
    (supersedeConflict mutationPrefix now) (st.jobs.length + exactTargets.length + 1) none st

/-! ## Invalidating tokens -/

/-- The overlap of an active token with exact keys or with a prefix. -/
def tokenOverlaps (exactKeys : List Text) (mutationPrefix : Option Text) (d : Destination) : Bool :=
  exactKeys.any (fun key => d.key == key || d.mutationPrefix.any fun pfx => key.startsWith pfx) ||
    mutationPrefix.any fun pfx => d.key.startsWith pfx ||
      d.mutationPrefix.any fun activePrefix => prefixesOverlap activePrefix pfx

/-- One active token of `invalidate_standard_mutations_in_order`. -/
def invalidateToken (exactKeys : List Text) (mutationPrefix : Option Text) (st : OwnershipState)
    (destination : Destination) : AppResult OwnershipState :=
  if tokenOverlaps exactKeys mutationPrefix destination = false then .ok st
  else
    match destination.mutationId with
    | none => .error (.internal "active standard mutation has no token")
    | some mutationId => do
      let current := fun d : Destination =>
        d.key == destination.key && d.mutationId == some mutationId
      ensure (st.destinations.countP current = 1)
        (.database "stale standard mutation invalidation compare-and-set")
      .ok { st with destinations := updateWhere current tokenCleared st.destinations }

/-- `invalidate_standard_mutations_in_order`. -/
def invalidateStandardMutations (exactKeys : List Text) (mutationPrefix : Option Text) :
    AppResult OwnershipState :=
  let active := fun d : Destination => d.mutationId.isSome
  batchLoop
    (fun st : OwnershipState => page Destination.key active ownershipBatchSize st.destinations)
    Destination.key (invalidateToken exactKeys mutationPrefix)
    (st.destinations.length + 1) none st

/-- One token of the scan below; a covering prefix ends the scan. -/
def prefixMisses (key : Text) (st : OwnershipState) (d : Destination) : Except Unit OwnershipState :=
  if d.mutationPrefix.any (fun pfx => key.startsWith pfx) = true then .error () else .ok st

def hasOverlappingStandardPrefixMutation (key : Text) : Bool :=
  let active := fun d : Destination => d.mutationId.isSome && d.mutationPrefix.isSome
  match batchLoop
    (fun st : OwnershipState => page Destination.key active ownershipBatchSize st.destinations)
    Destination.key (prefixMisses key) (st.destinations.length + 1) none st with
  | .ok _ => false
  | .error () => true

/-! ## Recovering expired leases -/

/-- The batch of expired leases; it is read again from the start in every turn. -/
def expiredLeases (now : ℤ) (st : OwnershipState) (_ : Option Text) : List MutationLease :=
  page MutationLease.key (fun l => !activeLease now l) ownershipBatchSize st.leases none

def leaseGuard (lease : MutationLease) : StandardMutationGuard :=
  ⟨lease.key, lease.mutationId, lease.generation, none⟩

/-- `recover_expired_mutations_in_transaction`. -/
def recoverExpiredMutations (now : ℤ) : AppResult OwnershipState :=
  batchLoop (expiredLeases now) MutationLease.key
    (fun st lease => .ok (st.releaseStandardMutation (leaseGuard lease) now).1)
    (st.leases.length + 1) none st

end OwnershipState
end IpfS3.Ownership
