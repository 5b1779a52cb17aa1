import IpfS3.AppError
import IpfS3.Foundations.Keyset
import IpfS3.Foundations.Table
import IpfS3.Foundations.Fallible

/-!
# The ownership tables of a bucket

The rows of `import_destinations`, `import_jobs`, `import_prefix_claims`, `import_job_targets` and
`standard_mutation_leases` that belong to one bucket, and the single statements of
`store/import/ownership.rs` on them.  Every ownership transaction first locks its bucket and filters
by it, so the column `bucket` is left out and a transaction is a function on one bucket's rows.

A destination row is a fence: its generation grows, and it names the import job that owns the key,
or the token of a standard mutation admitted on the key and perhaps on a literal prefix.  The tests of
prefixes in Rust compare bytes; those in SQL are `sqlStartsWith`.

`now` is the clock of the database, read once in a transaction.
-/

namespace IpfS3.Ownership

open Table Fallible Keyset

/-- `state` of `import_jobs`. -/
inductive JobState where
  | queued
  | running
  | completed
  | failed
  | superseded
  deriving DecidableEq

def JobState.isActive : JobState → Bool
  | queued | running => true
  | completed | failed | superseded => false

/-- A row of `import_jobs`, with the columns that ownership reads. -/
structure ImportJob where
  id : Text
  key : Text
  requestFingerprint : Text
  clientToken : Option Text
  decompressPrefix : Option Text
  state : JobState
  attempts : ℤ
  nextAttemptAt : ℤ
  lockedBy : Option Text
  lockedUntil : Option ℤ
  claimEpoch : ℤ
  completedAt : Option ℤ
  deriving DecidableEq

/-- A row of `import_destinations`. -/
structure Destination where
  key : Text
  generation : ℤ
  ownerJobId : Option Text
  mutationId : Option Text
  mutationPrefix : Option Text
  deriving DecidableEq

/-- A row of `import_prefix_claims`. -/
structure PrefixClaim where
  jobId : Text
  pfx : Text
  claimOrder : ℤ
  deriving DecidableEq

/-- `kind` of `import_job_targets`. -/
inductive TargetKind where
  | archive
  | extracted
  deriving DecidableEq

/-- A row of `import_job_targets`. -/
structure JobTarget where
  jobId : Text
  key : Text
  expectedGeneration : ℤ
  kind : TargetKind
  deriving DecidableEq

/-- A row of `standard_mutation_leases`. -/
structure MutationLease where
  key : Text
  mutationId : Text
  generation : ℤ
  leaseUntil : ℤ
  deriving DecidableEq

structure OwnershipState where
  destinations : List Destination
  jobs : List ImportJob
  prefixClaims : List PrefixClaim
  targets : List JobTarget
  leases : List MutationLease
  deriving DecidableEq

structure StandardMutationGuard where
  key : Text
  mutationId : Text
  expectedGeneration : ℤ
  mutationPrefix : Option Text
  deriving DecidableEq

structure ImportClaim where
  jobId : Text
  workerId : Text
  claimEpoch : ℤ
  deriving DecidableEq

structure ExpectedImportTarget where
  key : Text
  generation : ℤ
  deriving DecidableEq

structure ImportPublicationGuard where
  jobId : Text
  workerId : Text
  claimEpoch : ℤ
  targets : List ExpectedImportTarget
  deriving DecidableEq

def ownershipBatchSize : ℕ := 128

def standardMutationLeaseSeconds : ℤ := 120

def prefixesOverlap (left right : Text) : Bool := left.startsWith right || right.startsWith left

/-- The SQL condition `pfx = substr(text, 1, length(pfx))`.  `substr` and `length` of SQLite stop at the
first NUL; `substring` and `char_length` of PostgreSQL agree with them on its texts, which have none.
Counting bytes for characters makes no difference between texts in UTF-8. -/
def sqlStartsWith (text pfx : Text) : Bool := pfx == text.untilNul.take pfx.untilNul.length

theorem sqlStartsWith_iff {text pfx : Text} :
    sqlStartsWith text pfx = true ↔ 0 ∉ pfx ∧ pfx <+: text := by
  rw [sqlStartsWith, beq_iff_eq]
  constructor
  · intro h
    have hpfx : pfx <+: text.untilNul := h ▸ List.take_prefix _ _
    have hnul : 0 ∉ pfx := fun h0 => Text.not_mem_untilNul text (hpfx.subset h0)
    exact ⟨hnul, (Text.isPrefix_untilNul_iff hnul).mp hpfx⟩
  · rintro ⟨hnul, hpfx⟩
    rw [Text.untilNul_of_not_mem hnul]
    exact List.prefix_iff_eq_take.mp ((Text.isPrefix_untilNul_iff hnul).mpr hpfx)

namespace OwnershipState

variable (st : OwnershipState)

/-- `find_destination_for_update`. -/
def findDestination (key : Text) : Option Destination :=
  st.destinations.find? fun d => d.key == key

/-- `find_job_for_update`. -/
def findJob (jobId : Text) : Option ImportJob := st.jobs.find? fun j => j.id == jobId

/-- The job exists and is queued or running. -/
def isActiveJob (jobId : Text) : Bool := st.jobs.any fun j => j.id == jobId && j.state.isActive

/-! ## Destinations -/

/-- The next generation, with the overflow check of an `i64`. -/
def nextGeneration (generation : ℤ) : AppResult ℤ :=
  if generation + 1 < 2 ^ 63 then .ok (generation + 1)
  else .error (.internal "import destination generation exhausted")

def insertDestination (row : Destination) : AppResult OwnershipState := do
  ensure (∀ d ∈ st.destinations, d.key ≠ row.key) uniqueViolation
  .ok { st with destinations := st.destinations ++ [row] }

/-- `upsert_destination_owner`, for the row that was read before. -/
def upsertDestinationOwner (existing : Option Destination) (key : Text)
    (ownerJobId : Option Text) : AppResult (OwnershipState × ℤ) :=
  match existing with
  | some destination => do
    let next ← nextGeneration destination.generation
    let destinations := updateWhere (fun d => d.key == key)
      (fun d => { d with
        generation := next, ownerJobId := ownerJobId, mutationId := none, mutationPrefix := none })
      st.destinations
    .ok ({ st with destinations := destinations }, next)
  | none => do
    let st ← st.insertDestination ⟨key, 1, ownerJobId, none, none⟩
    .ok (st, 1)

def upsertLease (lease : MutationLease) : OwnershipState :=
  { st with leases := st.leases.filter (fun l => l.key != lease.key) ++ [lease] }

/-- The first statement of `upsert_standard_mutation`. -/
def installToken (existing : Option Destination) (key mutationId : Text)
    (mutationPrefix : Option Text) : AppResult (OwnershipState × ℤ) :=
  match existing with
  | some destination => do
    let next ← nextGeneration destination.generation
    let current := fun d : Destination => d.key == key && d.generation == destination.generation
    ensure (st.destinations.countP current = 1)
      (.database "stale standard mutation admission compare-and-set")
    let destinations := updateWhere current
      (fun d => { d with
        generation := next, ownerJobId := none, mutationId := some mutationId,
        mutationPrefix := mutationPrefix })
      st.destinations
    .ok ({ st with destinations := destinations }, next)
  | none => do
    let st ← st.insertDestination ⟨key, 1, none, some mutationId, mutationPrefix⟩
    .ok (st, 1)

def upsertStandardMutation (existing : Option Destination) (key mutationId : Text)
    (mutationPrefix : Option Text) (now : ℤ) : AppResult (OwnershipState × StandardMutationGuard) := do
  let (st, generation) ← st.installToken existing key mutationId mutationPrefix
  let st := st.upsertLease ⟨key, mutationId, generation, now + standardMutationLeaseSeconds⟩
  .ok (st, ⟨key, mutationId, generation, mutationPrefix⟩)

/-! ## Leases -/

/-- `mutation_lease_identity`. -/
def leaseIdentity (guard : StandardMutationGuard) (lease : MutationLease) : Bool :=
  lease.key == guard.key && lease.mutationId == guard.mutationId &&
    lease.generation == guard.expectedGeneration

def activeLease (now : ℤ) (lease : MutationLease) : Bool := decide (now < lease.leaseUntil)

def verifyMutationLease (guard : StandardMutationGuard) (now : ℤ) : AppResult Unit :=
  ensure (st.leases.any (fun l => leaseIdentity guard l && activeLease now l) = true)
    .staleContentMutation

/-- The check of a guard's prefix against the entries of a publication. -/
def entriesCovered (mutationPrefix : Option Text) (entryKeys : List Text) : Bool :=
  match mutationPrefix with
  | some pfx => entryKeys.all fun key => key.startsWith pfx
  | none => entryKeys.isEmpty

/-- `verify_standard_mutation_guard`, for the archive key of the publication. -/
def verifyStandardMutationGuard (guard : StandardMutationGuard) (archiveKey : Text)
    (entryKeys : List Text) (now : ℤ) : AppResult Unit := do
  ensure (guard.key = archiveKey ∧ 1 ≤ guard.expectedGeneration) .staleContentMutation
  ensure (entriesCovered guard.mutationPrefix entryKeys = true) .staleContentMutation
  match st.findDestination archiveKey with
  | none => .error .staleContentMutation
  | some destination => do
    ensure (destination.generation = guard.expectedGeneration ∧ destination.ownerJobId = none ∧
      destination.mutationId = some guard.mutationId ∧
      destination.mutationPrefix = guard.mutationPrefix) .staleContentMutation
    st.verifyMutationLease guard now

def extendLease (guard : StandardMutationGuard) (now : ℤ) : AppResult OwnershipState := do
  let current := fun l => leaseIdentity guard l && activeLease now l
  ensure (st.leases.countP current = 1) .staleContentMutation
  let leases := updateWhere current
    (fun l => { l with leaseUntil := now + standardMutationLeaseSeconds }) st.leases
  .ok { st with leases := leases }

/-- `renew_standard_mutation_in_transaction`. -/
def renewStandardMutation (guard : StandardMutationGuard) (now : ℤ) :
    AppResult OwnershipState := do
  st.verifyStandardMutationGuard guard guard.key [] now
  st.extendLease guard now

def activeDestinationLease (now : ℤ) (d : Destination) : Bool :=
  st.leases.any fun l => l.key == d.key && some l.mutationId == d.mutationId &&
    l.generation == d.generation && activeLease now l

def tokenCleared (d : Destination) : Destination :=
  { d with mutationId := none, mutationPrefix := none }

/-- `clear_standard_mutation_in_transaction`. -/
def clearStandardMutation (guard : StandardMutationGuard) (now : ℤ) (requireActive : Bool) :
    OwnershipState × Bool :=
  let held := fun d : Destination => d.key == guard.key &&
    d.generation == guard.expectedGeneration && d.ownerJobId.isNone &&
    d.mutationId == some guard.mutationId && (!requireActive || st.activeDestinationLease now d)
  ({ st with
      destinations := updateWhere held tokenCleared st.destinations
      leases := deleteWhere (leaseIdentity guard) st.leases },
    st.destinations.countP held == 1)

/-- `complete_standard_mutation_in_transaction`. -/
def completeStandardMutation (guard : StandardMutationGuard) (now : ℤ) :
    AppResult OwnershipState := do
  st.verifyMutationLease guard now
  let (st, cleared) := st.clearStandardMutation guard now true
  ensure (cleared = true) .staleContentMutation
  .ok st

/-- `release_standard_mutation_in_transaction`. -/
def releaseStandardMutation (guard : StandardMutationGuard) (now : ℤ) : OwnershipState × Bool :=
  st.clearStandardMutation guard now false

end OwnershipState
end IpfS3.Ownership
