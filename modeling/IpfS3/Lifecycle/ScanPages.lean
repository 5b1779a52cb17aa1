import IpfS3.Foundations.SourceChain
import IpfS3.Lifecycle.Candidates
import IpfS3.Lifecycle.MultipartAbort

/-!
# Pages of lifecycle candidates

`store/lifecycle_scan.rs`: a scan of a bucket reads its current versions, then its noncurrent ones,
then its multipart uploads, in pages.  A page takes from each source what still fits, and looks
ahead where a source ends as the page is full, so that it can say whether the cycle is complete.
Its cursor names the source and the columns of the last candidate.  `scanCandidatePage` is one page,
and `scanCycle` follows the cursors until a page completes the cycle.
-/

namespace IpfS3.Lifecycle

open Fallible Keyset SourceChain Store LifecycleStore

/-! ## Cursors -/

def maxLifecycleScanPageSize : ℕ := 1000

inductive LifecycleScanSource where
  | current
  | noncurrent
  | multipart
  deriving DecidableEq

structure LifecycleScanCursor where
  source : LifecycleScanSource
  bucket : Text
  key : Text
  sequence : Option ℤ
  versionRowId : Option Text
  multipartCreatedAt : Option ℤ
  multipartUploadId : Option Text
  deriving DecidableEq

structure LifecycleCandidatePage where
  candidates : List LifecycleCandidate
  nextCursor : Option LifecycleScanCursor
  cycleComplete : Bool
  deriving DecidableEq

def invalidCursor : AppError := .invalidArgument "invalid lifecycle scan cursor"

def LifecycleScanCursor.validShape (cursor : LifecycleScanCursor) : Bool :=
  match cursor.source with
  | .current | .noncurrent =>
    cursor.sequence.any (fun sequence => decide (0 < sequence)) &&
      cursor.versionRowId.any (fun versionRowId => !versionRowId.isEmpty) &&
      cursor.multipartCreatedAt.isNone && cursor.multipartUploadId.isNone
  | .multipart =>
    cursor.sequence.isNone && cursor.versionRowId.isNone && cursor.multipartCreatedAt.isSome &&
      cursor.multipartUploadId.any fun uploadId => !uploadId.isEmpty

def validateCursor (cursor : LifecycleScanCursor) (bucket : Text) : AppResult Unit := do
  ensure (bucket ≠ [] ∧ cursor.bucket ≠ [] ∧ cursor.bucket = bucket ∧ cursor.key ≠ [])
    invalidCursor
  ensure (cursor.validShape = true) invalidCursor

/-- The condition of a query on three columns, in the order of the columns. -/
def tupleAfter (key : Text) (number : ℤ) (id : Text) (rowKey : Text) (rowNumber : ℤ)
    (rowId : Text) : Bool :=
  decide (key < rowKey) || (rowKey == key && (decide (number < rowNumber) ||
    (rowNumber == number && decide (id < rowId))))

/-- `version_tuple_after`; a validated cursor has the columns. -/
def versionTupleAfter (cursor : LifecycleScanCursor) (row : VersionRow) : Bool :=
  match cursor.sequence, cursor.versionRowId with
  | some sequence, some versionRowId =>
    tupleAfter cursor.key sequence versionRowId row.key row.sequence row.id
  | _, _ => false

/-- `multipart_tuple_after`; a validated cursor has the columns. -/
def multipartTupleAfter (cursor : LifecycleScanCursor) (upload : MultipartUpload) : Bool :=
  match cursor.multipartCreatedAt, cursor.multipartUploadId with
  | some createdAt, some uploadId =>
    tupleAfter cursor.key createdAt uploadId upload.key upload.createdAt upload.uploadId
  | _, _ => false

def cursorFor (source : LifecycleScanSource) (candidate : LifecycleCandidate) :
    LifecycleScanCursor :=
  match candidate with
  | .version candidate =>
    ⟨source, candidate.target.bucket, candidate.target.key, some candidate.target.sequence,
      some candidate.target.versionRowId, none, none⟩
  | .multipartUpload target =>
    ⟨source, target.bucket, target.key, none, none, some target.initiatedAt, some target.uploadId⟩

/-! ## Queries -/

structure ScanStore extends LifecycleStore where
  uploads : List MultipartUpload

/-- The columns that order the versions of a source. -/
def versionTuple (row : VersionRow) : Text ×ₗ (ℤ ×ₗ Text) :=
  toLex (row.key, toLex (row.sequence, row.id))

def uploadTuple (upload : MultipartUpload) : Text ×ₗ (ℤ ×ₗ Text) :=
  toLex (upload.key, toLex (upload.createdAt, upload.uploadId))

def uploadCandidate (upload : MultipartUpload) : LifecycleCandidate :=
  .multipartUpload ⟨upload.bucket, upload.key, upload.uploadId, upload.createdAt⟩

namespace ScanStore

variable (db : ScanStore) (bucket : Text)

/-- `PageFacts::evaluate`, on the residencies that the page has loaded. -/
def evaluate (row : VersionRow) (joinedObject : Option Object) :
    AppResult (Option StorageClass × Bool) := do
  let kind ← versionKind row
  match kind, joinedObject with
  | .deleteMarker, _ => .ok (none, false)
  | .object, none => .error (.internal "lifecycle content version has no object")
  | .object, some object => do
    ensure (row.objectId = some object.id ∧ row.bucket = object.bucket ∧ row.key = object.key)
      (.internal "lifecycle content owner mismatch")
    match db.residencies.lookup row.id with
    | none => .ok (some .standard, false)
    | some resolved => do
      let (storageClass, verifiedHot) ← resolved
      .ok (some storageClass, verifiedHot)

/-- `candidate_from_row`, with the state of the bucket that the page has read. -/
def pageCandidateFromRow (bucketVersioningState : BucketVersioningState) (row : VersionRow) :
    AppResult LifecycleCandidate := do
  let kind ← versionKind row
  let publicVersionId ← publicVersionId row
  let (primaryStorageClass, hotResidencyVerified) ← db.evaluate row (db.joinedObject row)
  let size ← candidateSize row kind (db.joinedObject row)
  .ok (.version ⟨⟨row.bucket, row.key, row.id, publicVersionId, kind, row.objectId, row.sequence⟩,
    row.isLatest, bucketVersioningState, primaryStorageClass, hotResidencyVerified, size,
    row.lifecycleAgeStartedAt, row.becameNoncurrentAt⟩)

def bucketVersions (isLatest : Bool) : List VersionRow :=
  db.store.versions.filter fun row => row.bucket == bucket && row.isLatest == isLatest

def bucketUploads : List MultipartUpload := db.uploads.filter fun upload => upload.bucket == bucket

def versionsAfter (isLatest : Bool) (cursor : Option LifecycleScanCursor) : List VersionRow :=
  (db.bucketVersions bucket isLatest).filter fun row =>
    cursor.all fun cursor => versionTupleAfter cursor row

def uploadsAfter (cursor : Option LifecycleScanCursor) : List MultipartUpload :=
  (db.bucketUploads bucket).filter fun upload =>
    cursor.all fun cursor => multipartTupleAfter cursor upload

def pageBucketState (bucketState : Option BucketVersioningState) :
    AppResult BucketVersioningState :=
  match bucketState with
  | some state => .ok state
  | none => getVersioningState db.store.states bucket

/-- `source_page` on versions. -/
def versionPage (isLatest : Bool) (cursor : Option LifecycleScanCursor) (limit : ℕ)
    (bucketState : Option BucketVersioningState) :
    AppResult (List LifecycleCandidate × Option BucketVersioningState) :=
  match (sortBy versionTuple (db.versionsAfter bucket isLatest cursor)).take limit with
  | [] => .ok ([], bucketState)
  | row :: rows => do
    -- errors in the identity of the first row come before those of the bucket
    let _ ← versionKind row
    let _ ← publicVersionId row
    let state ← db.pageBucketState bucket bucketState
    let candidates ← (row :: rows).mapM (db.pageCandidateFromRow state)
    .ok (candidates, some state)

def sourcePage (source : LifecycleScanSource) (cursor : Option LifecycleScanCursor) (limit : ℕ)
    (bucketState : Option BucketVersioningState) :
    AppResult (List LifecycleCandidate × Option BucketVersioningState) :=
  match source with
  | .current => db.versionPage bucket true cursor limit bucketState
  | .noncurrent => db.versionPage bucket false cursor limit bucketState
  | .multipart =>
    .ok (((sortBy uploadTuple (db.uploadsAfter bucket cursor)).take limit).map uploadCandidate,
      bucketState)

def sourceHasAfter (source : LifecycleScanSource) (cursor : Option LifecycleScanCursor) : Bool :=
  match source with
  | .current => !(db.versionsAfter bucket true cursor).isEmpty
  | .noncurrent => !(db.versionsAfter bucket false cursor).isEmpty
  | .multipart => !(db.uploadsAfter bucket cursor).isEmpty

def sourceExhaustedAfter (source : LifecycleScanSource) (candidates : List LifecycleCandidate)
    (limit : ℕ) : Bool :=
  if candidates.length < limit then true
  else !db.sourceHasAfter bucket source (candidates.getLast?.map (cursorFor source))

end ScanStore

/-! ## Pages -/

/-- The variables of the loop of `scan_candidate_page`. -/
structure ScanLoop where
  candidates : List LifecycleCandidate
  lastSource : Option LifecycleScanSource
  cycleComplete : Bool
  bucketState : Option BucketVersioningState
  deriving DecidableEq

def sourcesFrom (cursor : Option LifecycleScanCursor) : List LifecycleScanSource :=
  match cursor.map LifecycleScanCursor.source with
  | none | some .current => [.current, .noncurrent, .multipart]
  | some .noncurrent => [.noncurrent, .multipart]
  | some .multipart => [.multipart]

namespace ScanStore

variable (db : ScanStore) (bucket : Text) (cursor : Option LifecycleScanCursor) (limit : ℕ)

/-- The loop of `scan_candidate_page` over the sources. -/
def scanSources : List LifecycleScanSource → ScanLoop → AppResult ScanLoop
  | [], st => .ok st
  | source :: later, st =>
    if limit - st.candidates.length = 0 then
      .ok { st with
        cycleComplete := !(source :: later).any fun source => db.sourceHasAfter bucket source none }
    else do
      let (page, bucketState) ← db.sourcePage bucket source
        (cursor.filter fun cursor => cursor.source == source) (limit - st.candidates.length)
        st.bucketState
      let exhausted := db.sourceExhaustedAfter bucket source page (limit - st.candidates.length)
      let st : ScanLoop := ⟨st.candidates ++ page,
        if page.isEmpty then st.lastSource else some source, st.cycleComplete, bucketState⟩
      if exhausted = false then .ok st
      else if source = .multipart then .ok { st with cycleComplete := true }
      else scanSources later st

def checkCursor : AppResult Unit :=
  match cursor with
  | none => .ok ()
  | some cursor => validateCursor cursor bucket

def scanCandidatePage : AppResult LifecycleCandidatePage := do
  ensure (limit ≠ 0 ∧ limit ≤ maxLifecycleScanPageSize)
    (.invalidArgument "lifecycle scan page limit must be between 1 and 1000")
  checkCursor bucket cursor
  let st ← db.scanSources bucket cursor limit (sourcesFrom cursor) ⟨[], none, false, none⟩
  let nextCursor := match st.lastSource, st.candidates.getLast? with
    | some source, some candidate => some (cursorFor source candidate)
    | _, _ => none
  .ok ⟨st.candidates, nextCursor, st.cycleComplete⟩

/-- The pages of a scan that passes each cursor back until a page completes the cycle. -/
def scanCycle (limits : ℕ → ℕ) : ℕ → ℕ → Option LifecycleScanCursor →
    AppResult (List LifecycleCandidatePage)
  | 0, _, _ => .ok []
  | fuel + 1, turn, cursor => do
    let page ← db.scanCandidatePage bucket cursor (limits turn)
    if page.cycleComplete = true then .ok [page]
    else do
      let pages ← scanCycle limits fuel (turn + 1) page.nextCursor
      .ok (page :: pages)

end ScanStore

end IpfS3.Lifecycle
