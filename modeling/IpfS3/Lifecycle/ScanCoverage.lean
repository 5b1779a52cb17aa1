import IpfS3.Lifecycle.ScanPages

/-!
# What a scan covers

Over a bucket that does not change (`StaticBucket`), each source of the scan of
`store/lifecycle_scan.rs` is a list of candidates in the order of its three columns, and the bucket
is the chain of the three lists.  A page of `limit` candidates is the next `limit` of the chain
after the cursor, it completes the cycle exactly when nothing is left of the chain, and its own
cursor stands after its last candidate (`scanCandidatePage_eq`, `remaining_cursorFor`).  By induction
on what is left, a scan ends, and its pages are the chain (`scanCycle_covers`).
-/

namespace IpfS3.Lifecycle

open Fallible Keyset SourceChain Store Table LifecycleStore ScanStore List Option

/-! ## The order of candidates -/

/-- The columns that order the candidates of a source. -/
def candidateTuple : LifecycleCandidate → Text ×ₗ (ℤ ×ₗ Text)
  | .version candidate =>
    toLex (candidate.target.key, toLex (candidate.target.sequence, candidate.target.versionRowId))
  | .multipartUpload target => toLex (target.key, toLex (target.initiatedAt, target.uploadId))

/-- The columns that a cursor of its source has. -/
def LifecycleScanCursor.tuple (cursor : LifecycleScanCursor) : Option (Text ×ₗ (ℤ ×ₗ Text)) :=
  match cursor.source with
  | .current | .noncurrent => cursor.sequence.bind fun sequence =>
    cursor.versionRowId.map fun id => toLex (cursor.key, toLex (sequence, id))
  | .multipart => cursor.multipartCreatedAt.bind fun createdAt =>
    cursor.multipartUploadId.map fun id => toLex (cursor.key, toLex (createdAt, id))

def LifecycleScanSource.index : LifecycleScanSource → ℕ
  | .current => 0
  | .noncurrent => 1
  | .multipart => 2

theorem tupleAfter_eq (key : Text) (number : ℤ) (id rowKey : Text) (rowNumber : ℤ) (rowId : Text) :
    tupleAfter key number id rowKey rowNumber rowId =
      decide (toLex (key, toLex (number, id)) < toLex (rowKey, toLex (rowNumber, rowId))) := by
  rw [tupleAfter, Bool.eq_iff_iff]
  simp only [Bool.or_eq_true, Bool.and_eq_true, decide_eq_true_eq, beq_iff_eq,
    Prod.Lex.toLex_lt_toLex]
  rw [eq_comm (a := rowKey), eq_comm (a := rowNumber)]

/-- A cursor of a source, and the key that it stands at. -/
inductive Marks (source : LifecycleScanSource) :
    Option LifecycleScanCursor → Option (Text ×ₗ (ℤ ×ₗ Text)) → Prop
  | none : Marks source none none
  | some {cursor : LifecycleScanCursor} {k : Text ×ₗ (ℤ ×ₗ Text)} (hsource : cursor.source = source)
      (htuple : cursor.tuple = some k) : Marks source (some cursor) (some k)

section Queries

variable {db : ScanStore} {bucket : Text} {source : LifecycleScanSource}
  {cursor : Option LifecycleScanCursor} {k : Option (Text ×ₗ (ℤ ×ₗ Text))}

theorem versionsAfter_eq (h : Marks source cursor k) (hsource : source ≠ .multipart)
    (isLatest : Bool) : db.versionsAfter bucket isLatest cursor =
      after versionTuple k (db.bucketVersions bucket isLatest) := by
  cases h with
  | none => rfl
  | @some cursor k hcursor htuple =>
    refine filter_congr fun row _ => ?_
    have hcolumns : cursor.sequence.bind (fun sequence =>
        cursor.versionRowId.map fun id => toLex (cursor.key, toLex (sequence, id))) = some k := by
      rw [LifecycleScanCursor.tuple, hcursor] at htuple
      cases source with
      | current => exact htuple
      | noncurrent => exact htuple
      | multipart => exact absurd rfl hsource
    obtain ⟨sequence, hsequence, hcolumns⟩ := bind_eq_some_iff.mp hcolumns
    obtain ⟨versionRowId, hversionRowId, rfl⟩ := map_eq_some_iff.mp hcolumns
    rw [all_some, all_some, versionTupleAfter, hsequence, hversionRowId]
    exact tupleAfter_eq _ _ _ _ _ _

theorem uploadsAfter_eq (h : Marks .multipart cursor k) :
    db.uploadsAfter bucket cursor = after uploadTuple k (db.bucketUploads bucket) := by
  cases h with
  | none => rfl
  | @some cursor k hcursor htuple =>
    refine filter_congr fun upload _ => ?_
    rw [LifecycleScanCursor.tuple, hcursor] at htuple
    obtain ⟨createdAt, hcreatedAt, hcolumns⟩ := bind_eq_some_iff.mp htuple
    obtain ⟨uploadId, huploadId, rfl⟩ := map_eq_some_iff.mp hcolumns
    rw [all_some, all_some, multipartTupleAfter, hcreatedAt, huploadId]
    exact tupleAfter_eq _ _ _ _ _ _

end Queries

/-! ## Candidates of a page -/

/-- The candidate of a row of the bucket. -/
def IsCandidate (db : LifecycleStore) (bucket : Text) (row : VersionRow)
    (candidate : LifecycleCandidate) : Prop :=
  row.bucket = bucket ∧ ∃ version, db.candidateFromRow row = .ok version ∧
    candidate = .version version

variable {state : BucketVersioningState}

section Candidate

variable {db : ScanStore} {bucket : Text} {row : VersionRow} {candidate : LifecycleCandidate}

theorem exists_target_of_isCandidate (h : IsCandidate db.toLifecycleStore bucket row candidate) :
    ∃ version, candidate = .version version ∧ version.target.bucket = bucket ∧
      version.target.key = row.key ∧ version.target.sequence = row.sequence ∧
      version.target.versionRowId = row.id := by
  obtain ⟨rfl, version, hversion, rfl⟩ := h
  have hdescribes := describesRow_of_candidateFromRow hversion
  obtain ⟨hbucket, hkey, hsequence, -⟩ := targetMatchesRow_eq_true hdescribes.target
  exact ⟨version, rfl, hbucket.symm, hkey.symm, hsequence.symm, hdescribes.rowId⟩

theorem candidateTuple_of_isCandidate (h : IsCandidate db.toLifecycleStore bucket row candidate) :
    candidateTuple candidate = versionTuple row := by
  obtain ⟨version, rfl, -, hkey, hsequence, hid⟩ := exists_target_of_isCandidate h
  rw [candidateTuple, versionTuple, hkey, hsequence, hid]

theorem evaluate_of_facts {object : Option Object} {storageClass : Option StorageClass}
    {verifiedHot : Bool}
    (h : db.versionEvaluationFacts row object = .ok (state, storageClass, verifiedHot)) :
    getVersioningState db.store.states row.bucket = .ok state ∧
      db.evaluate row object = .ok (storageClass, verifiedHot) := by
  obtain ⟨found, hfound, h⟩ := of_bind h
  obtain ⟨kind, hkind, h⟩ := of_bind h
  rw [ScanStore.evaluate, hkind, ok_bind]
  rcases kind with _ | _
  · rcases object with _ | object
    · cases h
    · obtain ⟨howner, h⟩ := of_ensure h
      dsimp only
      rw [ensure_of howner, ok_bind]
      rcases eq_none_or_eq_some (db.residencies.lookup row.id) with hnone | ⟨resolved, hsome⟩
      · rw [hnone] at h ⊢
        cases h
        exact ⟨hfound, rfl⟩
      · rw [hsome] at h ⊢
        obtain ⟨⟨class', verified'⟩, hresolved, h⟩ := of_bind h
        cases h
        refine ⟨hfound, ?_⟩
        dsimp only
        rw [hresolved, ok_bind]
  · cases h
    exact ⟨hfound, rfl⟩

theorem pageCandidateFromRow_of_isCandidate
    (h : IsCandidate db.toLifecycleStore bucket row candidate)
    (hstate : getVersioningState db.store.states bucket = .ok state) :
    db.pageCandidateFromRow state row = .ok candidate := by
  obtain ⟨rfl, version, hversion, rfl⟩ := h
  obtain ⟨kind, hkind, hversion⟩ := of_bind hversion
  obtain ⟨versionId, hversionId, hversion⟩ := of_bind hversion
  obtain ⟨⟨found, storageClass, verifiedHot⟩, hfacts, hversion⟩ := of_bind hversion
  obtain ⟨size, hsize, hversion⟩ := of_bind hversion
  cases hversion
  obtain ⟨hfound, hevaluate⟩ := evaluate_of_facts hfacts
  cases hstate.symm.trans hfound
  rw [pageCandidateFromRow, hkind, ok_bind, hversionId, ok_bind, hevaluate, ok_bind]
  dsimp only
  rw [hsize, ok_bind]

theorem identity_of_isCandidate (h : IsCandidate db.toLifecycleStore bucket row candidate) :
    (∃ kind, versionKind row = .ok kind) ∧ (∃ versionId, publicVersionId row = .ok versionId) ∧
      ∃ state, getVersioningState db.store.states bucket = .ok state := by
  obtain ⟨rfl, version, hversion, -⟩ := h
  obtain ⟨kind, hkind, hversion⟩ := of_bind hversion
  obtain ⟨versionId, hversionId, hversion⟩ := of_bind hversion
  obtain ⟨⟨state, storageClass, verifiedHot⟩, hfacts, -⟩ := of_bind hversion
  exact ⟨⟨kind, hkind⟩, ⟨versionId, hversionId⟩, state, (evaluate_of_facts hfacts).1⟩

end Candidate

/-! ## Static buckets -/

/-- A bucket whose rows do not change during a scan.  The columns of its rows are distinct as tuples
and have the form that the writers give them: names are not empty, sequences count from one, and
every version row has a candidate. -/
structure StaticBucket where
  db : ScanStore
  bucket : Text
  bucket_ne_nil : bucket ≠ []
  version_distinct : (db.store.versions.filter fun row => row.bucket == bucket).Pairwise
    fun a b => versionTuple a ≠ versionTuple b
  upload_distinct : (db.bucketUploads bucket).Pairwise fun a b => uploadTuple a ≠ uploadTuple b
  version_columns : ∀ row ∈ db.store.versions, row.bucket = bucket →
    row.key ≠ [] ∧ 0 < row.sequence ∧ row.id ≠ []
  upload_columns : ∀ upload ∈ db.uploads, upload.bucket = bucket →
    upload.key ≠ [] ∧ upload.uploadId ≠ []
  version_candidate : ∀ row ∈ db.store.versions, row.bucket = bucket →
    ∃ candidate, db.candidateFromRow row = .ok candidate

namespace StaticBucket

variable (b : StaticBucket)

def versionCandidates (isLatest : Bool) : List LifecycleCandidate :=
  ((sortBy versionTuple (b.db.bucketVersions b.bucket isLatest)).filterMap fun row =>
    (b.db.candidateFromRow row).toOption).map .version

def sourceCandidates : LifecycleScanSource → List LifecycleCandidate
  | .current => b.versionCandidates true
  | .noncurrent => b.versionCandidates false
  | .multipart => (sortBy uploadTuple (b.db.bucketUploads b.bucket)).map uploadCandidate

variable {b}

theorem mem_bucketVersions {isLatest : Bool} {row : VersionRow} :
    row ∈ b.db.bucketVersions b.bucket isLatest ↔
      row ∈ b.db.store.versions ∧ row.bucket = b.bucket ∧ row.isLatest = isLatest := by
  simp [bucketVersions]

theorem bucketVersions_distinct (isLatest : Bool) :
    (b.db.bucketVersions b.bucket isLatest).Pairwise fun x y => versionTuple x ≠ versionTuple y := by
  have hfilter : b.db.bucketVersions b.bucket isLatest =
      (b.db.store.versions.filter fun row => row.bucket == b.bucket).filter
        fun row => row.isLatest == isLatest := by
    rw [bucketVersions, List.filter_filter]
    exact filter_congr fun row _ => Bool.and_comm _ _
  rw [hfilter]
  exact b.version_distinct.filter _

theorem forall₂_versionCandidates (isLatest : Bool) :
    List.Forall₂ (IsCandidate b.db.toLifecycleStore b.bucket)
      (sortBy versionTuple (b.db.bucketVersions b.bucket isLatest))
      (b.versionCandidates isLatest) := by
  have hrows : ∀ row ∈ sortBy versionTuple (b.db.bucketVersions b.bucket isLatest),
      row ∈ b.db.store.versions ∧ row.bucket = b.bucket := fun row hrow =>
    ⟨(mem_bucketVersions.mp ((mem_sortBy versionTuple).mp hrow)).1,
      (mem_bucketVersions.mp ((mem_sortBy versionTuple).mp hrow)).2.1⟩
  have hall := forall₂_filterMap_toOption fun row hrow =>
    b.version_candidate row (hrows row hrow).1 (hrows row hrow).2
  rw [versionCandidates, forall₂_map_right_iff]
  refine (forall₂_iff_zip.mpr ⟨hall.length_eq, fun {row version} hmem => ?_⟩)
  have hversion := (forall₂_iff_zip.mp hall).2 hmem
  exact ⟨(hrows row (of_mem_zip hmem).1).2, version, hversion, rfl⟩

theorem ascending_sourceCandidates (source : LifecycleScanSource) :
    Ascending candidateTuple (b.sourceCandidates source) := by
  have hversions : ∀ isLatest, Ascending candidateTuple (b.versionCandidates isLatest) := by
    intro isLatest
    refine pairwise_of_forall₂ (forall₂_versionCandidates isLatest)
      (ascending_sortBy versionTuple (bucketVersions_distinct isLatest)) ?_
    intro row row' candidate candidate' h h' hlt
    rw [candidateTuple_of_isCandidate h, candidateTuple_of_isCandidate h']
    exact hlt
  cases source with
  | current => exact hversions true
  | noncurrent => exact hversions false
  | multipart =>
    refine pairwise_map.mpr (List.Pairwise.imp ?_ (ascending_sortBy uploadTuple b.upload_distinct))
    intro x y hxy
    exact hxy

theorem forall₂_after_versionCandidates (b : StaticBucket) (isLatest : Bool)
    (k : Option (Text ×ₗ (ℤ ×ₗ Text))) :
    List.Forall₂ (IsCandidate b.db.toLifecycleStore b.bucket)
      (after versionTuple k (sortBy versionTuple (b.db.bucketVersions b.bucket isLatest)))
      (after candidateTuple k (b.versionCandidates isLatest)) :=
  forall₂_after versionTuple candidateTuple (forall₂_versionCandidates isLatest)
    (fun _ _ => candidateTuple_of_isCandidate) k

theorem after_uploadCandidates (k : Option (Text ×ₗ (ℤ ×ₗ Text))) (uploads : List MultipartUpload) :
    after candidateTuple k (uploads.map uploadCandidate) =
      (after uploadTuple k uploads).map uploadCandidate :=
  filter_map

/-! ## Sources -/

/-- A state of the bucket that a page has read. -/
def HasState (b : StaticBucket) (bucketState : Option BucketVersioningState) : Prop :=
  ∀ state, bucketState = some state → getVersioningState b.db.store.states b.bucket = .ok state

section Source

variable {source : LifecycleScanSource} {cursor : Option LifecycleScanCursor}
  {k : Option (Text ×ₗ (ℤ ×ₗ Text))} {bucketState : Option BucketVersioningState}

theorem pageBucketState_eq (hstate : b.HasState bucketState)
    (h : getVersioningState b.db.store.states b.bucket = .ok state) :
    b.db.pageBucketState b.bucket bucketState = .ok state := by
  cases bucketState with
  | none => exact h
  | some found => rw [pageBucketState, Except.ok.inj ((hstate found rfl).symm.trans h)]

section

variable (hcursor : Marks source cursor k)

include hcursor

theorem versionPage_eq (hsource : source ≠ .multipart) (isLatest : Bool) (limit : ℕ)
    (hstate : b.HasState bucketState) :
    ∃ bucketState', b.HasState bucketState' ∧
      b.db.versionPage b.bucket isLatest cursor limit bucketState =
        .ok ((after candidateTuple k (b.versionCandidates isLatest)).take limit, bucketState') := by
  have hrows := forall₂_take limit (forall₂_after_versionCandidates b isLatest k)
  rw [versionPage, versionsAfter_eq hcursor hsource, sortBy_after versionTuple
    (bucketVersions_distinct isLatest)]
  generalize (after versionTuple k (sortBy versionTuple (b.db.bucketVersions b.bucket isLatest))).take
    limit = rows at hrows ⊢
  generalize (after candidateTuple k (b.versionCandidates isLatest)).take limit = candidates
    at hrows ⊢
  cases hrows with
  | nil => exact ⟨bucketState, hstate, rfl⟩
  | @cons row candidate rows candidates hrow hrest =>
    obtain ⟨⟨kind, hkind⟩, ⟨versionId, hversionId⟩, state, hfound⟩ := identity_of_isCandidate hrow
    refine ⟨some state, fun found hsome => some.inj hsome ▸ hfound, ?_⟩
    have hcandidates : (row :: rows).mapM (b.db.pageCandidateFromRow state) =
        .ok (candidate :: candidates) :=
      mapM_eq_ok_iff.mpr ((List.Forall₂.cons hrow hrest).imp fun _ _ h =>
        pageCandidateFromRow_of_isCandidate h hfound)
    dsimp only
    rw [hkind, ok_bind, hversionId, ok_bind, pageBucketState_eq hstate hfound, ok_bind, hcandidates,
      ok_bind]

/-- **A page of a source** is the next part of its candidates. -/
theorem sourcePage_eq (limit : ℕ) (hstate : b.HasState bucketState) :
    ∃ bucketState', b.HasState bucketState' ∧
      b.db.sourcePage b.bucket source cursor limit bucketState =
        .ok ((after candidateTuple k (b.sourceCandidates source)).take limit, bucketState') := by
  cases source with
  | current => exact versionPage_eq hcursor (by decide) true limit hstate
  | noncurrent => exact versionPage_eq hcursor (by decide) false limit hstate
  | multipart =>
    refine ⟨bucketState, hstate, ?_⟩
    rw [sourcePage, sourceCandidates, uploadsAfter_eq hcursor, sortBy_after uploadTuple
      b.upload_distinct, after_uploadCandidates, map_take]

theorem versionsAfter_isEmpty (hsource : source ≠ .multipart) (isLatest : Bool) :
    (b.db.versionsAfter b.bucket isLatest cursor).isEmpty =
      (after candidateTuple k (b.versionCandidates isLatest)).isEmpty := by
  have hlength := (forall₂_after_versionCandidates b isLatest k).length_eq
  rw [← sortBy_after versionTuple (bucketVersions_distinct isLatest),
    (sortBy_perm versionTuple _).length_eq, ← versionsAfter_eq hcursor hsource] at hlength
  rw [Bool.eq_iff_iff, isEmpty_iff_length_eq_zero, isEmpty_iff_length_eq_zero, hlength]

theorem sourceHasAfter_eq :
    b.db.sourceHasAfter b.bucket source cursor =
      !(after candidateTuple k (b.sourceCandidates source)).isEmpty := by
  cases source with
  | current => rw [sourceHasAfter, sourceCandidates, versionsAfter_isEmpty hcursor (by decide) true]
  | noncurrent =>
    rw [sourceHasAfter, sourceCandidates, versionsAfter_isEmpty hcursor (by decide) false]
  | multipart =>
    have hlength := (sortBy_perm uploadTuple (after uploadTuple k
      (b.db.bucketUploads b.bucket))).length_eq
    rw [sortBy_after uploadTuple b.upload_distinct] at hlength
    rw [sourceHasAfter, sourceCandidates, uploadsAfter_eq hcursor, after_uploadCandidates,
      isEmpty_map, Bool.eq_iff_iff]
    simp only [Bool.not_eq_true', Bool.eq_false_iff, ne_eq, isEmpty_iff_length_eq_zero, hlength]

end

end Source

/-! ## Cursors of candidates -/

section Cursor

variable {source : LifecycleScanSource} {candidate : LifecycleCandidate}

/-- A cursor that stands at a candidate, and that the next page accepts. -/
structure StandsAt (b : StaticBucket) (source : LifecycleScanSource)
    (candidate : LifecycleCandidate) : Prop where
  source_eq : (cursorFor source candidate).source = source
  tuple_eq : (cursorFor source candidate).tuple = some (candidateTuple candidate)
  valid : validateCursor (cursorFor source candidate) b.bucket = .ok ()

theorem validateCursor_eq_ok_iff {cursor : LifecycleScanCursor} {bucket : Text} :
    validateCursor cursor bucket = .ok () ↔
      (bucket ≠ [] ∧ cursor.bucket ≠ [] ∧ cursor.bucket = bucket ∧ cursor.key ≠ []) ∧
        cursor.validShape = true := by
  rw [validateCursor, ensure_bind_eq_ok_iff, ensure_eq_ok_iff]

theorem standsAt_version {isLatest : Bool} (hsource : source ≠ .multipart)
    (h : candidate ∈ b.versionCandidates isLatest) : b.StandsAt source candidate := by
  obtain ⟨row, hrow, hcandidate⟩ := exists_of_forall₂ (forall₂_versionCandidates isLatest) h
  obtain ⟨hmem, hbucket, -⟩ := mem_bucketVersions.mp ((mem_sortBy versionTuple).mp hrow)
  obtain ⟨hkey, hsequence, hid⟩ := b.version_columns row hmem hbucket
  obtain ⟨version, rfl, htarget, hkey', hsequence', hid'⟩ := exists_target_of_isCandidate hcandidate
  rw [← hkey'] at hkey
  rw [← hsequence'] at hsequence
  rw [← hid'] at hid
  have hnonempty : version.target.bucket ≠ [] := fun h => b.bucket_ne_nil (htarget.symm.trans h)
  have hcursor : validateCursor (cursorFor source (.version version)) b.bucket = .ok () := by
    refine validateCursor_eq_ok_iff.mpr ⟨⟨b.bucket_ne_nil, hnonempty, htarget, hkey⟩, ?_⟩
    cases source with
    | multipart => exact absurd rfl hsource
    | current => simp [LifecycleScanCursor.validShape, cursorFor, hsequence, hid]
    | noncurrent => simp [LifecycleScanCursor.validShape, cursorFor, hsequence, hid]
  cases source with
  | multipart => exact absurd rfl hsource
  | current => exact ⟨rfl, rfl, hcursor⟩
  | noncurrent => exact ⟨rfl, rfl, hcursor⟩

theorem standsAt_of_mem (h : candidate ∈ b.sourceCandidates source) :
    b.StandsAt source candidate := by
  cases source with
  | current => exact standsAt_version (by decide) h
  | noncurrent => exact standsAt_version (by decide) h
  | multipart =>
    obtain ⟨upload, hupload, rfl⟩ := mem_map.mp h
    obtain ⟨hmem, hbucket⟩ := mem_filter.mp ((mem_sortBy uploadTuple).mp hupload)
    have hbucket : upload.bucket = b.bucket := beq_iff_eq.mp hbucket
    obtain ⟨hkey, hid⟩ := b.upload_columns upload hmem hbucket
    refine ⟨rfl, rfl, validateCursor_eq_ok_iff.mpr ⟨⟨b.bucket_ne_nil, ?_, hbucket, hkey⟩, ?_⟩⟩
    · exact fun h => b.bucket_ne_nil (hbucket.symm.trans h)
    · simp [LifecycleScanCursor.validShape, cursorFor, uploadCandidate, hid]

theorem exists_tuple_of_valid {cursor : LifecycleScanCursor} {bucket : Text}
    (h : validateCursor cursor bucket = .ok ()) : ∃ k, cursor.tuple = some k := by
  have hshape := (validateCursor_eq_ok_iff.mp h).2
  rw [LifecycleScanCursor.validShape] at hshape
  rw [← isSome_iff_exists, LifecycleScanCursor.tuple]
  cases hsource : cursor.source <;> rw [hsource] at hshape <;>
    simp only [Bool.and_eq_true, Option.any_eq_true] at hshape
  · obtain ⟨⟨⟨⟨sequence, hsequence, -⟩, id, hid, -⟩, -⟩, -⟩ := hshape
    simp [hsequence, hid]
  · obtain ⟨⟨⟨⟨sequence, hsequence, -⟩, id, hid, -⟩, -⟩, -⟩ := hshape
    simp [hsequence, hid]
  · obtain ⟨⟨-, hcreatedAt⟩, id, hid, -⟩ := hshape
    obtain ⟨createdAt, hcreatedAt⟩ := isSome_iff_exists.mp hcreatedAt
    simp [hcreatedAt, hid]

end Cursor

/-! ## The loop over the sources -/

section Loop

variable {source : LifecycleScanSource} {later : List LifecycleScanSource}
  {cursor sourceCursor : Option LifecycleScanCursor} {k : Option (Text ×ₗ (ℤ ×ₗ Text))}
  {limit n : ℕ} {st : ScanLoop}

theorem sourceExhaustedAfter_eq (hn : n ≠ 0) : b.db.sourceExhaustedAfter b.bucket source
      ((after candidateTuple k (b.sourceCandidates source)).take n) n =
    ((after candidateTuple k (b.sourceCandidates source)).drop n).isEmpty := by
  rw [sourceExhaustedAfter]
  split_ifs with hlt
  · rw [length_take] at hlt
    have hdrop : (after candidateTuple k (b.sourceCandidates source)).drop n = [] :=
      drop_eq_nil_of_le (by omega)
    rw [hdrop]
    rfl
  · rcases eq_nil_or_concat ((after candidateTuple k (b.sourceCandidates source)).take n) with
      hnil | ⟨A, candidate, hA⟩
    · rw [hnil, length_nil] at hlt
      omega
    · rw [concat_eq_append] at hA
      have htaken : candidate ∈ (after candidateTuple k (b.sourceCandidates source)).take n := by
        rw [hA]
        exact mem_append_right A mem_cons_self
      have hmem := mem_of_mem_after candidateTuple (mem_of_mem_take htaken)
      have hstands := standsAt_of_mem hmem
      rw [hA, getLast?_concat, map_some,
        sourceHasAfter_eq (Marks.some hstands.source_eq hstands.tuple_eq),
        after_of_take_eq_concat candidateTuple (ascending_sourceCandidates source) hA, Bool.not_not]

/-- The loop takes from the entries what still fits, and tells whether anything is left. -/
def Reads (limit : ℕ) (st : ScanLoop) (entries : List (LifecycleScanSource × LifecycleCandidate))
    (result : AppResult ScanLoop) : Prop :=
  ∃ bucketState, result = .ok ⟨
    st.candidates ++ (entries.take (limit - st.candidates.length)).map Prod.snd,
    ((entries.take (limit - st.candidates.length)).getLast?.map Prod.fst).or st.lastSource,
    (entries.drop (limit - st.candidates.length)).isEmpty, bucketState⟩

theorem reads_full (hfull : limit - st.candidates.length = 0) :
    Reads limit st (chain b.sourceCandidates (source :: later))
      (b.db.scanSources b.bucket cursor limit (source :: later) st) := by
  have hrest : (!(source :: later).any fun source => b.db.sourceHasAfter b.bucket source none) =
      (chain b.sourceCandidates (source :: later)).isEmpty := by
    rw [chain_isEmpty, not_any_eq_all_not]
    congr 1
    funext source
    rw [sourceHasAfter_eq Marks.none, after_none, Bool.not_not]
  refine ⟨st.bucketState, ?_⟩
  rw [scanSources, if_pos hfull, hfull, hrest]
  simp

theorem lastTag_eq (source : LifecycleScanSource) (E : List LifecycleCandidate)
    (last : Option LifecycleScanSource) :
    ((E.map (Prod.mk source)).getLast?.map Prod.fst).or last =
      if E.isEmpty then last else some source := by
  rcases eq_nil_or_concat E with rfl | ⟨A, candidate, rfl⟩
  · rfl
  · simp

/-- **One turn of the loop**, when the loop over the later sources is known. -/
theorem reads_source (hroom : limit - st.candidates.length ≠ 0)
    (hcomplete : st.cycleComplete = false) (hstate : b.HasState st.bucketState)
    (hcursor : Marks source (cursor.filter fun cursor => cursor.source == source) k)
    (hlater : source = .multipart ∧ later = [] ∨ source ≠ .multipart ∧
      ∀ st', st'.cycleComplete = false → b.HasState st'.bucketState →
        Reads limit st' (chain b.sourceCandidates later)
          (b.db.scanSources b.bucket cursor limit later st')) :
    Reads limit st ((after candidateTuple k (b.sourceCandidates source)).map (Prod.mk source) ++
        chain b.sourceCandidates later)
      (b.db.scanSources b.bucket cursor limit (source :: later) st) := by
  obtain ⟨bucketState, hbucketState, hpage⟩ :=
    sourcePage_eq hcursor (limit - st.candidates.length) hstate
  rw [scanSources, if_neg hroom, hpage, ok_bind]
  dsimp only
  rw [sourceExhaustedAfter_eq hroom]
  unfold Reads
  generalize after candidateTuple k (b.sourceCandidates source) = E
  generalize hn : limit - st.candidates.length = n at hroom ⊢
  cases hleft : (E.drop n).isEmpty with
  | false =>
    -- the page is full within this source
    have hlt : n < E.length := by
      by_contra hle
      rw [drop_eq_nil_of_le (not_lt.mp hle)] at hleft
      cases hleft
    have htake : ((E.map (Prod.mk source)) ++ chain b.sourceCandidates later).take n =
        (E.take n).map (Prod.mk source) := by
      rw [take_append_of_le_length (by rw [length_map]; exact hlt.le), map_take]
    have hdrop : (((E.map (Prod.mk source)) ++ chain b.sourceCandidates later).drop n).isEmpty =
        false := by
      rw [isEmpty_eq_false_iff, ne_eq, drop_eq_nil_iff, length_append,
        length_map]
      omega
    refine ⟨bucketState, ?_⟩
    rw [if_pos rfl, htake, hdrop, lastTag_eq, List.map_map, hcomplete]
    simp
  | true =>
    have hle : E.length ≤ n := drop_eq_nil_iff.mp (isEmpty_iff.mp hleft)
    have htake : ((E.map (Prod.mk source)) ++ chain b.sourceCandidates later).take n =
        E.map (Prod.mk source) ++ (chain b.sourceCandidates later).take (n - E.length) := by
      rw [take_append, length_map, take_of_length_le (by rwa [length_map])]
    have hdrop : ((E.map (Prod.mk source)) ++ chain b.sourceCandidates later).drop n =
        (chain b.sourceCandidates later).drop (n - E.length) := by
      rw [drop_append, length_map, drop_eq_nil_of_le (by rwa [length_map]),
        nil_append]
    rw [if_neg (by decide), htake, hdrop, take_of_length_le hle]
    rcases hlater with ⟨rfl, rfl⟩ | ⟨hsource, hlater⟩
    · refine ⟨bucketState, ?_⟩
      have hchain : chain b.sourceCandidates [] = [] := rfl
      rw [if_pos rfl, hchain, take_nil, append_nil, drop_nil, lastTag_eq,
        List.map_map]
      simp
    · rw [if_neg hsource]
      obtain ⟨bucketState', hreads⟩ := hlater ⟨st.candidates ++ E,
        if E.isEmpty then st.lastSource else some source, st.cycleComplete, bucketState⟩ hcomplete
        hbucketState
      have hroom' : limit - (st.candidates ++ E).length = n - E.length := by
        rw [length_append]
        omega
      refine ⟨bucketState', ?_⟩
      rw [hreads]
      dsimp only
      rw [hroom', ← lastTag_eq, getLast?_append, Option.map_or, Option.or_assoc,
        map_append, List.map_map, append_assoc]
      simp

def laterSources : LifecycleScanSource → List LifecycleScanSource
  | .current => [.noncurrent, .multipart]
  | .noncurrent => [.multipart]
  | .multipart => []

theorem ne_of_mem_laterSources {s : LifecycleScanSource} (h : s ∈ laterSources source) :
    source ≠ s := by
  rintro rfl
  cases source <;> simp [laterSources] at h

theorem reads_fresh (hcomplete : st.cycleComplete = false) (hstate : b.HasState st.bucketState)
    (hcursor : (cursor.filter fun cursor => cursor.source == source) = none)
    (hlater : source = .multipart ∧ later = [] ∨ source ≠ .multipart ∧
      ∀ st', st'.cycleComplete = false → b.HasState st'.bucketState →
        Reads limit st' (chain b.sourceCandidates later)
          (b.db.scanSources b.bucket cursor limit later st')) :
    Reads limit st (chain b.sourceCandidates (source :: later))
      (b.db.scanSources b.bucket cursor limit (source :: later) st) := by
  by_cases hroom : limit - st.candidates.length = 0
  · exact reads_full hroom
  · have hmarks : Marks source (cursor.filter fun cursor => cursor.source == source) none := by
      rw [hcursor]
      exact Marks.none
    have hreads := reads_source hroom hcomplete hstate hmarks hlater
    rwa [after_none, ← SourceChain.chain_cons] at hreads

theorem reads_laterSources (source : LifecycleScanSource)
    (hcursor : ∀ s ∈ laterSources source, (cursor.filter fun cursor => cursor.source == s) = none) :
    source = .multipart ∧ laterSources source = [] ∨ source ≠ .multipart ∧
      ∀ st, st.cycleComplete = false → b.HasState st.bucketState →
        Reads limit st (chain b.sourceCandidates (laterSources source))
          (b.db.scanSources b.bucket cursor limit (laterSources source) st) := by
  cases source with
  | multipart => exact Or.inl ⟨rfl, rfl⟩
  | noncurrent =>
    refine Or.inr ⟨by decide, fun st hcomplete hstate => ?_⟩
    exact reads_fresh hcomplete hstate (hcursor .multipart (by decide)) (Or.inl ⟨rfl, rfl⟩)
  | current =>
    refine Or.inr ⟨by decide, fun st hcomplete hstate => ?_⟩
    refine reads_fresh hcomplete hstate (hcursor .noncurrent (by decide))
      (Or.inr ⟨by decide, fun st' hcomplete' hstate' => ?_⟩)
    exact reads_fresh hcomplete' hstate' (hcursor .multipart (by decide)) (Or.inl ⟨rfl, rfl⟩)

end Loop

/-! ## Pages -/

variable (b) in
/-- The whole bucket, in the order of the scan. -/
def entries : List (LifecycleScanSource × LifecycleCandidate) :=
  chain b.sourceCandidates [.current, .noncurrent, .multipart]

def entryPosition : LifecycleScanSource × LifecycleCandidate → ℕ ×ₗ (Text ×ₗ (ℤ ×ₗ Text)) :=
  position LifecycleScanSource.index candidateTuple

def cursorPosition (cursor : LifecycleScanCursor) : Option (ℕ ×ₗ (Text ×ₗ (ℤ ×ₗ Text))) :=
  cursor.tuple.map fun k => toLex (cursor.source.index, k)

variable (b) in
/-- What is left of the bucket after a cursor. -/
def remaining (cursor : Option LifecycleScanCursor) :
    List (LifecycleScanSource × LifecycleCandidate) :=
  after entryPosition (cursor.bind cursorPosition) b.entries

section Page

variable {cursor : Option LifecycleScanCursor} {limit : ℕ}

theorem ascending_entries (b : StaticBucket) : Ascending entryPosition b.entries :=
  ascending_chain (by decide) fun source _ => ascending_sourceCandidates source

@[simp] theorem remaining_none : b.remaining none = b.entries := after_none _ _

theorem remaining_some {cursor : LifecycleScanCursor} {k : Text ×ₗ (ℤ ×ₗ Text)}
    (h : cursor.tuple = some k) : b.remaining (some cursor) =
      (after candidateTuple (some k) (b.sourceCandidates cursor.source)).map
          (Prod.mk cursor.source) ++ chain b.sourceCandidates (laterSources cursor.source) := by
  have hposition : (some cursor).bind cursorPosition = some (toLex (cursor.source.index, k)) := by
    rw [bind_some, cursorPosition, h, map_some]
  rw [remaining, hposition, entries, entryPosition]
  cases cursor.source with
  | current => exact after_chain_cons (by decide) k
  | noncurrent =>
    have hskip : LifecycleScanSource.index .current < LifecycleScanSource.index .noncurrent := by
      decide
    rw [after_chain_skip hskip]
    exact after_chain_cons (by decide) k
  | multipart =>
    have hskip : LifecycleScanSource.index .current < LifecycleScanSource.index .multipart := by
      decide
    have hskip' : LifecycleScanSource.index .noncurrent < LifecycleScanSource.index .multipart := by
      decide
    rw [after_chain_skip hskip, after_chain_skip hskip']
    exact after_chain_cons (by decide) k

/-- **The loop from a cursor** reads what is left after the cursor. -/
theorem reads_sourcesFrom (hcursor : ∀ c ∈ cursor, validateCursor c b.bucket = .ok ())
    (hlimit : limit ≠ 0) : Reads limit ⟨[], none, false, none⟩ (b.remaining cursor)
      (b.db.scanSources b.bucket cursor limit (sourcesFrom cursor) ⟨[], none, false, none⟩) := by
  have hstate : b.HasState none := fun state h => by cases h
  cases cursor with
  | none =>
    rw [remaining_none, entries, SourceChain.chain_cons, ← after_none candidateTuple (b.sourceCandidates _)]
    exact reads_source hlimit rfl hstate Marks.none (reads_laterSources .current fun _ _ => rfl)
  | some cursor =>
    obtain ⟨k, hk⟩ := exists_tuple_of_valid (hcursor cursor rfl)
    have hmarks : Marks cursor.source ((some cursor).filter fun c => c.source == cursor.source)
        (some k) := by
      rw [filter_some, beq_self_eq_true, if_pos rfl]
      exact Marks.some rfl hk
    have hfresh : ∀ s ∈ laterSources cursor.source,
        ((some cursor).filter fun c => c.source == s) = none := by
      intro s hs
      rw [filter_some, beq_false_of_ne (ne_of_mem_laterSources hs), if_neg (by decide)]
    have hsources : sourcesFrom (some cursor) = cursor.source :: laterSources cursor.source := by
      rw [sourcesFrom, map_some]
      cases cursor.source <;> rfl
    rw [remaining_some hk, hsources]
    exact reads_source hlimit rfl hstate hmarks (reads_laterSources cursor.source hfresh)

/-- **A page of the scan** is the next part of what is left, and it is the last one exactly when
nothing is left after it. -/
theorem scanCandidatePage_eq (hcursor : ∀ c ∈ cursor, validateCursor c b.bucket = .ok ())
    (hlimit : 1 ≤ limit ∧ limit ≤ maxLifecycleScanPageSize) :
    b.db.scanCandidatePage b.bucket cursor limit = .ok ⟨
      ((b.remaining cursor).take limit).map Prod.snd,
      ((b.remaining cursor).take limit).getLast?.map fun entry => cursorFor entry.1 entry.2,
      ((b.remaining cursor).drop limit).isEmpty⟩ := by
  have hne : limit ≠ 0 := Nat.one_le_iff_ne_zero.mp hlimit.1
  have hcheck : checkCursor b.bucket cursor = .ok () := by
    cases cursor with
    | none => rfl
    | some cursor => exact hcursor cursor rfl
  obtain ⟨bucketState, hreads⟩ := reads_sourcesFrom hcursor hne
  rw [scanCandidatePage, ensure_of ⟨hne, hlimit.2⟩, ok_bind, hcheck, ok_bind, hreads, ok_bind]
  simp only [length_nil, Nat.sub_zero, nil_append, or_none, getLast?_map]
  cases ((b.remaining cursor).take limit).getLast? <;> rfl

/-- **The cursor of a page** is valid, and what is left after it is what the page left. -/
theorem remaining_cursorFor {A : List (LifecycleScanSource × LifecycleCandidate)}
    {entry : LifecycleScanSource × LifecycleCandidate}
    (h : (b.remaining cursor).take limit = A ++ [entry]) :
    validateCursor (cursorFor entry.1 entry.2) b.bucket = .ok () ∧
      b.remaining (some (cursorFor entry.1 entry.2)) = (b.remaining cursor).drop limit := by
  have htaken : entry ∈ (b.remaining cursor).take limit := by
    rw [h]
    exact mem_append_right A mem_cons_self
  have hentry : entry ∈ b.entries := mem_of_mem_after entryPosition (mem_of_mem_take htaken)
  have hstands := standsAt_of_mem (mem_chain.mp hentry).2
  have hposition : (some (cursorFor entry.1 entry.2)).bind cursorPosition =
      some (entryPosition entry) := by
    rw [bind_some, cursorPosition, hstands.tuple_eq, hstands.source_eq]
    rfl
  refine ⟨hstands.valid, ?_⟩
  rw [remaining, hposition]
  exact after_of_take_eq_concat entryPosition (ascending_entries b) h

end Page

/-! ## Whole scans -/

/-- What the pages of a scan from a turn on are, when some entries are left. -/
structure Covers (b : StaticBucket) (limits : ℕ → ℕ) (turn : ℕ)
    (left : List (LifecycleScanSource × LifecycleCandidate)) (pages : List LifecycleCandidatePage) :
    Prop where
  candidates : pages.flatMap LifecycleCandidatePage.candidates = left.map Prod.snd
  length_le : ∀ i page, pages[i]? = some page → page.candidates.length ≤ limits (turn + i)
  last : ∃ init page, pages = init ++ [page] ∧ page.cycleComplete = true ∧
    ∀ earlier ∈ init, earlier.cycleComplete = false ∧ earlier.candidates ≠ [] ∧
      ∃ cursor, earlier.nextCursor = some cursor ∧ validateCursor cursor b.bucket = .ok ()

variable {limits : ℕ → ℕ}

theorem covers_singleton {turn : ℕ} {left : List (LifecycleScanSource × LifecycleCandidate)}
    {page : LifecycleCandidatePage}
    (hcandidates : page.candidates = (left.take (limits turn)).map Prod.snd)
    (hdrop : left.drop (limits turn) = []) (hcomplete : page.cycleComplete = true) :
    b.Covers limits turn left [page] where
  candidates := by
    have hall : left.take (limits turn) = left := by
      rw [← append_nil (left.take _), ← hdrop, take_append_drop]
    rw [flatMap_singleton, hcandidates, hall]
  length_le i shown hshown := by
    cases i with
    | zero =>
      obtain rfl : page = shown := by simpa using hshown
      rw [hcandidates, length_map, length_take]
      exact Nat.min_le_left _ _
    | succ i => simp at hshown
  last := ⟨[], page, rfl, hcomplete, fun earlier hearlier => absurd hearlier not_mem_nil⟩

theorem Covers.cons {turn : ℕ} {left : List (LifecycleScanSource × LifecycleCandidate)}
    {page : LifecycleCandidatePage} {pages : List LifecycleCandidatePage}
    {cursor : LifecycleScanCursor}
    (h : b.Covers limits (turn + 1) (left.drop (limits turn)) pages)
    (hcandidates : page.candidates = (left.take (limits turn)).map Prod.snd)
    (hnonempty : page.candidates ≠ []) (hcomplete : page.cycleComplete = false)
    (hcursor : page.nextCursor = some cursor) (hvalid : validateCursor cursor b.bucket = .ok ()) :
    b.Covers limits turn left (page :: pages) where
  candidates := by
    rw [flatMap_cons, h.candidates, hcandidates, ← map_append, take_append_drop]
  length_le i shown hshown := by
    cases i with
    | zero =>
      obtain rfl : page = shown := by simpa using hshown
      rw [hcandidates, length_map, length_take]
      exact Nat.min_le_left _ _
    | succ i =>
      have hle := h.length_le i shown (by simpa using hshown)
      rwa [Nat.add_right_comm, Nat.add_assoc] at hle
  last := by
    obtain ⟨init, final, rfl, hfinal, hinit⟩ := h.last
    refine ⟨page :: init, final, rfl, hfinal, forall_mem_cons.mpr ⟨?_, hinit⟩⟩
    exact ⟨hcomplete, hnonempty, cursor, hcursor, hvalid⟩

/-- **A scan from a cursor ends and covers what is left.**  The induction is on what is left: a page
that is not the last one takes at least one entry. -/
theorem exists_covers (hlimits : ∀ turn, 1 ≤ limits turn ∧ limits turn ≤ maxLifecycleScanPageSize)
    {turn : ℕ} {cursor : Option LifecycleScanCursor}
    (hcursor : ∀ c ∈ cursor, validateCursor c b.bucket = .ok ()) :
    ∃ pages, b.Covers limits turn (b.remaining cursor) pages ∧
      ∀ fuel, (b.remaining cursor).length < fuel →
        b.db.scanCycle b.bucket limits fuel turn cursor = .ok pages := by
  induction hlength : (b.remaining cursor).length using Nat.strongRecOn generalizing turn cursor with
  | ind length ih =>
    obtain ⟨page, hpage, hcandidates, hnextCursor, hcomplete⟩ :
        ∃ page, b.db.scanCandidatePage b.bucket cursor (limits turn) = .ok page ∧
          page.candidates = ((b.remaining cursor).take (limits turn)).map Prod.snd ∧
          page.nextCursor = ((b.remaining cursor).take (limits turn)).getLast?.map
            (fun entry => cursorFor entry.1 entry.2) ∧
          page.cycleComplete = ((b.remaining cursor).drop (limits turn)).isEmpty :=
      ⟨_, scanCandidatePage_eq hcursor (hlimits turn), rfl, rfl, rfl⟩
    have hlimit := (hlimits turn).1
    have hdropped : ((b.remaining cursor).drop (limits turn)).length = length - limits turn := by
      rw [length_drop, hlength]
    rcases Nat.lt_or_ge (limits turn) length with hlt | hge
    · -- entries are left after this page, so it is full and its cursor stands at its last entry
      rw [isEmpty_eq_false_iff.mpr (ne_nil_of_length_pos (by omega))] at hcomplete
      obtain hnil | ⟨A, entry, hA⟩ := eq_nil_or_concat ((b.remaining cursor).take (limits turn))
      · have htaken := congrArg List.length hnil
        rw [length_take, hlength, length_nil] at htaken
        omega
      rw [concat_eq_append] at hA
      rw [hA, getLast?_concat, map_some] at hnextCursor
      obtain ⟨hvalid, hnext⟩ := remaining_cursorFor hA
      obtain ⟨pages, hcovers, hrun⟩ := ih (length - limits turn) (by omega)
        (fun c hc => mem_some_iff.mp hc ▸ hvalid) (by rw [hnext, hdropped])
      rw [hnext] at hcovers
      have hnonempty : page.candidates ≠ [] := by
        rw [hcandidates, hA]
        simp
      refine ⟨page :: pages, hcovers.cons hcandidates hnonempty hcomplete hnextCursor hvalid, ?_⟩
      intro fuel hfuel
      obtain ⟨fuel, rfl⟩ : ∃ n, fuel = n + 1 := ⟨fuel - 1, by omega⟩
      rw [scanCycle, hpage, ok_bind, hcomplete, if_neg (by decide), hnextCursor,
        hrun fuel (by omega), ok_bind]
    · have hdrop : (b.remaining cursor).drop (limits turn) = [] :=
        length_eq_zero_iff.mp (by omega)
      rw [hdrop] at hcomplete
      refine ⟨[page], covers_singleton hcandidates hdrop hcomplete, fun fuel hfuel => ?_⟩
      obtain ⟨fuel, rfl⟩ : ∃ n, fuel = n + 1 := ⟨fuel - 1, by omega⟩
      rw [scanCycle, hpage, ok_bind, hcomplete]
      rfl

/-- What a complete scan of a bucket is: it ends with the first page that completes the cycle, no
page is longer than its limit, and the candidates are those of the latest versions, then those of the
noncurrent ones, then the uploads, each row once. -/
structure CompleteScan (b : StaticBucket) (limits : ℕ → ℕ) (pages : List LifecycleCandidatePage) :
    Prop where
  ends : ∃ init page, pages = init ++ [page] ∧ page.cycleComplete = true ∧
    ∀ earlier ∈ init, earlier.cycleComplete = false ∧ earlier.candidates ≠ [] ∧
      ∃ cursor, earlier.nextCursor = some cursor ∧ validateCursor cursor b.bucket = .ok ()
  length_le : ∀ turn page, pages[turn]? = some page → page.candidates.length ≤ limits turn
  exactlyOnce : ∃ (latestRows noncurrentRows : List VersionRow) (uploads : List MultipartUpload)
      (latest noncurrent : List LifecycleCandidate),
    latestRows.Perm (b.db.bucketVersions b.bucket true) ∧
    noncurrentRows.Perm (b.db.bucketVersions b.bucket false) ∧
    uploads.Perm (b.db.bucketUploads b.bucket) ∧
    List.Forall₂ (IsCandidate b.db.toLifecycleStore b.bucket) latestRows latest ∧
    List.Forall₂ (IsCandidate b.db.toLifecycleStore b.bucket) noncurrentRows noncurrent ∧
    pages.flatMap LifecycleCandidatePage.candidates =
      latest ++ noncurrent ++ uploads.map uploadCandidate

/-- **The coverage of a scan.**  Over a bucket that does not change, and with any limits between 1
and 1000, passing each cursor back ends, and the pages are a complete scan. -/
theorem scanCycle_covers (b : StaticBucket) (limits : ℕ → ℕ)
    (hlimits : ∀ turn, 1 ≤ limits turn ∧ limits turn ≤ maxLifecycleScanPageSize) :
    ∃ pages, b.CompleteScan limits pages ∧ ∃ turns, ∀ fuel, turns < fuel →
      b.db.scanCycle b.bucket limits fuel 0 none = .ok pages := by
  have hstart : ∀ c ∈ (none : Option LifecycleScanCursor),
      validateCursor c b.bucket = .ok () := fun c hc => absurd hc (not_mem_none c)
  obtain ⟨pages, hcovers, hrun⟩ := exists_covers hlimits hstart
  refine ⟨pages, ⟨hcovers.last, fun turn page hpage => ?_, ?_⟩, _, hrun⟩
  · have hle := hcovers.length_le turn page hpage
    rwa [Nat.zero_add] at hle
  · refine ⟨_, _, sortBy uploadTuple (b.db.bucketUploads b.bucket), b.versionCandidates true,
      b.versionCandidates false, sortBy_perm versionTuple _, sortBy_perm versionTuple _,
      sortBy_perm uploadTuple _, forall₂_versionCandidates true, forall₂_versionCandidates false, ?_⟩
    rw [hcovers.candidates, remaining_none, entries, map_snd_chain]
    simp [sourceCandidates]

def markerRow (id : UInt8) (sequence : ℤ) (isLatest : Bool) : VersionRow :=
  ⟨[id], [98], [107], none, some .deleteMarker, none, sequence, isLatest, 0, none, 0⟩

/-- Tables with a latest and a noncurrent delete marker and an upload. -/
def sampleStore : ScanStore where
  store := ⟨[([98], .enabled)], [], [markerRow 1 1 false, markerRow 2 2 true]⟩
  tags := []
  residencies := []
  configurations := []
  sagas := []
  actions := Keyed.empty
  uploads := [⟨[117], [98], [107], 5⟩]

theorem sampleStore_bucket : ([98] : Text) ≠ [] := by decide

theorem sampleStore_versions : (sampleStore.store.versions.filter fun row =>
    row.bucket == [98]).Pairwise fun a b => versionTuple a ≠ versionTuple b := by decide

theorem sampleStore_uploads :
    (sampleStore.bucketUploads [98]).Pairwise fun a b => uploadTuple a ≠ uploadTuple b := by decide

theorem sampleStore_versionColumns : ∀ row ∈ sampleStore.store.versions, row.bucket = [98] →
    row.key ≠ [] ∧ 0 < row.sequence ∧ row.id ≠ [] := by decide

theorem sampleStore_uploadColumns : ∀ upload ∈ sampleStore.uploads, upload.bucket = [98] →
    upload.key ≠ [] ∧ upload.uploadId ≠ [] := by decide

theorem sampleStore_candidates : ∀ row ∈ sampleStore.store.versions, row.bucket = [98] →
    ∃ candidate, sampleStore.candidateFromRow row = .ok candidate := by
  intro row hrow _
  rcases mem_pair.mp hrow with rfl | rfl
  · exact ⟨_, rfl⟩
  · exact ⟨_, rfl⟩

/-- The bucket of `sampleStore`. -/
def sampleBucket : StaticBucket :=
  ⟨sampleStore, [98], sampleStore_bucket, sampleStore_versions, sampleStore_uploads,
    sampleStore_versionColumns, sampleStore_uploadColumns, sampleStore_candidates⟩

theorem scanCycle_covers_sampleBucket :
    ∃ pages, sampleBucket.CompleteScan (fun _ => 1) pages ∧ ∃ turns, ∀ fuel, turns < fuel →
      sampleBucket.db.scanCycle sampleBucket.bucket (fun _ => 1) fuel 0 none = .ok pages :=
  scanCycle_covers sampleBucket (fun _ => 1) fun _ => by decide

end StaticBucket
end IpfS3.Lifecycle
