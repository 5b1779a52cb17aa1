import IpfS3.Lifecycle.Execution
import IpfS3.Store.ExactVersions
import IpfS3.Store.VersionRuns

/-!
# Candidates and their deletion

The version rows that a lifecycle action is about.  `DescribesRow` says what the candidate of a row
tells of it, and `Readable` when a row has a candidate at all.  Under the constraints of the table, a
target names one row, and the deletion of a noncurrent version removes this row and nothing else
(`of_expireNoncurrent`, `expireNoncurrent_deletes`).
-/

namespace IpfS3.Lifecycle

open Fallible Store Table VersionStore LifecycleStore Option

/-! ## Deleting a noncurrent version -/

variable {kind : VersionKind}

section Deletion

variable {st st' : VersionStore} {row : VersionRow} {versionId : PublicVersionId} {now : ℤ}

theorem targetMatchesRow_eq_true {target : VersionTargetIdentity}
    (h : targetMatchesRow row target = .ok true) : row.bucket = target.bucket ∧
      row.key = target.key ∧ row.sequence = target.sequence ∧ row.objectId = target.objectId ∧
      versionKind row = .ok target.kind ∧ publicVersionId row = .ok target.publicVersionId := by
  unfold targetMatchesRow at h
  split_ifs at h with hcolumns
  · obtain ⟨kind, hkind, h⟩ := of_bind h
    split_ifs at h with heq
    · obtain ⟨versionId, hversionId, h⟩ := of_bind h
      have hid := of_decide_eq_true (Except.ok.inj h)
      exact ⟨hcolumns.1, hcolumns.2.1, hcolumns.2.2.1, hcolumns.2.2.2, heq ▸ hkind, hid ▸ hversionId⟩
    · cases Except.ok.inj h
  · cases Except.ok.inj h

def targetOf (row : VersionRow) (versionId : PublicVersionId) (kind : VersionKind) :
    VersionTargetIdentity :=
  ⟨row.bucket, row.key, row.id, versionId, kind, row.objectId, row.sequence⟩

theorem targetMatchesRow_targetOf (hkind : versionKind row = .ok kind)
    (hversionId : publicVersionId row = .ok versionId) :
    targetMatchesRow row (targetOf row versionId kind) = .ok true := by
  unfold targetMatchesRow targetOf
  rw [if_pos ⟨rfl, rfl, rfl, rfl⟩, hkind, ok_bind, if_pos rfl, hversionId, ok_bind]
  simp

variable {target : VersionTargetIdentity} {ids : InstallIds}

theorem of_expireNoncurrent (h : VersionConstraints st) {result : GuardedLifecycleExecutionResult}
    (hexecute : st.executeLifecycleDelete target .expireNoncurrent ids now now =
      .ok (st', result)) :
    st' = st ∨ ∃ row ∈ st.versions, row.id = target.versionRowId ∧ row.isLatest = false ∧
      targetMatchesRow row target = .ok true ∧ st' = withoutRow st row.id := by
  obtain ⟨-, hexecute⟩ := of_ensure hexecute
  obtain ⟨state, -, hexecute⟩ := of_bind hexecute
  cases hlock : st.lockVersionById target.versionRowId with
  | none =>
    rw [hlock] at hexecute
    exact Or.inl (Prod.mk.inj (Except.ok.inj hexecute)).1.symm
  | some row =>
    rw [hlock] at hexecute
    obtain ⟨hrow, hid⟩ := lockVersionById_spec hlock
    obtain ⟨matched, hmatched, hexecute⟩ := of_bind hexecute
    cases matched with
    | false => exact Or.inl (Prod.mk.inj (Except.ok.inj hexecute)).1.symm
    | true =>
      rw [if_neg (by decide)] at hexecute
      dsimp only at hexecute
      split_ifs at hexecute with hlatest
      · exact Or.inl (Prod.mk.inj (Except.ok.inj hexecute)).1.symm
      · obtain ⟨⟨st₁, deleted⟩, hdelete, hexecute⟩ := of_bind hexecute
        cases hexecute
        obtain ⟨hbucket, hkey, -, -, -, hversionId⟩ := targetMatchesRow_eq_true hmatched
        have hnoncurrent : row.isLatest = false := by simpa using hlatest
        rw [← hbucket, ← hkey] at hdelete
        exact Or.inr ⟨row, hrow, hid, hnoncurrent, hmatched,
          eq_of_deleteExactCore h hrow hnoncurrent hversionId hdelete⟩

/-- **An expiration of a noncurrent version that is there** deletes it. -/
theorem expireNoncurrent_deletes (ids : InstallIds) (now : ℤ) (h : VersionConstraints st)
    (hrow : row ∈ st.versions) (hlatest : row.isLatest = false)
    (hkind : versionKind row = .ok kind) (hversionId : publicVersionId row = .ok versionId)
    {resolved : ResolvedVersion} (hresolved : resolvedFromRow st.objects row = .ok resolved)
    {state : BucketVersioningState} (hstate : getVersioningState st.states row.bucket = .ok state) :
    ∃ deleted, st.executeLifecycleDelete (targetOf row versionId kind) .expireNoncurrent ids now now =
      .ok (withoutRow st row.id, .applied deleted) := by
  obtain ⟨deleted, hdelete⟩ := deleteExactCore_noncurrent now h hrow hlatest hversionId hresolved
  unfold executeLifecycleDelete
  have hlock : st.lockVersionById (targetOf row versionId kind).versionRowId = some row :=
    lockVersionById_of_mem h hrow
  have hmatches := targetMatchesRow_targetOf hkind hversionId
  have hbucket : getVersioningState st.states (targetOf row versionId kind).bucket = .ok state :=
    hstate
  rw [ensure_of (by decide), ok_bind, hbucket, ok_bind, hlock]
  dsimp only
  rw [hmatches, ok_bind, if_neg (by decide), if_neg (by rw [hlatest]; decide)]
  refine ⟨deleted, ?_⟩
  rw [show st.deleteExactCore (targetOf row versionId kind).bucket (targetOf row versionId kind).key
    (targetOf row versionId kind).publicVersionId now = _ from hdelete, ok_bind]

end Deletion

/-! ## Candidates -/

def LifecycleStore.versionSize (db : LifecycleStore) (row : VersionRow) : ℤ :=
  (db.joinedObject row).elim 0 Object.size

def LifecycleStore.versionTags (db : LifecycleStore) (row : VersionRow) : List ObjectTag :=
  row.objectId.elim [] db.listObjectTags

/-- What a candidate says of its row, as far as filters and expirations read it. -/
structure DescribesRow (db : LifecycleStore) (row : VersionRow)
    (candidate : VersionLifecycleCandidate) : Prop where
  rowId : candidate.target.versionRowId = row.id
  target : targetMatchesRow row candidate.target = .ok true
  isLatest : candidate.isLatest = row.isLatest
  size : candidate.size = db.versionSize row
  becameNoncurrentAt : candidate.becameNoncurrentAt = row.becameNoncurrentAt

/-- A row that can be read: its columns are valid, its object and its bucket are there, and its
residency resolves. -/
structure Readable (db : LifecycleStore) (row : VersionRow) : Prop where
  kind : ∃ kind, versionKind row = .ok kind
  versionId : ∃ versionId, publicVersionId row = .ok versionId
  object : ∀ objectId, row.objectId = some objectId → ∃ object, db.joinedObject row = some object ∧
    object.id = objectId ∧ object.bucket = row.bucket ∧ object.key = row.key ∧
    object.isLatest = row.isLatest
  bucket : ∃ state, getVersioningState db.store.states row.bucket = .ok state
  residency : ∀ resolved, db.residencies.lookup row.id = some resolved →
    ∃ value, resolved = .ok value

section Candidates

variable {db : LifecycleStore} {row : VersionRow} {candidate : VersionLifecycleCandidate}

theorem objectId_of_marker (hkind : versionKind row = .ok .deleteMarker) : row.objectId = none := by
  unfold versionKind at hkind
  split at hkind
  · cases hkind
  · assumption
  · cases hkind

theorem joinedObject_of_marker (hkind : versionKind row = .ok .deleteMarker) :
    db.joinedObject row = none := by
  rw [joinedObject, objectId_of_marker hkind]
  rfl

theorem objectId_of_object (hkind : versionKind row = .ok .object) :
    ∃ objectId, row.objectId = some objectId := by
  unfold versionKind at hkind
  split at hkind
  · exact ⟨_, ‹_›⟩
  · cases hkind
  · cases hkind

theorem describesRow_of_candidateFromRow (h : db.candidateFromRow row = .ok candidate) :
    DescribesRow db row candidate := by
  obtain ⟨kind, hkind, h⟩ := of_bind h
  obtain ⟨versionId, hversionId, h⟩ := of_bind h
  obtain ⟨⟨state, storageClass, verifiedHot⟩, -, h⟩ := of_bind h
  obtain ⟨size, hsize, h⟩ := of_bind h
  cases h
  refine ⟨rfl, targetMatchesRow_targetOf hkind hversionId, rfl, ?_, rfl⟩
  unfold versionSize
  cases kind with
  | object =>
    cases hobject : db.joinedObject row with
    | none =>
      rw [hobject] at hsize
      cases hsize
    | some object =>
      rw [hobject] at hsize
      obtain ⟨-, hsize⟩ := of_ensure hsize
      exact (Except.ok.inj hsize).symm
  | deleteMarker =>
    rw [joinedObject_of_marker hkind] at hsize ⊢
    exact (Except.ok.inj hsize).symm

theorem versionEvaluationFacts_of_readable (h : Readable db row) :
    ∃ facts, db.versionEvaluationFacts row (db.joinedObject row) = .ok facts := by
  obtain ⟨kind, hkind⟩ := h.kind
  obtain ⟨state, hstate⟩ := h.bucket
  rw [versionEvaluationFacts, hstate, ok_bind, hkind, ok_bind]
  cases kind with
  | deleteMarker => exact ⟨_, rfl⟩
  | object =>
    obtain ⟨objectId, hobjectId⟩ := objectId_of_object hkind
    obtain ⟨object, hobject, hid, hbucket, hkey, -⟩ := h.object objectId hobjectId
    rw [hobject]
    dsimp only
    rw [ensure_of ⟨by rw [hobjectId, hid], hbucket.symm, hkey.symm⟩, ok_bind]
    cases hlookup : db.residencies.lookup row.id with
    | none => exact ⟨_, rfl⟩
    | some resolved =>
      obtain ⟨value, rfl⟩ := h.residency resolved hlookup
      exact ⟨_, rfl⟩

theorem exists_candidateFromRow (h : Readable db row) :
    ∃ candidate, db.candidateFromRow row = .ok candidate := by
  obtain ⟨kind, hkind⟩ := h.kind
  obtain ⟨versionId, hversionId⟩ := h.versionId
  obtain ⟨⟨state, storageClass, verifiedHot⟩, hfacts⟩ := versionEvaluationFacts_of_readable h
  have hsize : ∃ size, candidateSize row kind (db.joinedObject row) = .ok size := by
    cases kind with
    | deleteMarker =>
      rw [joinedObject_of_marker hkind]
      exact ⟨0, rfl⟩
    | object =>
      obtain ⟨objectId, hobjectId⟩ := objectId_of_object hkind
      obtain ⟨object, hobject, hid, hbucket, hkey, -⟩ := h.object objectId hobjectId
      rw [hobject]
      unfold candidateSize
      dsimp only
      rw [ensure_of ⟨by rw [hobjectId, hid], hbucket, hkey⟩, ok_bind]
      exact ⟨_, rfl⟩
  obtain ⟨size, hsize⟩ := hsize
  rw [candidateFromRow, hkind, ok_bind, hversionId, ok_bind, hfacts, ok_bind]
  dsimp only
  rw [hsize, ok_bind]
  exact ⟨_, rfl⟩

theorem resolvedFromRow_of_readable (h : Readable db row) :
    ∃ resolved, resolvedFromRow db.store.objects row = .ok resolved := by
  obtain ⟨kind, hkind⟩ := h.kind
  obtain ⟨versionId, hversionId⟩ := h.versionId
  rw [resolvedFromRow, hkind, ok_bind, hversionId, ok_bind]
  cases kind with
  | deleteMarker => exact ⟨_, rfl⟩
  | object =>
    obtain ⟨objectId, hobjectId⟩ := objectId_of_object hkind
    obtain ⟨object, hobject, -, hbucket, hkey, -⟩ := h.object objectId hobjectId
    rw [joinedObject, hobjectId, bind_some] at hobject
    have hfind : (db.store.objects.find? fun o => some o.id == row.objectId) = some object := by
      rw [← hobject, hobjectId]
      rfl
    rw [hfind]
    dsimp only
    rw [if_neg (by rw [hbucket, hkey]; simp)]
    exact ⟨_, rfl⟩

variable {target : VersionTargetIdentity}

theorem of_revalidateCandidate (h : db.revalidateCandidate target .expireNoncurrent =
    .ok (some candidate)) : ∃ row ∈ db.store.versions, row.isLatest = false ∧
      candidate.target = target ∧ DescribesRow db row candidate := by
  unfold revalidateCandidate at h
  cases hlock : db.store.lockVersionById target.versionRowId with
  | none =>
    rw [hlock] at h
    cases Except.ok.inj h
  | some row =>
    rw [hlock] at h
    obtain ⟨hrow, hid⟩ := lockVersionById_spec hlock
    obtain ⟨isLatest, hisLatest, h⟩ := of_bind h
    cases hisLatest
    obtain ⟨matched, hmatched, h⟩ := of_bind h
    split_ifs at h with hstale
    · cases Except.ok.inj h
    rw [not_or, not_or, not_not] at hstale
    obtain ⟨htrue, hlatest, -⟩ := hstale
    obtain rfl : matched = true := by simpa using htrue
    obtain ⟨locked, hlocked, h⟩ := of_bind h
    cases locked with
    | none => cases Except.ok.inj h
    | some object =>
      obtain ⟨⟨state, storageClass, verifiedHot⟩, -, h⟩ := of_bind h
      cases h
      refine ⟨row, hrow, hlatest, rfl, hid.symm, hmatched, rfl, ?_, rfl⟩
      -- the locked object is the one of the row
      obtain ⟨-, -, -, hobjectId, hkind, -⟩ := targetMatchesRow_eq_true hmatched
      have hobject : db.joinedObject row = object := by
        unfold lockTargetObject at hlocked
        cases hkindTarget : target.kind with
        | deleteMarker =>
          rw [hkindTarget] at hlocked hkind
          split_ifs at hlocked
          · cases Except.ok.inj hlocked
          · cases hlocked
            exact joinedObject_of_marker hkind
        | object =>
          rw [hkindTarget] at hlocked
          cases hid' : target.objectId with
          | none =>
            rw [hid'] at hlocked
            cases hlocked
          | some objectId =>
            rw [hid'] at hlocked hobjectId
            rw [joinedObject, hobjectId, bind_some]
            dsimp only at hlocked
            split at hlocked
            · cases Except.ok.inj hlocked
            · split_ifs at hlocked
              · cases hlocked
                assumption
              · cases Except.ok.inj hlocked
      rw [versionSize, hobject]

/-- **A readable noncurrent row passes the revalidation.** -/
theorem revalidateCandidate_of_readable (hconstraints : VersionConstraints db.store)
    (hrow : row ∈ db.store.versions) (hlatest : row.isLatest = false) (h : Readable db row)
    (hkind : versionKind row = .ok kind) {versionId : PublicVersionId}
    (hversionId : publicVersionId row = .ok versionId) :
    ∃ candidate, db.revalidateCandidate (targetOf row versionId kind) .expireNoncurrent =
      .ok (some candidate) := by
  have hlock : db.store.lockVersionById (targetOf row versionId kind).versionRowId = some row :=
    lockVersionById_of_mem hconstraints hrow
  obtain ⟨⟨state, storageClass, verifiedHot⟩, hfacts⟩ := versionEvaluationFacts_of_readable h
  have hobject : db.lockTargetObject row (targetOf row versionId kind) =
      .ok (some (db.joinedObject row)) := by
    unfold lockTargetObject targetOf
    cases kind with
    | deleteMarker =>
      dsimp only
      rw [if_neg (by rw [hlatest]; simp), joinedObject_of_marker hkind]
    | object =>
      obtain ⟨objectId, hobjectId⟩ := objectId_of_object hkind
      obtain ⟨object, hobject, -, hbucket, hkey, hflag⟩ := h.object objectId hobjectId
      have hfind := hobject
      rw [joinedObject, hobjectId, bind_some] at hfind
      rw [hobjectId, hobject]
      dsimp only
      rw [hfind]
      dsimp only
      rw [if_pos ⟨hbucket, hkey, hflag⟩]
  unfold revalidateCandidate
  rw [hlock]
  dsimp only
  rw [expectedIsLatest, ok_bind, targetMatchesRow_targetOf hkind hversionId, ok_bind,
    if_neg (by rw [hlatest, actionApplies]; simp), hobject, ok_bind]
  dsimp only
  rw [hfacts, ok_bind]
  exact ⟨_, rfl⟩

end Candidates

end IpfS3.Lifecycle
