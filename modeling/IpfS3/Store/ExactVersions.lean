import IpfS3.Store.VersionOperations

/-!
# Versions by their ids

The constraints of the version table: row ids are a primary key, and the version ids of one key are
distinct.  Under these a version is found by its public id (`oneVersion_exact`), and the exact
deletion of a noncurrent version removes its row and nothing else (`deleteExactCore_noncurrent`,
`eq_of_deleteExactCore`).
-/

namespace IpfS3.Store

open Table Fallible VersionStore List

/-- The primary key of the version rows, the unique index on version ids, and the form of these. -/
structure VersionConstraints (st : VersionStore) : Prop where
  ids_nodup : (st.versions.map (·.id)).Nodup
  versionIds_distinct : st.versions.Pairwise fun a b =>
    a.bucket = b.bucket → a.key = b.key → a.versionId ≠ b.versionId
  versionIds_uuid : ∀ row ∈ st.versions, ∀ value, row.versionId = some value →
    isCanonicalUuid value = true

def withoutRow (st : VersionStore) (id : Text) : VersionStore :=
  { st with versions := deleteWhere (fun row => row.id == id) st.versions }

section Deletion

variable {st st' : VersionStore} {row : VersionRow} {versionId : PublicVersionId} {now : ℤ}

section

variable (h : VersionConstraints st)

include h

theorem VersionConstraints.withoutRow (id : Text) :
    VersionConstraints (withoutRow st id) where
  ids_nodup := (deleteWhere_sublist.map _).nodup h.ids_nodup
  versionIds_distinct := h.versionIds_distinct.sublist deleteWhere_sublist
  versionIds_uuid row hrow := h.versionIds_uuid row (deleteWhere_sublist.subset hrow)

theorem VersionConstraints.congr
    (hfixed : st'.versions.map VersionRow.fixed = st.versions.map VersionRow.fixed) :
    VersionConstraints st' := by
  have hids : ∀ rows : List VersionRow,
      rows.map (·.id) = (rows.map VersionRow.fixed).map FixedColumns.id := by
    intro rows
    rw [map_map]
    rfl
  have hdistinct : ∀ rows : List VersionRow, (rows.Pairwise fun a b =>
      a.bucket = b.bucket → a.key = b.key → a.versionId ≠ b.versionId) ↔
      (rows.map VersionRow.fixed).Pairwise fun a b =>
        a.bucket = b.bucket → a.key = b.key → a.versionId ≠ b.versionId := by
    intro rows
    rw [pairwise_map]
    rfl
  refine ⟨?_, ?_, ?_⟩
  · rw [hids, hfixed, ← hids]
    exact h.ids_nodup
  · rw [hdistinct, hfixed, ← hdistinct]
    exact h.versionIds_distinct
  · intro row hrow value hvalue
    have hmem : row.fixed ∈ st.versions.map VersionRow.fixed :=
      hfixed ▸ mem_map_of_mem hrow
    obtain ⟨row', hrow', hsame⟩ := mem_map.mp hmem
    have hid : row'.versionId = row.versionId := congrArg FixedColumns.versionId hsame
    exact h.versionIds_uuid row' hrow' value (hid.trans hvalue)

theorem VersionConstraints.insert (hrow : st.Insertable row)
    (huuid : ∀ value, row.versionId = some value → isCanonicalUuid value = true) :
    VersionConstraints { st with versions := st.versions ++ [row] } := by
  refine ⟨?_, ?_, ?_⟩
  · show ((st.versions ++ [row]).map (·.id)).Nodup
    rw [map_append, map_singleton, nodup_append]
    refine ⟨h.ids_nodup, nodup_singleton _, fun id hid id' hid' => ?_⟩
    obtain ⟨r, hr, rfl⟩ := mem_map.mp hid
    rw [mem_singleton.mp hid']
    exact (hrow r hr).1
  · show (st.versions ++ [row]).Pairwise _
    rw [pairwise_append]
    refine ⟨h.versionIds_distinct, pairwise_singleton _ _, fun r hr r' hr' hbucket hkey => ?_⟩
    rw [mem_singleton.mp hr'] at hbucket hkey ⊢
    exact ((hrow r hr).2 (ofKey_eq_true_iff.mpr ⟨hbucket, hkey⟩)).2.2
  · intro r hr value hvalue
    rcases mem_append.mp hr with hr | hr
    · exact h.versionIds_uuid r hr value hvalue
    · rw [mem_singleton.mp hr] at hvalue
      exact huuid value hvalue

theorem VersionConstraints.eq_of_id_eq {a b : VersionRow} (ha : a ∈ st.versions)
    (hb : b ∈ st.versions) (hid : a.id = b.id) : a = b :=
  inj_on_of_nodup_map h.ids_nodup ha hb hid

theorem VersionConstraints.eq_of_versionId_eq {a b : VersionRow} (ha : a ∈ st.versions)
    (hb : b ∈ st.versions) (hbucket : a.bucket = b.bucket) (hkey : a.key = b.key)
    (hid : a.versionId = b.versionId) : a = b := by
  by_contra hne
  have hsymm : Std.Symm fun a b : VersionRow =>
      a.bucket = b.bucket → a.key = b.key → a.versionId ≠ b.versionId :=
    ⟨fun _ _ h hbucket hkey heq => h hbucket.symm hkey.symm heq.symm⟩
  exact h.versionIds_distinct.forall ha hb hne hbucket hkey hid

section

variable (hrow : row ∈ st.versions)

include hrow

theorem lockVersionById_of_mem :
    st.lockVersionById row.id = some row := find?_of_nodup h.ids_nodup hrow

theorem countP_id :
    st.versions.countP (fun r => r.id == row.id) = 1 := by
  have hcount : (st.versions.map (·.id)).count row.id = 1 :=
    count_eq_one_of_mem h.ids_nodup (mem_map_of_mem hrow)
  rw [count, countP_map] at hcount
  exact hcount

theorem VersionConstraints.selectorDbValue_eq (hversionId : publicVersionId row = .ok versionId) :
    selectorDbValue versionId = .ok row.versionId := by
  rcases publicVersionId_eq (h.versionIds_uuid row hrow) hversionId with
    ⟨hcolumn, rfl⟩ | ⟨value, hcolumn, rfl, -, -, hparse⟩
  · rw [hcolumn]
    rfl
  · rw [hcolumn, selectorDbValue, hparse]
    rfl

theorem oneVersion_exact (hversionId : publicVersionId row = .ok versionId) :
    st.oneVersion row.bucket row.key (.exact versionId) = .ok (some row) := by
  have hkeyRow : row ∈ st.keyRows row.bucket row.key :=
    mem_filter.mpr ⟨hrow, ofKey_eq_true_iff.mpr ⟨rfl, rfl⟩⟩
  rw [oneVersion, h.selectorDbValue_eq hrow hversionId, ok_bind]
  cases hfind : (st.keyRows row.bucket row.key).find? fun r => r.versionId == row.versionId with
  | none => exact absurd (beq_self_eq_true row.versionId) (find?_eq_none.mp hfind row hkeyRow)
  | some found =>
    obtain ⟨hmem, hofKey⟩ := mem_filter.mp (mem_of_find?_eq_some hfind)
    obtain ⟨hbucket, hkey⟩ := ofKey_eq_true_iff.mp hofKey
    have hid := find?_some hfind
    rw [h.eq_of_versionId_eq hmem hrow hbucket hkey (beq_iff_eq.mp hid)]

theorem removeAndPromote_noncurrent (hlatest : row.isLatest = false) {kind : VersionKind}
    (hkind : versionKind row = .ok kind) :
    st.removeAndPromote row now = .ok (withoutRow st row.id, none) := by
  unfold removeAndPromote
  rw [lockVersionById_of_mem h hrow]
  dsimp only
  rw [hkind, ok_bind, ensure_of (countP_id h hrow), ok_bind, if_pos hlatest]
  rfl

end

end

variable {resolved : ResolvedVersion}

theorem checkLockedObject_of_resolved {message : String}
    (h : resolvedFromRow st.objects row = .ok resolved) :
    st.checkLockedObject message resolved = .ok () := by
  obtain ⟨kind, -, h⟩ := of_bind h
  obtain ⟨id, -, h⟩ := of_bind h
  cases kind with
  | deleteMarker =>
    cases h
    rfl
  | object =>
    cases hfind : st.objects.find? fun o => some o.id == row.objectId with
    | none =>
      rw [hfind] at h
      cases h
    | some object =>
      rw [hfind] at h
      dsimp only at h
      split_ifs at h
      cases h
      have hid : row.objectId = some object.id := by
        have hfound := find?_some hfind
        exact (beq_iff_eq.mp hfound).symm
      have hsame : (st.objects.find? fun o => o.id == object.id) = some object := by
        rw [← hfind, hid]
        rfl
      unfold checkLockedObject
      dsimp only
      rw [hsame]
      exact ensure_of rfl

theorem deleteExactCore_of_removeAndPromote (h : VersionConstraints st) (hrow : row ∈ st.versions)
    (hversionId : publicVersionId row = .ok versionId)
    (hresolved : resolvedFromRow st.objects row = .ok resolved)
    {promoted : Option ResolvedVersion}
    (hremove : st.removeAndPromote row now = .ok (st', promoted)) :
    ∃ deleted, st.deleteExactCore row.bucket row.key versionId now = .ok (st', deleted) := by
  rw [deleteExactCore, lockIndexedVersion, oneVersion_exact h hrow hversionId, ok_bind]
  dsimp only
  rw [hresolved, ok_bind, ok_bind]
  dsimp only
  rw [checkLockedObject_of_resolved hresolved, ok_bind, hremove, ok_bind]
  exact ⟨_, rfl⟩

/-- **The exact deletion of a noncurrent row** deletes it when it resolves. -/
theorem deleteExactCore_noncurrent (now : ℤ) (h : VersionConstraints st)
    (hrow : row ∈ st.versions) (hlatest : row.isLatest = false)
    (hversionId : publicVersionId row = .ok versionId)
    (hresolved : resolvedFromRow st.objects row = .ok resolved) :
    ∃ deleted, st.deleteExactCore row.bucket row.key versionId now =
      .ok (withoutRow st row.id, deleted) := by
  obtain ⟨kind, hkind, -⟩ := of_bind hresolved
  exact deleteExactCore_of_removeAndPromote h hrow hversionId hresolved
    (removeAndPromote_noncurrent h hrow hlatest hkind)

theorem eq_of_deleteExactCore (h : VersionConstraints st) (hrow : row ∈ st.versions)
    (hlatest : row.isLatest = false) (hversionId : publicVersionId row = .ok versionId)
    {deleted : DeleteVersionResult}
    (hdelete : st.deleteExactCore row.bucket row.key versionId now = .ok (st', deleted)) :
    st' = withoutRow st row.id := by
  have hresolved : ∃ resolved, resolvedFromRow st.objects row = .ok resolved := by
    rw [deleteExactCore, lockIndexedVersion, oneVersion_exact h hrow hversionId, ok_bind] at hdelete
    obtain ⟨found, hfound, -⟩ := of_bind hdelete
    obtain ⟨resolved, hresolved, -⟩ := of_bind hfound
    exact ⟨resolved, hresolved⟩
  obtain ⟨resolved, hresolved⟩ := hresolved
  obtain ⟨deleted', hdelete'⟩ := deleteExactCore_noncurrent now h hrow hlatest hversionId hresolved
  rw [hdelete'] at hdelete
  exact (Prod.mk.inj (Except.ok.inj hdelete)).1.symm

end Deletion

end IpfS3.Store
