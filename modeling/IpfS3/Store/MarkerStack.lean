import IpfS3.Store.ExactVersions
import IpfS3.Store.VersionRuns

/-!
# Delete markers on top of a key

In an enabled bucket a deletion puts a delete marker on top of a key, and further deletions put more
markers on top of that.  The state below is kept: `buried` is the state with a stack of markers on
top, in which only the latest row of the key is demoted and its object is no longer current.  A
deletion adds to the stack (`buried_deleteCurrent`).
-/

namespace IpfS3.Store

open Table Fallible VersionStore List

/-- A key with a consistent index, in tables that meet their constraints. -/
structure KeyHistory (st : VersionStore) (bucket key : Text) : Prop where
  consistent : KeyConsistent st bucket key
  constraints : VersionConstraints st
  /-- Object ids are a primary key. -/
  objects_nodup : (st.objects.map (·.id)).Nodup

section Buried

variable (st : VersionStore) (bucket key : Text)

/-- The objects, without a current one of the key. -/
def clearedObjects : List Object :=
  updateWhere (isCurrent bucket key) (fun o => { o with isLatest := false }) st.objects

/-- The rows, without a latest one of the key. -/
def demotedVersions (since : ℤ) : List VersionRow :=
  updateWhere (isLatestOf bucket key) (demoted since) st.versions

/-- The state with a stack of delete markers on top of the key. -/
def buried (since : ℤ) : List VersionRow → VersionStore
  | [] => st
  | markers => ⟨st.states, clearedObjects st bucket key, demotedVersions st bucket key since ++ markers⟩

/-- A stack of delete markers: above the rows of the key, and only the top one is the latest. -/
structure MarkerStack (markers : List VersionRow) : Prop where
  ofKey_eq : ∀ m ∈ markers, ofKey bucket key m = true
  marker : ∀ m ∈ markers, m.kind = some .deleteMarker ∧ m.objectId = none
  versionId_isSome : ∀ m ∈ markers, ∃ value, m.versionId = some value
  above : ∀ m ∈ markers, 0 < m.sequence ∧ ∀ r ∈ st.keyRows bucket key, r.sequence < m.sequence
  ascending : markers.Pairwise fun a b => a.sequence < b.sequence
  latest : ∀ below top, markers = below ++ [top] →
    top.isLatest = true ∧ ∀ m ∈ below, m.isLatest = false

end Buried

section Stack

variable {st : VersionStore} {bucket key : Text} {since now : ℤ} {markers : List VersionRow}

theorem isCurrent_clearedObjects {o : Object} (ho : o ∈ clearedObjects st bucket key) :
    isCurrent bucket key o = false :=
  not_of_mem_updateWhere (fun o => by simp [isCurrent]) ho

theorem isLatestOf_demotedVersions {r : VersionRow}
    (hr : r ∈ demotedVersions st bucket key since) : isLatestOf bucket key r = false :=
  not_of_mem_updateWhere (fun r => by simp [isLatestOf, demoted]) hr

theorem fixed_demotedVersions :
    (demotedVersions st bucket key since).map VersionRow.fixed = st.versions.map VersionRow.fixed :=
  map_updateWhere fun _ _ => rfl

theorem buried_of_ne_nil (h : markers ≠ []) : buried st bucket key since markers =
    ⟨st.states, clearedObjects st bucket key, demotedVersions st bucket key since ++ markers⟩ := by
  cases markers with
  | nil => exact absurd rfl h
  | cons m markers => rfl

theorem states_buried : (buried st bucket key since markers).states = st.states := by
  cases markers with
  | nil => rfl
  | cons m markers => rfl

theorem markerStack_nil : MarkerStack st bucket key [] where
  ofKey_eq m hm := absurd hm not_mem_nil
  marker m hm := absurd hm not_mem_nil
  versionId_isSome m hm := absurd hm not_mem_nil
  above m hm := absurd hm not_mem_nil
  ascending := List.Pairwise.nil
  latest below top h := absurd h (by simp)

theorem ofKey_congr {a b : VersionRow} (h : a.fixed = b.fixed) :
    ofKey bucket key a = ofKey bucket key b := by
  have hbucket : a.bucket = b.bucket := congrArg FixedColumns.bucket h
  have hkey : a.key = b.key := congrArg FixedColumns.key h
  rw [ofKey, ofKey, hbucket, hkey]

theorem mem_keyRows_buried {r : VersionRow}
    (hr : r ∈ (buried st bucket key since markers).keyRows bucket key) :
    r ∈ markers ∨ ∃ a ∈ st.keyRows bucket key, a.fixed = r.fixed := by
  cases markers with
  | nil => exact Or.inr ⟨r, hr, rfl⟩
  | cons m markers =>
    obtain ⟨hmem, hofKey⟩ := mem_filter.mp hr
    rcases mem_append.mp hmem with hmem | hmem
    · have hfixed : r.fixed ∈ (demotedVersions st bucket key since).map VersionRow.fixed :=
        mem_map_of_mem hmem
      rw [fixed_demotedVersions] at hfixed
      obtain ⟨a, ha, hsame⟩ := mem_map.mp hfixed
      refine Or.inr ⟨a, mem_filter.mpr ⟨ha, ?_⟩, hsame⟩
      rw [ofKey_congr hsame]
      exact hofKey
    · exact Or.inl hmem

/-! ## A deletion -/

def newMarker (bucket key : Text) (ids : InstallIds) (sequence now : ℤ) : VersionRow :=
  ⟨ids.rowId, bucket, key, some ids.versionId, some .deleteMarker, none, sequence, true, now, none,
    now⟩

variable {ids : InstallIds} {st' : VersionStore} {row : VersionRow} {kind : VersionKind}

theorem of_deleteEnabledCurrent {result : DeleteVersionResult}
    (h : st.deleteEnabledCurrent bucket key ids now = .ok (st', result)) :
    ∃ sequence, st.allocateNextSequence bucket key = .ok sequence ∧
      ({ st with versions := demotedVersions st bucket key now } : VersionStore).Insertable
        (newMarker bucket key ids sequence now) ∧
      st' = ⟨st.states, clearedObjects st bucket key,
        demotedVersions st bucket key now ++ [newMarker bucket key ids sequence now]⟩ ∧
      result.versionId = some ids.versionId.val := by
  obtain ⟨⟨st₃, id⟩, hinstall, h⟩ := of_bind h
  cases h
  obtain ⟨⟨st₁, sequence, versionId⟩, hprepare, hinstall⟩ := of_bind hinstall
  obtain ⟨st₂, hinsert, hinstall⟩ := of_bind hinstall
  obtain ⟨st₄, hselect, hinstall⟩ := of_bind hinstall
  cases hinstall
  obtain ⟨sequence', hsequence, hprepare⟩ := of_bind hprepare
  obtain ⟨st₅, hdemote, hprepare⟩ := of_bind hprepare
  obtain ⟨rfl, rfl, rfl⟩ := Prod.mk.inj (Except.ok.inj hprepare) |>.imp id Prod.mk.inj
  obtain ⟨-, hdemote⟩ := of_ensure hdemote
  cases hdemote
  obtain ⟨-, hinsert⟩ := of_ensure hinsert
  obtain ⟨hinsertable, hinsert⟩ := of_ensure hinsert
  obtain ⟨-, hinsert⟩ := of_ensure hinsert
  cases hinsert
  obtain ⟨-, -, hselect⟩ := of_bind hselect
  obtain ⟨-, hselect⟩ := of_ensure hselect
  obtain ⟨objects, hobjects, hselect⟩ := of_bind hselect
  cases hobjects
  obtain ⟨-, hselect⟩ := of_ensure hselect
  cases hselect
  exact ⟨sequence', hsequence, hinsertable, rfl, rfl⟩

theorem demotedVersions_buried (h : markers ≠ []) :
    demotedVersions (buried st bucket key since markers) bucket key now =
      demotedVersions st bucket key since ++
        updateWhere (isLatestOf bucket key) (demoted now) markers := by
  rw [buried_of_ne_nil h, demotedVersions, updateWhere_append,
    updateWhere_of_forall_not fun r hr => isLatestOf_demotedVersions hr]

theorem clearedObjects_buried (h : markers ≠ []) :
    clearedObjects (buried st bucket key since markers) bucket key =
      clearedObjects st bucket key := by
  rw [buried_of_ne_nil h, clearedObjects]
  exact updateWhere_of_forall_not fun o ho => isCurrent_clearedObjects ho

theorem MarkerStack.push (h : MarkerStack st bucket key markers) {sequence : ℤ}
    (hpos : 0 < sequence) (hrows : ∀ r ∈ st.keyRows bucket key, r.sequence < sequence)
    (hmarkers : ∀ m ∈ markers, m.sequence < sequence) :
    MarkerStack st bucket key (updateWhere (isLatestOf bucket key) (demoted now) markers ++
      [newMarker bucket key ids sequence now]) := by
  -- a marker below the new one has the columns of a marker of the old stack
  have hbelow : ∀ m ∈ updateWhere (isLatestOf bucket key) (demoted now) markers,
      ∃ a ∈ markers, a.fixed = m.fixed := by
    intro m hm
    obtain ⟨a, ha, rfl⟩ := mem_updateWhere.mp hm
    refine ⟨a, ha, ?_⟩
    split_ifs
    · rfl
    · rfl
  refine ⟨fun m hm => ?_, fun m hm => ?_, fun m hm => ?_, fun m hm => ?_, ?_, fun below top heq => ?_⟩
  · rcases mem_append.mp hm with hm | hm
    · obtain ⟨a, ha, hsame⟩ := hbelow m hm
      exact (ofKey_congr hsame).symm.trans (h.ofKey_eq a ha)
    · rw [mem_singleton.mp hm, ofKey_eq_true_iff]
      exact ⟨rfl, rfl⟩
  · rcases mem_append.mp hm with hm | hm
    · obtain ⟨a, ha, hsame⟩ := hbelow m hm
      have hkind : a.kind = m.kind := congrArg FixedColumns.kind hsame
      have hobject : a.objectId = m.objectId := congrArg FixedColumns.objectId hsame
      rw [← hkind, ← hobject]
      exact h.marker a ha
    · rw [mem_singleton.mp hm]
      exact ⟨rfl, rfl⟩
  · rcases mem_append.mp hm with hm | hm
    · obtain ⟨a, ha, hsame⟩ := hbelow m hm
      have hid : a.versionId = m.versionId := congrArg FixedColumns.versionId hsame
      rw [← hid]
      exact h.versionId_isSome a ha
    · rw [mem_singleton.mp hm]
      exact ⟨_, rfl⟩
  · rcases mem_append.mp hm with hm | hm
    · obtain ⟨a, ha, hsame⟩ := hbelow m hm
      have hseq : a.sequence = m.sequence := congrArg FixedColumns.sequence hsame
      rw [← hseq]
      exact h.above a ha
    · rw [mem_singleton.mp hm]
      exact ⟨hpos, hrows⟩
  · rw [pairwise_append]
    refine ⟨?_, pairwise_singleton _ _, fun m hm m' hm' => ?_⟩
    · have hsequences : (updateWhere (isLatestOf bucket key) (demoted now) markers).map
          (·.sequence) = markers.map (·.sequence) := map_updateWhere fun _ _ => rfl
      rw [← pairwise_map (f := VersionRow.sequence) (R := fun a b => a < b), hsequences,
        pairwise_map]
      exact h.ascending
    · obtain ⟨a, ha, hsame⟩ := hbelow m hm
      have hseq : a.sequence = m.sequence := congrArg FixedColumns.sequence hsame
      rw [mem_singleton.mp hm', ← hseq]
      exact hmarkers a ha
  · obtain ⟨rfl, htop⟩ := append_inj' heq rfl
    obtain rfl := (cons.inj htop).1
    refine ⟨rfl, fun m hm => ?_⟩
    have hnot : isLatestOf bucket key m = false :=
      not_of_mem_updateWhere (fun r => by simp [isLatestOf, demoted]) hm
    obtain ⟨a, ha, hsame⟩ := hbelow m hm
    rw [isLatestOf, ← ofKey_congr hsame, h.ofKey_eq a ha, Bool.true_and] at hnot
    exact hnot

/-- **A deletion puts a marker on top.** -/
theorem buried_deleteCurrent (hkey : KeyHistory st bucket key)
    (h : MarkerStack st bucket key markers)
    (hconstraints : VersionConstraints (buried st bucket key since markers))
    {result : DeleteVersionResult}
    (hdelete : (buried st bucket key since markers).deleteEnabledCurrent bucket key ids now =
      .ok (st', result)) :
    ∃ since' markers', st' = buried st bucket key since' markers' ∧
      MarkerStack st bucket key markers' ∧ VersionConstraints st' ∧
      markers'.map (·.versionId) = markers.map (·.versionId) ++ [some ids.versionId.val] ∧
      result.versionId = some ids.versionId.val := by
  obtain ⟨sequence, hsequence, hinsertable, rfl, hresult⟩ := of_deleteEnabledCurrent hdelete
  have hpos : ∀ r ∈ (buried st bucket key since markers).keyRows bucket key, 0 < r.sequence := by
    intro r hr
    rcases mem_keyRows_buried hr with hr | ⟨a, ha, hsame⟩
    · exact (h.above r hr).1
    · have hseq : a.sequence = r.sequence := congrArg FixedColumns.sequence hsame
      rw [← hseq]
      exact hkey.consistent.sequence_pos a ha
  obtain ⟨hseqPos, hlt⟩ := allocateNextSequence_spec hsequence hpos
  have hstack : MarkerStack st bucket key
      (updateWhere (isLatestOf bucket key) (demoted now) markers ++
        [newMarker bucket key ids sequence now]) := by
    refine h.push hseqPos (fun r hr => ?_) fun m hm => ?_
    · cases markers with
      | nil => exact hlt r hr
      | cons m markers =>
        have hmem : r.fixed ∈ (demotedVersions st bucket key since).map VersionRow.fixed :=
          fixed_demotedVersions ▸ mem_map_of_mem (mem_filter.mp hr).1
        obtain ⟨a, ha, hsame⟩ := mem_map.mp hmem
        have hseq : a.sequence = r.sequence := congrArg FixedColumns.sequence hsame
        rw [← hseq]
        refine hlt a (mem_filter.mpr ⟨mem_append_left _ ha, ?_⟩)
        rw [ofKey_congr hsame]
        exact (mem_filter.mp hr).2
    · refine hlt m (mem_filter.mpr ⟨?_, h.ofKey_eq m hm⟩)
      rw [buried_of_ne_nil (ne_nil_of_mem hm)]
      exact mem_append_right _ hm
  have hnext : ∃ since', (⟨(buried st bucket key since markers).states,
      clearedObjects (buried st bucket key since markers) bucket key,
      demotedVersions (buried st bucket key since markers) bucket key now ++
        [newMarker bucket key ids sequence now]⟩ : VersionStore) =
      buried st bucket key since' (updateWhere (isLatestOf bucket key) (demoted now) markers ++
        [newMarker bucket key ids sequence now]) := by
    by_cases hmarkers : markers = []
    · subst hmarkers
      exact ⟨now, rfl⟩
    · refine ⟨since, ?_⟩
      rw [demotedVersions_buried hmarkers, clearedObjects_buried hmarkers, states_buried,
        buried_of_ne_nil (by simp), append_assoc]
  obtain ⟨since', hnext⟩ := hnext
  refine ⟨since', _, hnext, hstack, ?_, ?_, hresult⟩
  · have hdemoted : VersionConstraints
        { buried st bucket key since markers with
          versions := demotedVersions (buried st bucket key since markers) bucket key now } :=
      hconstraints.congr (map_updateWhere fun _ _ => rfl)
    have hinserted := hdemoted.insert hinsertable fun value hvalue => by
      rw [← Option.some.inj hvalue]
      exact ids.versionId.property
    exact hinserted.congr rfl
  · have hids : (updateWhere (isLatestOf bucket key) (demoted now) markers).map (·.versionId) =
        markers.map (·.versionId) := map_updateWhere fun _ _ => rfl
    rw [map_append, hids]
    rfl

/-! ## The deletion of a marker -/

theorem setOnlyLatest_none (h : ∀ o ∈ st.objects, isCurrent bucket key o = false) :
    st.setOnlyLatest bucket key none = .ok st := by
  have hcount : st.objects.countP (isCurrent bucket key) = 0 := by
    rw [countP_eq_zero]
    intro o ho
    rw [h o ho]
    exact Bool.false_ne_true
  rw [setOnlyLatest, checkSelected, ok_bind, ensure_of (hcount.le.trans (Nat.zero_le 1)), ok_bind]
  dsimp only
  rw [updateWhere_of_forall_not h, selectLatest, ok_bind,
    ensure_of (show _ = (none : Option Text).toList.length from hcount), ok_bind]

section

variable (h : VersionConstraints st)

include h

theorem countP_isPromotable (hrow : row ∈ st.versions)
    (hlatest : row.isLatest = false) : st.versions.countP (isPromotable row.id) = 1 := by
  rw [← countP_id h hrow]
  refine countP_congr fun r hr => ?_
  rw [isPromotable, Bool.and_eq_true]
  refine ⟨fun hboth => hboth.1, fun hid => ⟨hid, ?_⟩⟩
  rw [h.eq_of_id_eq hr hrow (beq_iff_eq.mp hid), hlatest]
  rfl

theorem promote_eq
    (hnone : ∀ r ∈ st.versions, isLatestOf bucket key r = false) {survivor : VersionRow}
    (hmem : survivor ∈ st.versions) (hlatest : survivor.isLatest = false)
    (hkind : versionKind survivor = .ok kind)
    (hselect : ({ st with versions := updateWhere (isPromotable survivor.id) promotedRow st.versions } :
      VersionStore).setOnlyLatest bucket key (selectedObject survivor kind) = .ok st')
    {version : ResolvedVersion}
    (hresolved : st'.resolvedCurrentFromRow (promotedRow survivor) = .ok version) :
    st.promote bucket key now survivor = .ok (st', version) := by
  have hcount : st.versions.countP (isLatestOf bucket key) = 0 := by
    rw [countP_eq_zero]
    intro r hr
    rw [hnone r hr]
    exact Bool.false_ne_true
  rw [promote, ensure_of (hcount.le.trans (Nat.zero_le 1)), ok_bind]
  dsimp only
  rw [updateWhere_of_forall_not hnone, ensure_of (countP_isPromotable h hmem hlatest), ok_bind, hkind,
    ok_bind, hselect, ok_bind, hresolved, ok_bind]

theorem removeAndPromote_survivor {survivor : VersionRow}
    (hrow : row ∈ st.versions) (hlatest : row.isLatest = true)
    (hkind : versionKind row = .ok kind)
    (hgreatest : greatest VersionRow.sequence ((withoutRow st row.id).keyRows row.bucket row.key) =
      some survivor) {version : ResolvedVersion}
    (hpromote : (withoutRow st row.id).promote row.bucket row.key now survivor = .ok (st', version))
    :
    st.removeAndPromote row now = .ok (st', some version) := by
  rw [withoutRow] at hgreatest hpromote
  unfold removeAndPromote
  rw [lockVersionById_of_mem h hrow]
  dsimp only
  rw [hkind, ok_bind, ensure_of (countP_id h hrow), ok_bind, if_neg (by rw [hlatest]; decide),
    hgreatest]
  dsimp only
  rw [hpromote, ok_bind]

theorem removeAndPromote_last (hrow : row ∈ st.versions)
    (hlatest : row.isLatest = true) (hkind : versionKind row = .ok kind)
    (hrows : (withoutRow st row.id).keyRows row.bucket row.key = [])
    (hselect : (withoutRow st row.id).setOnlyLatest row.bucket row.key none = .ok st') :
    st.removeAndPromote row now = .ok (st', none) := by
  rw [withoutRow] at hrows hselect
  unfold removeAndPromote
  rw [lockVersionById_of_mem h hrow]
  dsimp only
  rw [hkind, ok_bind, ensure_of (countP_id h hrow), ok_bind, if_neg (by rw [hlatest]; decide),
    greatest_eq_none_iff.mpr hrows]
  rw [hselect, ok_bind]

end

theorem publicVersionId_of_uuid {value : Text} (hid : row.versionId = some value)
    (hvalue : isCanonicalUuid value = true) : publicVersionId row = .ok (.opaqueId value) := by
  have hnull : value ≠ nullVersionId := by
    rintro rfl
    exact absurd hvalue (by decide)
  rw [publicVersionId, hid]
  dsimp only
  rw [PublicVersionId.parseS3, if_neg hnull, if_pos hvalue]
  rfl

theorem versionKind_of_marker (hkind : row.kind = some .deleteMarker)
    (hobject : row.objectId = none) : versionKind row = .ok .deleteMarker := by
  rw [versionKind, hkind, hobject]

theorem exists_resolvedFromRow_marker {objects : List Object}
    (hkind : versionKind row = .ok .deleteMarker) {versionId : PublicVersionId}
    (hid : publicVersionId row = .ok versionId) :
    ∃ resolved, resolvedFromRow objects row = .ok resolved ∧ resolved.object = none := by
  rw [resolvedFromRow, hkind, ok_bind, hid, ok_bind]
  exact ⟨_, rfl, rfl⟩

theorem id_ne_of_mem_demotedVersions (hmarkers : markers ≠ [])
    (h : VersionConstraints (buried st bucket key since markers)) {r m : VersionRow}
    (hr : r ∈ demotedVersions st bucket key since) (hm : m ∈ markers) : r.id ≠ m.id := by
  have hnodup := h.ids_nodup
  rw [buried_of_ne_nil hmarkers, map_append, nodup_append] at hnodup
  exact hnodup.2.2 _ (mem_map_of_mem hr) _ (mem_map_of_mem hm)

theorem versions_withoutRow_buried {above below : List VersionRow} {m : VersionRow}
    (h : VersionConstraints (buried st bucket key since (below ++ m :: above))) :
    (withoutRow (buried st bucket key since (below ++ m :: above)) m.id).versions =
      demotedVersions st bucket key since ++ (below ++ above) := by
  have hne : below ++ m :: above ≠ [] := by simp
  have hnodup := h.ids_nodup
  have hdemoted : ∀ r ∈ demotedVersions st bucket key since, (r.id == m.id) = false := by
    intro r hr
    rw [beq_eq_false_iff_ne]
    exact id_ne_of_mem_demotedVersions hne h hr (by simp)
  rw [buried_of_ne_nil hne] at hnodup ⊢
  rw [map_append, nodup_append, map_append, map_cons, nodup_middle,
    nodup_cons, mem_append, not_or] at hnodup
  obtain ⟨-, ⟨⟨hbelow, habove⟩, -⟩, -⟩ := hnodup
  have hout : ∀ rows : List VersionRow, m.id ∉ rows.map (·.id) →
      deleteWhere (fun r => r.id == m.id) rows = rows := by
    intro rows hnot
    refine deleteWhere_of_forall_not fun r hr => ?_
    rw [beq_eq_false_iff_ne]
    exact fun heq => hnot (heq ▸ mem_map_of_mem hr)
  show deleteWhere (fun r => r.id == m.id)
    (demotedVersions st bucket key since ++ (below ++ m :: above)) = _
  have hbelow' := hout below hbelow
  have habove' := hout above habove
  have hdemoted' := deleteWhere_of_forall_not hdemoted
  rw [deleteWhere] at hbelow' habove' hdemoted' ⊢
  rw [filter_append, filter_append, hdemoted', hbelow',
    filter_cons_of_neg (by simp), habove']

end Stack

end IpfS3.Store
