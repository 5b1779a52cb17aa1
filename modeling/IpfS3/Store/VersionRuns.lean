import IpfS3.Store.VersionOperations

/-!
# The version index over whole runs

From a key that has never been written, every run of publications, deletions, lifecycle deletions
and changes of the versioning state keeps the version index of the key consistent: one latest row,
the one with the greatest sequence, and the current object that it stands for
(`versionIndex_invariant`).

`KeyInvariant` is the invariant in terms of the rows and the current object ids of a key;
`KeyInvariant.step` proves it for each thing an operation can do.
-/

namespace IpfS3.Store

open Table Transactions VersionStore List Option

/-- **The invariant of a key**: what its rows and its current object ids satisfy. -/
structure KeyInvariant (state : Option BucketVersioningState) (rows : List VersionRow)
    (current : List Text) : Prop where
  sequence_pos : ∀ r ∈ rows, 0 < r.sequence
  sequence_nodup : (rows.map (·.sequence)).Nodup
  null_unique : rows.countP (·.versionId.isNone) ≤ 1
  latest : rows ≠ [] → ∃ r, rows.filter (·.isLatest) = [r] ∧ ∀ r' ∈ rows, r'.sequence ≤ r.sequence
  noncurrent_iff : ∀ r ∈ rows, r.isLatest = true ↔ r.becameNoncurrentAt = none
  kinds : ∀ r ∈ rows, ∃ kind, versionKind r = .ok kind
  projection : current = (rows.filter (·.isLatest)).flatMap (·.objectId.toList)
  unversioned : state = some .unversioned → rows.length ≤ 1 ∧ ∀ r ∈ rows, r.versionId = none

variable {row : VersionRow}

section Step

variable {state : BucketVersioningState} {rows rows' : List VersionRow}
  {current current' : List Text}

theorem KeyInvariant.nil (state : Option BucketVersioningState) : KeyInvariant state [] [] where
  sequence_pos _ hr := absurd hr not_mem_nil
  sequence_nodup := nodup_nil
  null_unique := Nat.zero_le 1
  latest h := absurd rfl h
  noncurrent_iff _ hr := absurd hr not_mem_nil
  kinds _ hr := absurd hr not_mem_nil
  projection := rfl
  unversioned _ := ⟨Nat.zero_le 1, fun _ hr => absurd hr not_mem_nil⟩

theorem KeyInvariant.of_state {state state' : Option BucketVersioningState}
    (h : KeyInvariant state rows current)
    (hstate : state' = some .unversioned → state = some .unversioned) :
    KeyInvariant state' rows current :=
  { h with unversioned := fun hs => h.unversioned (hstate hs) }

variable {now : ℤ}

/-- **Demotion leaves no latest row.** -/
theorem KeyInvariant.mem_demotedRows {state : Option BucketVersioningState}
    (h : KeyInvariant state rows current) {r : VersionRow} (hr : r ∈ demotedRows now rows) :
    r.isLatest = false ∧ r.becameNoncurrentAt ≠ none ∧
      ∃ a ∈ rows, r.sequence = a.sequence ∧ r.versionId = a.versionId ∧
        versionKind r = versionKind a := by
  obtain ⟨a, ha, rfl⟩ := mem_updateWhere.mp hr
  split_ifs with hlatest
  · exact ⟨rfl, some_ne_none now, a, ha, rfl, rfl, rfl⟩
  · exact ⟨by simpa using hlatest, fun hnone => hlatest ((h.noncurrent_iff a ha).mpr hnone),
      a, ha, rfl, rfl, rfl⟩

theorem keptRows_sublist (state : BucketVersioningState) (rows : List VersionRow) :
    (keptRows state rows).Sublist rows := by
  cases state with
  | enabled => exact List.Sublist.refl rows
  | suspended => exact deleteWhere_sublist
  | unversioned => exact deleteWhere_sublist

theorem map_sequence_demotedRows (now : ℤ) (rows : List VersionRow) :
    (demotedRows now rows).map (·.sequence) = rows.map (·.sequence) :=
  map_updateWhere (g := VersionRow.sequence) fun _ _ => rfl

theorem countP_null_keptRows (hnull : row.versionId = none ↔ state ≠ .enabled)
    (hunique : rows.countP (·.versionId.isNone) ≤ 1) :
    (keptRows state (demotedRows now rows) ++ [row]).countP (·.versionId.isNone) ≤ 1 := by
  rw [countP_append, countP_singleton]
  have hdeleted : (deleteWhere (fun r : VersionRow => r.versionId.isNone)
      (demotedRows now rows)).countP (·.versionId.isNone) = 0 := by
    rw [countP_eq_zero]
    intro r hr
    rw [(mem_deleteWhere.mp hr).2]
    exact Bool.false_ne_true
  cases state with
  | enabled =>
    have hrow : row.versionId ≠ none := fun h => hnull.mp h rfl
    have hcount : (demotedRows now rows).countP (·.versionId.isNone) =
        rows.countP (·.versionId.isNone) := by
      rw [demotedRows, countP_updateWhere]
      exact fun _ _ _ => rfl
    rw [keptRows, hcount, if_neg (by simpa using hrow)]
    exact hunique
  | suspended =>
    rw [keptRows, hdeleted]
    split_ifs <;> simp
  | unversioned =>
    rw [keptRows, hdeleted]
    split_ifs <;> simp

/-- **An installation** makes the new row the latest one. -/
theorem KeyInvariant.install (h : KeyInvariant (some state) rows current) {kind : VersionKind}
    (hkind : versionKind row = .ok kind) (hlatest : row.isLatest = true)
    (hnoncurrent : row.becameNoncurrentAt = none)
    (hnull : row.versionId = none ↔ state ≠ .enabled) (hpos : 0 < row.sequence)
    (hlt : ∀ r ∈ rows, r.sequence < row.sequence) :
    KeyInvariant (some state) (keptRows state (demotedRows now rows) ++ [row])
      row.objectId.toList := by
  have hsub := keptRows_sublist state (demotedRows now rows)
  have hkept : ∀ r ∈ keptRows state (demotedRows now rows), r.isLatest = false ∧
      r.becameNoncurrentAt ≠ none ∧ ∃ a ∈ rows, r.sequence = a.sequence ∧
        r.versionId = a.versionId ∧ versionKind r = versionKind a :=
    fun r hr => h.mem_demotedRows (hsub.subset hr)
  have hfilter : (keptRows state (demotedRows now rows) ++ [row]).filter (·.isLatest) = [row] := by
    rw [filter_append, filter_cons_of_pos hlatest, filter_nil,
      filter_eq_nil_iff.mpr fun r hr => by rw [(hkept r hr).1]; exact Bool.false_ne_true,
      nil_append]
  have hmem : ∀ r ∈ keptRows state (demotedRows now rows) ++ [row],
      r ∈ keptRows state (demotedRows now rows) ∨ r = row := by
    intro r hr
    rwa [mem_append, mem_singleton] at hr
  refine ⟨fun r hr => ?_, ?_, countP_null_keptRows hnull h.null_unique, fun _ => ⟨row, hfilter,
    fun r hr => ?_⟩, fun r hr => ?_, fun r hr => ?_, ?_, fun hstate => ?_⟩
  · rcases hmem r hr with hr | rfl
    · obtain ⟨-, -, a, ha, hseq, -⟩ := hkept r hr
      rw [hseq]
      exact h.sequence_pos a ha
    · exact hpos
  · rw [map_append, map_singleton, nodup_append_comm, singleton_append,
      nodup_cons]
    refine ⟨fun hin => ?_, (map_sequence_demotedRows now rows ▸ h.sequence_nodup).sublist
      (hsub.map _)⟩
    obtain ⟨r, hr, hseq⟩ := mem_map.mp hin
    obtain ⟨-, -, a, ha, hseq', -⟩ := hkept r hr
    have := hlt a ha
    omega
  · rcases hmem r hr with hr | rfl
    · obtain ⟨-, -, a, ha, hseq, -⟩ := hkept r hr
      rw [hseq]
      exact (hlt a ha).le
    · exact le_rfl
  · rcases hmem r hr with hr | rfl
    · obtain ⟨hfalse, hsome, -⟩ := hkept r hr
      rw [hfalse]
      exact ⟨fun hcon => absurd hcon Bool.false_ne_true, fun hcon => absurd hcon hsome⟩
    · exact ⟨fun _ => hnoncurrent, fun _ => hlatest⟩
  · rcases hmem r hr with hr | rfl
    · obtain ⟨-, -, a, ha, -, -, hkind'⟩ := hkept r hr
      rw [hkind']
      exact h.kinds a ha
    · exact ⟨kind, hkind⟩
  · rw [hfilter, flatMap_singleton]
  · obtain rfl : state = .unversioned := some.inj hstate
    have hnil : keptRows .unversioned (demotedRows now rows) = [] := by
      rw [keptRows, deleteWhere, filter_eq_nil_iff]
      intro r hr
      obtain ⟨-, -, a, ha, -, hid, -⟩ := h.mem_demotedRows hr
      rw [hid, (h.unversioned rfl).2 a ha]
      simp
    rw [hnil, nil_append]
    refine ⟨le_rfl, fun r hr => ?_⟩
    rw [mem_singleton.mp hr, hnull]
    exact BucketVersioningState.noConfusion

section

variable {state : Option BucketVersioningState} (h : KeyInvariant state rows current)

include h

theorem KeyInvariant.filter_isLatest {a : VersionRow} (ha : a ∈ rows)
    (hlatest : a.isLatest = true) : rows.filter (·.isLatest) = [a] := by
  obtain ⟨r, hr, -⟩ := h.latest (ne_nil_of_mem ha)
  rw [hr, eq_of_filter_eq_singleton hr ha hlatest]

/-- **The deletion of a noncurrent row** keeps the latest one. -/
theorem KeyInvariant.remove {a : VersionRow}
    (ha : rows.filter (fun r => r.id == a.id) = [a]) (hlatest : a.isLatest = false) :
    KeyInvariant state (deleteWhere (fun r => r.id == a.id) rows) current := by
  have hsub : (deleteWhere (fun r => r.id == a.id) rows).Sublist rows := deleteWhere_sublist
  have hfilter : (deleteWhere (fun r => r.id == a.id) rows).filter (·.isLatest) =
      rows.filter (·.isLatest) := by
    rw [filter_deleteWhere]
    refine deleteWhere_of_forall_not fun r hr => ?_
    obtain ⟨hmem, hlatest'⟩ := mem_filter.mp hr
    rw [Bool.eq_false_iff]
    intro hid
    rw [eq_of_filter_eq_singleton ha hmem hid, hlatest] at hlatest'
    exact Bool.false_ne_true hlatest'
  refine ⟨fun r hr => h.sequence_pos r (hsub.subset hr), h.sequence_nodup.sublist (hsub.map _),
    hsub.countP_le.trans h.null_unique, fun hne => ?_,
    fun r hr => h.noncurrent_iff r (hsub.subset hr), fun r hr => h.kinds r (hsub.subset hr),
    hfilter ▸ h.projection, fun hstate => ?_⟩
  · obtain ⟨r, hr, hmax⟩ := h.latest fun hnil => hne (by rw [hnil]; rfl)
    exact ⟨r, hfilter.trans hr, fun r' hr' => hmax r' (hsub.subset hr')⟩
  · obtain ⟨hlength, hnull⟩ := h.unversioned hstate
    exact ⟨hsub.length_le.trans hlength, fun r hr => hnull r (hsub.subset hr)⟩

/-- **The promotion of the survivor** with the greatest sequence. -/
theorem KeyInvariant.promote {a survivor : VersionRow}
    (ha : rows.filter (fun r => r.id == a.id) = [a]) (hlatest : a.isLatest = true)
    (hsurvivor : greatest VersionRow.sequence (deleteWhere (fun r => r.id == a.id) rows) =
      some survivor)
    (hcount : (demotedRows now (deleteWhere (fun r => r.id == a.id) rows)).countP
      (isPromotable survivor.id) ≤ 1) :
    KeyInvariant state
      (updateWhere (isPromotable survivor.id) promotedRow
        (demotedRows now (deleteWhere (fun r => r.id == a.id) rows)))
      survivor.objectId.toList := by
  have hmem : a ∈ rows := (mem_filter.mp (ha ▸ mem_singleton_self a)).1
  have hsub : (deleteWhere (fun r => r.id == a.id) rows).Sublist rows := deleteWhere_sublist
  -- only the deleted row was latest, so there is nothing to demote
  have hfalse : ∀ r ∈ deleteWhere (fun r => r.id == a.id) rows, r.isLatest = false := by
    intro r hr
    rw [Bool.eq_false_iff]
    intro hlatest'
    obtain ⟨hr, hid⟩ := mem_deleteWhere.mp hr
    rw [eq_of_filter_eq_singleton (h.filter_isLatest hmem hlatest) hr hlatest', beq_self_eq_true]
      at hid
    cases hid
  rw [demotedRows, updateWhere_of_forall_not hfalse] at hcount ⊢
  have hsurvivor' := mem_of_greatest hsurvivor
  have hmax : ∀ r ∈ deleteWhere (fun r => r.id == a.id) rows, r.sequence ≤ survivor.sequence :=
    fun r hr => le_of_greatest hsurvivor hr
  generalize deleteWhere (fun r => r.id == a.id) rows = rest at hsub hfalse hcount hsurvivor' hmax ⊢
  have hpromotable : rest.filter (isPromotable survivor.id) = [survivor] := by
    have hself : isPromotable survivor.id survivor = true := by
      rw [isPromotable, beq_self_eq_true, hfalse survivor hsurvivor', Bool.not_false, Bool.and_true]
    have hpos : 0 < rest.countP (isPromotable survivor.id) :=
      countP_pos_iff.mpr ⟨survivor, hsurvivor', hself⟩
    obtain ⟨x, hx⟩ := exists_filter_eq_singleton (le_antisymm hcount hpos)
    rw [hx, eq_of_filter_eq_singleton hx hsurvivor' hself]
  have hfilter : (updateWhere (isPromotable survivor.id) promotedRow rest).filter (·.isLatest) =
      [promotedRow survivor] := by
    rw [filter_updateWhere_eq_map (fun r _ _ => rfl) fun r hr _ => hfalse r hr, hpromotable,
      map_singleton]
  have hsequence : (updateWhere (isPromotable survivor.id) promotedRow rest).map (·.sequence) =
      rest.map (·.sequence) := map_updateWhere (g := VersionRow.sequence) fun _ _ => rfl
  have hcases : ∀ r ∈ updateWhere (isPromotable survivor.id) promotedRow rest, ∃ b ∈ rest,
      r.sequence = b.sequence ∧ r.versionId = b.versionId ∧ versionKind r = versionKind b ∧
        (r.isLatest = true ↔ r.becameNoncurrentAt = none) := by
    intro r hr
    obtain ⟨b, hb, rfl⟩ := mem_updateWhere.mp hr
    refine ⟨b, hb, ?_⟩
    split_ifs
    · exact ⟨rfl, rfl, rfl, fun _ => rfl, fun _ => rfl⟩
    · exact ⟨rfl, rfl, rfl, h.noncurrent_iff b (hsub.subset hb)⟩
  refine ⟨fun r hr => ?_, hsequence ▸ h.sequence_nodup.sublist (hsub.map _), ?_,
    fun _ => ⟨promotedRow survivor, hfilter, fun r hr => ?_⟩, fun r hr => ?_, fun r hr => ?_, ?_,
    fun hstate => ?_⟩
  · obtain ⟨b, hb, hseq, -⟩ := hcases r hr
    rw [hseq]
    exact h.sequence_pos b (hsub.subset hb)
  · rw [countP_updateWhere]
    · exact hsub.countP_le.trans h.null_unique
    · exact fun _ _ _ => rfl
  · obtain ⟨b, hb, hseq, -⟩ := hcases r hr
    rw [hseq]
    exact hmax b hb
  · obtain ⟨-, -, -, -, -, hiff⟩ := hcases r hr
    exact hiff
  · obtain ⟨b, hb, -, -, hkind, -⟩ := hcases r hr
    rw [hkind]
    exact h.kinds b (hsub.subset hb)
  · rw [hfilter, flatMap_singleton]
    rfl
  · obtain ⟨hlength, hnull⟩ := h.unversioned hstate
    refine ⟨?_, fun r hr => ?_⟩
    · rw [updateWhere, length_map]
      exact hsub.length_le.trans hlength
    · obtain ⟨b, hb, -, hid, -⟩ := hcases r hr
      rw [hid]
      exact hnull b (hsub.subset hb)

end

theorem objectId_eq_none_of_marker (hkind : row.kind = some .deleteMarker)
    (h : ∃ kind, versionKind row = .ok kind) : row.objectId = none := by
  obtain ⟨kind, h⟩ := h
  rw [versionKind, hkind] at h
  cases hobject : row.objectId with
  | none => rfl
  | some id =>
    rw [hobject] at h
    cases h

/-- **Every operation keeps the invariant** of the key it works on. -/
theorem KeyInvariant.step (h : KeyInvariant (some state) rows current)
    (hstep : KeyStep state rows current rows' current') :
    KeyInvariant (some state) rows' current' := by
  cases hstep with
  | unchanged => exact h
  | install now row kind hkind hlatest hnoncurrent hnull hsequence =>
    obtain ⟨hpos, hlt⟩ := hsequence h.sequence_pos
    exact h.install hkind hlatest hnoncurrent hnull hpos hlt
  | clear hstate =>
    have hnil : deleteWhere (fun r : VersionRow => r.versionId.isNone) rows = [] := by
      rw [deleteWhere, filter_eq_nil_iff]
      intro r hr
      rw [(h.unversioned (congrArg some hstate)).2 r hr]
      simp
    rw [hnil]
    exact KeyInvariant.nil _
  | remove a ha hlatest => exact h.remove ha hlatest
  | removeLast a ha hnone => exact KeyInvariant.nil _
  | promote now a survivor kind ha hlatest hsurvivor hkind hcount =>
    exact h.promote ha hlatest hsurvivor hcount
  | removeMarker a ha hkind hlatest =>
    subst ha
    have hcurrent := h.projection
    rw [filter_cons_of_pos hlatest, filter_nil, flatMap_singleton,
      objectId_eq_none_of_marker hkind (h.kinds a mem_cons_self)] at hcurrent
    rw [hcurrent]
    exact KeyInvariant.nil _

end Step

/-! ## Runs -/

section Run

variable {st st' : VersionStore} {bucket key : Text}

/-- The invariant of a key in a database state. -/
def KeyConsistent (st : VersionStore) (bucket key : Text) : Prop :=
  KeyInvariant (st.states.lookup bucket) (st.keyRows bucket key)
    ((st.currentObjects bucket key).map (·.id))

/-- **One transaction** on any key of any bucket keeps the invariant of every key. -/
theorem KeyConsistent.transact (h : KeyConsistent st bucket key) {op : VersionOperation}
    (hop : transact st op = .ok st') : KeyConsistent st' bucket key := by
  rcases transact_spec hop with ⟨state, bucket', key', hstate, rows, current, hwrites, hstep⟩ |
    ⟨hobjects, hversions, hstates⟩
  · rw [KeyConsistent, hwrites.states_eq]
    by_cases hkey : bucket = bucket' ∧ key = key'
    · obtain ⟨rfl, rfl⟩ := hkey
      rw [KeyConsistent, hstate] at h
      rw [hwrites.rows_eq, hwrites.current_eq, hstate]
      exact h.step hstep
    · rw [hwrites.frame_rows _ _ hkey, hwrites.frame_current _ _ hkey]
      exact h
  · rw [KeyConsistent, keyRows, currentObjects, hobjects, hversions]
    exact h.of_state (hstates bucket)

theorem keyConsistent_run (h : KeyConsistent st bucket key) (ops : List VersionOperation) :
    KeyConsistent (run transact st ops) bucket key := by
  have hstep : ∀ (st : VersionStore) (op : VersionOperation) (st' : VersionStore),
      KeyConsistent st bucket key → transact st op = .ok st' → KeyConsistent st' bucket key :=
    fun _ _ _ h hop => h.transact hop
  exact run_invariant hstep h ops

/-- **A consistent version index**, column by column. -/
structure VersionIndexInvariant (st : VersionStore) (bucket key : Text) : Prop where
  sequence_pos : ∀ r ∈ st.keyRows bucket key, 0 < r.sequence
  sequence_distinct : (st.keyRows bucket key).Pairwise fun a b => a.sequence ≠ b.sequence
  null_unique : ((st.keyRows bucket key).filter fun r => r.versionId.isNone).length ≤ 1
  latest_unique : st.keyRows bucket key ≠ [] →
    ∃ r, (st.keyRows bucket key).filter (·.isLatest) = [r] ∧
      ∀ r' ∈ st.keyRows bucket key, r'.sequence ≤ r.sequence
  noncurrent_iff : ∀ r ∈ st.keyRows bucket key, r.isLatest = true ↔ r.becameNoncurrentAt = none
  kind_known : ∀ r ∈ st.keyRows bucket key, r.kind = some .object ∨ r.kind = some .deleteMarker
  content_current : ∀ r ∈ st.keyRows bucket key, r.isLatest = true → r.kind = some .object →
    ∃ o, st.currentObjects bucket key = [o] ∧ r.objectId = some o.id
  marker_current : ∀ r ∈ st.keyRows bucket key, r.isLatest = true → r.kind = some .deleteMarker →
    st.currentObjects bucket key = []
  empty_current : st.keyRows bucket key = [] → st.currentObjects bucket key = []
  unversioned : st.states.lookup bucket = some .unversioned →
    (st.keyRows bucket key).length ≤ 1 ∧ ∀ r ∈ st.keyRows bucket key, r.versionId = none

theorem versionKind_cases (h : ∃ kind, versionKind row = .ok kind) :
    (row.kind = some .object ∧ ∃ id, row.objectId = some id) ∨
      (row.kind = some .deleteMarker ∧ row.objectId = none) := by
  obtain ⟨kind, h⟩ := h
  rw [versionKind] at h
  split at h
  · exact Or.inl ⟨‹_›, _, ‹_›⟩
  · exact Or.inr ⟨‹_›, ‹_›⟩
  · cases h

theorem KeyConsistent.versionIndexInvariant (h : KeyConsistent st bucket key) :
    VersionIndexInvariant st bucket key where
  sequence_pos := h.sequence_pos
  sequence_distinct := pairwise_map.mp h.sequence_nodup
  null_unique := by
    rw [← countP_eq_length_filter]
    exact h.null_unique
  latest_unique := h.latest
  noncurrent_iff := h.noncurrent_iff
  kind_known r hr := (versionKind_cases (h.kinds r hr)).imp And.left And.left
  content_current r hr hlatest hkind := by
    have hcurrent := h.projection
    rw [h.filter_isLatest hr hlatest, flatMap_singleton] at hcurrent
    rcases versionKind_cases (h.kinds r hr) with ⟨-, id, hid⟩ | ⟨hmarker, -⟩
    · rw [hid, toList_some, map_eq_singleton_iff] at hcurrent
      obtain ⟨o, ho, rfl⟩ := hcurrent
      exact ⟨o, ho, hid⟩
    · rw [hkind] at hmarker
      cases hmarker
  marker_current r hr hlatest hkind := by
    have hcurrent := h.projection
    rw [h.filter_isLatest hr hlatest, flatMap_singleton,
      objectId_eq_none_of_marker hkind (h.kinds r hr)] at hcurrent
    exact map_eq_nil_iff.mp hcurrent
  empty_current hnil := by
    have hcurrent := h.projection
    rw [hnil] at hcurrent
    exact map_eq_nil_iff.mp hcurrent
  unversioned := h.unversioned

/-- **The version index over whole runs.**  From a key without version rows and without a current
object, every sequence of publications, deletions, lifecycle deletions and changes of versioning
states, on this and on other keys, leads to a consistent version index. -/
theorem versionIndex_invariant (st : VersionStore) (bucket key : Text)
    (hrows : st.keyRows bucket key = []) (hcurrent : st.currentObjects bucket key = [])
    (ops : List VersionOperation) : VersionIndexInvariant (run transact st ops) bucket key := by
  have hst : KeyConsistent st bucket key := by
    rw [KeyConsistent, hrows, hcurrent]
    exact KeyInvariant.nil _
  exact (keyConsistent_run hst ops).versionIndexInvariant

end Run

/-! ## A run through the three states -/

def sampleUuidText (digit : Fin 10) : Text :=
  replicate 8 48 ++ [45] ++ replicate 4 48 ++ [45] ++ replicate 4 48 ++ [45] ++
    replicate 4 48 ++ [45] ++ replicate 11 48 ++ [48 + UInt8.ofNat digit]

theorem isCanonicalUuid_sampleUuidText : ∀ digit : Fin 10,
    isCanonicalUuid (sampleUuidText digit) = true := by decide

def sampleIds (row version : Fin 10) : InstallIds :=
  ⟨⟨sampleUuidText row, isCanonicalUuid_sampleUuidText row⟩,
    ⟨sampleUuidText version, isCanonicalUuid_sampleUuidText version⟩⟩

/-- An object of the key `[107]` in the bucket `[98]`. -/
def sampleObject (id : UInt8) : Object := ⟨[id], [98], [107], [99], 1, [101], 0, false⟩

/-- Content in each state, a delete marker, and the deletion of the marker. -/
def sampleRun : List VersionOperation :=
  [.publish (sampleObject 1) (sampleIds 0 0) 10,
    .setVersioningState [98] .enabled,
    .publish (sampleObject 2) (sampleIds 1 1) 11,
    .deleteVersion [98] [107] .current (sampleIds 2 2) 12 12,
    .setVersioningState [98] .suspended,
    .publish (sampleObject 3) (sampleIds 3 3) 13,
    .deleteVersion [98] [107] (.exact .null) (sampleIds 4 4) 14 14,
    .deleteVersion [98] [107] (.exact (.opaqueId (sampleUuidText 2))) (sampleIds 5 5) 15 15]

/-- The run ends with the second content version as the current one. -/
theorem versionIndex_invariant_sampleRun :
    VersionIndexInvariant (run transact ⟨[([98], .unversioned)], [], []⟩ sampleRun) [98] [107] ∧
      ((run transact ⟨[([98], .unversioned)], [], []⟩ sampleRun).currentObjects [98] [107]).map
        (·.id) = [[2]] :=
  ⟨versionIndex_invariant _ _ _ rfl rfl sampleRun, by decide +kernel⟩

end IpfS3.Store
