import IpfS3.Store.VersionRuns

/-!
# What the operations leave alone

The statements behind a publication or a deletion select rows by key and latest flag, by key and
null version id, or by row id.  A `Frame` says which rows of the key such a transaction may remove:
all other rows of the key keep every column except the latest flag and the time they became
noncurrent, and the rows and objects of other keys are as before.

An enabled bucket gives up no row (`Installs.frame`), the other two states at most the null slot,
and an exact deletion the one row that it names (`Removes.frame`).  Over a run, an opaque version
therefore disappears only through a transaction that names it (`opaque_version_survives_run`).
-/

namespace IpfS3.Store

open Table Fallible Transactions VersionStore List Option

variable {st st' : VersionStore} {bucket key : Text} {state : BucketVersioningState}

/-- **A transaction on one key** removes only rows of `gone` and adds at most one row. -/
structure Frame (st st' : VersionStore) (bucket key : Text) (gone : VersionRow → Bool) : Prop where
  rows : ∃ added : List FixedColumns, added.length ≤ 1 ∧
    (st'.keyRows bucket key).map VersionRow.fixed =
      (deleteWhere gone (st.keyRows bucket key)).map VersionRow.fixed ++ added
  other_rows : ∀ bucket' key', ¬(bucket' = bucket ∧ key' = key) →
    st'.keyRows bucket' key' = st.keyRows bucket' key'
  other_objects : ∀ bucket' key', ¬(bucket' = bucket ∧ key' = key) →
    st'.keyObjects bucket' key' = st.keyObjects bucket' key'

/-- The rows of its key that an installation in a state gives up. -/
def givenUp (state : BucketVersioningState) (row : VersionRow) : Bool :=
  match state with
  | .enabled => false
  | .suspended | .unversioned => row.versionId.isNone

theorem keptRows_eq_deleteWhere (state : BucketVersioningState) (rows : List VersionRow) :
    keptRows state rows = deleteWhere (givenUp state) rows := by
  cases state with
  | enabled => exact (deleteWhere_of_forall_not fun _ _ => rfl).symm
  | suspended => rfl
  | unversioned => rfl

theorem map_fixed_deleteWhere_demotedRows (state : BucketVersioningState) (now : ℤ)
    (rows : List VersionRow) :
    (deleteWhere (givenUp state) (demotedRows now rows)).map VersionRow.fixed =
      (deleteWhere (givenUp state) rows).map VersionRow.fixed := by
  have hcomm : deleteWhere (givenUp state) (demotedRows now rows) =
      demotedRows now (deleteWhere (givenUp state) rows) :=
    filter_updateWhere fun r _ _ => by
      cases state <;> rfl
  rw [hcomm, map_fixed_demotedRows]

/-- **An installation** gives up what its state gives up. -/
theorem Installs.frame (h : Installs st st' state bucket key) :
    Frame st st' bucket key (givenUp state) := by
  obtain ⟨now, row, kind, hwrites, -⟩ := h
  refine ⟨⟨[row.fixed], le_rfl, ?_⟩, hwrites.frame_rows, hwrites.frame_objects⟩
  rw [hwrites.rows_eq, keptRows_eq_deleteWhere, map_append, map_fixed_deleteWhere_demotedRows,
    map_singleton]

variable {result : DeleteVersionResult} {row : VersionRow}

theorem frame_deleteCurrent {ids : InstallIds} {now : ℤ}
    (h : st.deleteCurrent bucket key state ids now = .ok (st', result)) :
    Frame st st' bucket key (givenUp state) := by
  rcases deleteCurrent_spec h with hinstalls | ⟨rfl, hwrites⟩
  · exact hinstalls.frame
  · refine ⟨⟨[], Nat.zero_le 1, ?_⟩, hwrites.frame_rows, hwrites.frame_objects⟩
    rw [hwrites.rows_eq, append_nil]
    rfl

/-- **A removal** takes the one row with the id. -/
theorem Removes.frame {a : VersionRow} (h : Removes st st' bucket key a)
    (hstep : StepsKey st st' state bucket key) : Frame st st' bucket key fun r => r.id == a.id := by
  obtain ⟨rows, current, hwrites, -⟩ := hstep
  refine ⟨⟨[], Nat.zero_le 1, ?_⟩, hwrites.frame_rows, hwrites.frame_objects⟩
  rw [h.rows, append_nil]

theorem Frame.refl (st : VersionStore) (bucket key : Text) :
    Frame st st bucket key fun _ => false := by
  refine ⟨⟨[], Nat.zero_le 1, ?_⟩, fun _ _ _ => rfl, fun _ _ _ => rfl⟩
  rw [deleteWhere_of_forall_not fun _ _ => rfl, append_nil]

theorem frame_deleteExactCore {versionId : PublicVersionId} {now : ℤ}
    (h : st.deleteExactCore bucket key versionId now = .ok (st', result)) :
    ∃ a, a.versionId = asDbValue versionId ∧ Removes st st' bucket key a ∧
      Frame st st' bucket key fun r => r.id == a.id := by
  have hspec : StepsKey st st' .enabled bucket key ∧ _ := deleteExactCore_spec h
  obtain ⟨hstep, a, hid, hremoves⟩ := hspec
  exact ⟨a, hid, hremoves, hremoves.frame hstep⟩

theorem deleteCurrentSoleMarker_eq_ok {selected : VersionRow}
    {result : ExactCurrentMarkerDeleteResult}
    (h : st.deleteCurrentSoleMarker selected = .ok (st', result)) : st' = st ∨
      st' = { st with versions := deleteWhere (isSoleMarker selected) st.versions } := by
  rw [deleteCurrentSoleMarker] at h
  by_cases hlatest : selected.isLatest = false
  · rw [if_pos hlatest] at h
    exact Or.inl (Prod.mk.inj (Except.ok.inj h)).1.symm
  · rw [if_neg hlatest] at h
    obtain ⟨kind, -, h⟩ := of_bind h
    split_ifs at h
    · exact Or.inl (Prod.mk.inj (Except.ok.inj h)).1.symm
    · exact Or.inl (Prod.mk.inj (Except.ok.inj h)).1.symm
    · exact Or.inr (Prod.mk.inj (Except.ok.inj h)).1.symm
    · dsimp only at h
      split_ifs at h
      · exact Or.inr (Prod.mk.inj (Except.ok.inj h)).1.symm
      · exact Or.inr (Prod.mk.inj (Except.ok.inj h)).1.symm

theorem frame_deleteCurrentSoleMarker {selected : VersionRow}
    {result : ExactCurrentMarkerDeleteResult}
    (h : st.deleteCurrentSoleMarker selected = .ok (st', result)) :
    ∃ gone, (∀ r, gone r = true → r.id = selected.id) ∧
      Frame st st' selected.bucket selected.key gone := by
  rcases deleteCurrentSoleMarker_eq_ok h with rfl | rfl
  · exact ⟨fun _ => false, fun _ hr => absurd hr Bool.false_ne_true, Frame.refl st' _ _⟩
  · have hwrites : Writes st
        { st with versions := deleteWhere (isSoleMarker selected) st.versions } selected.bucket
        selected.key _ _ := Writes.delete fun r _ hr => (isSoleMarker_spec hr).1
    refine ⟨isSoleMarker selected, fun r hr => ?_, ⟨[], Nat.zero_le 1, ?_⟩, hwrites.frame_rows,
      hwrites.frame_objects⟩
    · simp only [isSoleMarker, Bool.and_eq_true, beq_iff_eq] at hr
      exact hr.1.1.1.1.1.1
    · rw [hwrites.rows_eq, append_nil]

/-! ## Opaque versions -/

/-- The transaction is an exact deletion of the version: one that a client asks for by its id, or
the expiration of a noncurrent version or of a delete marker that is its target. -/
def VersionOperation.Names (row : VersionRow) : VersionOperation → Prop
  | .deleteVersion bucket key (.exact versionId) _ _ _ =>
    row.bucket = bucket ∧ row.key = key ∧ row.versionId = asDbValue versionId
  | .lifecycleDelete target .expireNoncurrent _ _ _ =>
    row.bucket = target.bucket ∧ row.key = target.key ∧
      row.versionId = asDbValue target.publicVersionId
  | .lifecycleDelete target .deleteExpiredMarker _ _ _ => row.id = target.versionRowId
  | _ => False

/-- The row is still there, up to its latest flag and the time it became noncurrent. -/
def Survives (row : FixedColumns) (st : VersionStore) : Prop :=
  ∃ r ∈ st.versions, r.fixed = row

theorem Frame.survives {gone : VersionRow → Bool} (h : Frame st st' bucket key gone)
    (hrow : row ∈ st.versions) (hgone : row ∈ st.keyRows bucket key → gone row = false) :
    Survives row.fixed st' := by
  by_cases hkey : row.bucket = bucket ∧ row.key = key
  · obtain ⟨added, -, hrows⟩ := h.rows
    have hmem : row ∈ st.keyRows bucket key :=
      mem_filter.mpr ⟨hrow, ofKey_eq_true_iff.mpr hkey⟩
    have hkept : row.fixed ∈ (st'.keyRows bucket key).map VersionRow.fixed := by
      rw [hrows]
      exact mem_append_left _
        (mem_map_of_mem (mem_deleteWhere.mpr ⟨hmem, hgone hmem⟩))
    obtain ⟨r, hr, hfixed⟩ := mem_map.mp hkept
    exact ⟨r, (mem_filter.mp hr).1, hfixed⟩
  · have hmem : row ∈ st.keyRows row.bucket row.key :=
      mem_filter.mpr ⟨hrow, ofKey_eq_true_iff.mpr ⟨rfl, rfl⟩⟩
    rw [← h.other_rows _ _ hkey] at hmem
    exact ⟨row, (mem_filter.mp hmem).1, rfl⟩

theorem givenUp_eq_false (h : row.versionId ≠ none) :
    givenUp state row = false := by
  cases state with
  | enabled => rfl
  | suspended => exact isNone_eq_false_iff.mpr (isSome_iff_ne_none.mpr h)
  | unversioned => exact isNone_eq_false_iff.mpr (isSome_iff_ne_none.mpr h)

theorem survives_deleteExactCore {versionId : PublicVersionId} {now : ℤ}
    (h : st.deleteExactCore bucket key versionId now = .ok (st', result))
    (hrow : row ∈ st.versions)
    (hnames : ¬(row.bucket = bucket ∧ row.key = key ∧ row.versionId = asDbValue versionId)) :
    Survives row.fixed st' := by
  obtain ⟨a, hid, hremoves, hframe⟩ := frame_deleteExactCore h
  refine hframe.survives hrow fun hmem => Bool.eq_false_iff.mpr fun heq => hnames ?_
  obtain ⟨hbucket, hkey⟩ := ofKey_eq_true_iff.mp (mem_filter.mp hmem).2
  exact ⟨hbucket, hkey, (congrArg VersionRow.versionId
    (eq_of_filter_eq_singleton hremoves.unique hmem heq)).trans hid⟩

/-- **One transaction** keeps every opaque version that it does not name. -/
theorem survives_transact {op : VersionOperation} (h : transact st op = .ok st')
    (hrow : row ∈ st.versions) (hsome : row.versionId ≠ none) (hnames : ¬op.Names row) :
    Survives row.fixed st' := by
  cases op with
  | publish object ids now =>
    obtain ⟨state, -, h⟩ := of_bind h
    obtain ⟨⟨st₁, versionId⟩, hwrite, h⟩ := of_bind h
    cases h
    exact (writeObjectVersion_spec hwrite).frame.survives hrow fun _ => givenUp_eq_false hsome
  | deleteVersion bucket key selector ids now databaseNow =>
    obtain ⟨⟨st₁, result⟩, hdelete, h⟩ := of_bind h
    cases h
    obtain ⟨state, -, hdelete⟩ := of_bind hdelete
    cases selector with
    | current =>
      exact (frame_deleteCurrent hdelete).survives hrow fun _ => givenUp_eq_false hsome
    | exact versionId =>
      obtain ⟨-, hdelete⟩ := of_ensure hdelete
      exact survives_deleteExactCore hdelete hrow hnames
  | lifecycleDelete target action ids now databaseNow =>
    obtain ⟨⟨st₁, result⟩, hdelete, h⟩ := of_bind h
    cases h
    obtain ⟨state, -, hcases⟩ := executeLifecycleDelete_cases hdelete
    rcases hcases with hsame | ⟨-, deleted, hdelete⟩ | ⟨rfl, selected, deleted, hid, -, -, hdelete⟩ |
      ⟨rfl, deleted, hdelete⟩
    · exact ⟨row, hsame ▸ hrow, rfl⟩
    · exact (frame_deleteCurrent hdelete).survives hrow fun _ => givenUp_eq_false hsome
    · obtain ⟨gone, hgone, hframe⟩ := frame_deleteCurrentSoleMarker hdelete
      exact hframe.survives hrow fun _ =>
        Bool.eq_false_iff.mpr fun heq => hnames ((hgone row heq).trans hid)
    · exact survives_deleteExactCore hdelete hrow hnames
  | setVersioningState bucket state =>
    obtain ⟨-, hversions, -⟩ := setVersioningState_spec h
    exact ⟨row, hversions ▸ hrow, rfl⟩

theorem names_congr {row' : VersionRow} (h : row.fixed = row'.fixed) (op : VersionOperation) :
    op.Names row ↔ op.Names row' := by
  rw [VersionRow.fixed, VersionRow.fixed, FixedColumns.mk.injEq] at h
  obtain ⟨hid, hbucket, hkey, hversion, -⟩ := h
  unfold VersionOperation.Names
  rw [hid, hbucket, hkey, hversion]

/-- **An opaque version survives every run** that does not name it. -/
theorem opaque_version_survives_run (hrow : row ∈ st.versions) (hsome : row.versionId ≠ none)
    {ops : List VersionOperation} (hops : ∀ op ∈ ops, ¬op.Names row) :
    Survives row.fixed (run transact st ops) := by
  have hstep : ∀ (st : VersionStore) (op : VersionOperation) (st' : VersionStore),
      ¬op.Names row → Survives row.fixed st → transact st op = .ok st' →
        Survives row.fixed st' := by
    rintro st op st' hnames ⟨r, hr, hfixed⟩ h
    have hversion : r.versionId = row.versionId := congrArg FixedColumns.versionId hfixed
    rw [← hfixed]
    exact survives_transact h hr (hversion ▸ hsome) fun hr => hnames ((names_congr hfixed op).mp hr)
  exact run_invariant_of_forall hstep ⟨row, hrow, rfl⟩ hops

/-! ## The frame -/

/-- A publication of the key, or a deletion of its current version. -/
def VersionOperation.Installs (bucket key : Text) : VersionOperation → Prop
  | .publish object _ _ => object.bucket = bucket ∧ object.key = key
  | .deleteVersion bucket' key' .current _ _ _ => bucket' = bucket ∧ key' = key
  | _ => False

theorem frame_of_installs {op : VersionOperation} (h : transact st op = .ok st')
    (hop : op.Installs bucket key) :
    ∃ state, st.states.lookup bucket = some state ∧ Frame st st' bucket key (givenUp state) := by
  cases op with
  | publish object ids now =>
    obtain ⟨rfl, rfl⟩ := hop
    obtain ⟨state, hstate, h⟩ := of_bind h
    obtain ⟨⟨st₁, versionId⟩, hwrite, h⟩ := of_bind h
    cases h
    exact ⟨state, getVersioningState_eq_ok_iff.mp hstate, (writeObjectVersion_spec hwrite).frame⟩
  | deleteVersion bucket' key' selector ids now databaseNow =>
    cases selector with
    | current =>
      obtain ⟨rfl, rfl⟩ := hop
      obtain ⟨⟨st₁, result⟩, hdelete, h⟩ := of_bind h
      cases h
      obtain ⟨state, hstate, hdelete⟩ := of_bind hdelete
      exact ⟨state, getVersioningState_eq_ok_iff.mp hstate, frame_deleteCurrent hdelete⟩
    | exact versionId => exact hop.elim
  | lifecycleDelete target action ids now databaseNow => exact hop.elim
  | setVersioningState bucket state => exact hop.elim

/-- **The frame of the versioning operations** on a key. -/
structure VersioningFrame (st : VersionStore) (bucket key : Text) : Prop where
  /-- On an enabled bucket, publications and deletions of the current version remove no row. -/
  enabled : st.states.lookup bucket = some .enabled → ∀ op st', op.Installs bucket key →
    transact st op = .ok st' → Frame st st' bucket key fun _ => false
  /-- In the other states they remove at most the null version. -/
  null_slot : st.states.lookup bucket ≠ some .enabled → ∀ op st', op.Installs bucket key →
    transact st op = .ok st' → Frame st st' bucket key fun r => r.versionId.isNone
  null_unique : ((st.keyRows bucket key).filter fun r => r.versionId.isNone).length ≤ 1
  /-- An exact deletion removes one row, with the requested version id, and adds none; where the unique
  index of the table holds, it is the only row with that id. -/
  exact : ∀ versionId ids now databaseNow st',
    transact st (.deleteVersion bucket key (.exact versionId) ids now databaseNow) = .ok st' →
      ∃ a, a.versionId = asDbValue versionId ∧ Removes st st' bucket key a ∧
        Frame st st' bucket key (fun r => r.id == a.id) ∧
        (((st.keyRows bucket key).map VersionRow.versionId).Nodup →
          (st'.keyRows bucket key).map VersionRow.fixed = (deleteWhere
            (fun r => r.versionId == asDbValue versionId) (st.keyRows bucket key)).map VersionRow.fixed)
  /-- An opaque version only ever disappears through an exact deletion that names it. -/
  opaque_version : ∀ row ∈ st.keyRows bucket key, row.versionId ≠ none → ∀ ops,
    ¬Survives row.fixed (run transact st ops) → ∃ op ∈ ops, op.Names row

/-- **Versioning frame**, in every state with a consistent version index. -/
theorem versioning_frame (st : VersionStore) (bucket key : Text)
    (h : VersionIndexInvariant st bucket key) : VersioningFrame st bucket key where
  enabled := by
    intro hstate op st' hop htransact
    obtain ⟨state, hlookup, hframe⟩ := frame_of_installs htransact hop
    cases hstate.symm.trans hlookup
    exact hframe
  null_slot := by
    intro hstate op st' hop htransact
    obtain ⟨state, hlookup, hframe⟩ := frame_of_installs htransact hop
    cases state with
    | enabled => exact absurd hlookup hstate
    | suspended => exact hframe
    | unversioned => exact hframe
  null_unique := h.null_unique
  exact := by
    intro versionId ids now databaseNow st' htransact
    obtain ⟨⟨st₁, result⟩, hdelete, htransact⟩ := of_bind htransact
    cases htransact
    obtain ⟨state, -, hdelete⟩ := of_bind hdelete
    obtain ⟨-, hdelete⟩ := of_ensure hdelete
    obtain ⟨a, hid, hremoves, hframe⟩ := frame_deleteExactCore hdelete
    refine ⟨a, hid, hremoves, hframe, fun hnodup => hremoves.rows.trans (congrArg _ ?_)⟩
    refine filter_congr fun r hr => congrArg (! ·) ?_
    have ha := (mem_filter.mp (hremoves.unique ▸ mem_singleton_self a)).1
    rw [Bool.eq_iff_iff, beq_iff_eq, ← hid]
    constructor
    · exact fun heq => beq_iff_eq.mpr (congrArg VersionRow.versionId
        (eq_of_filter_eq_singleton hremoves.unique hr (beq_iff_eq.mpr heq)))
    · exact fun heq => congrArg VersionRow.id
        (inj_on_of_nodup_map hnodup hr ha (beq_iff_eq.mp heq))
  opaque_version := by
    intro row hrow hsome ops hgone
    by_contra hnames
    refine hgone (opaque_version_survives_run (mem_filter.mp hrow).1 hsome fun op hop => ?_)
    exact fun hname => hnames ⟨op, hop, hname⟩

/-- After two versions and a marker in an enabled bucket: a publication removes nothing, and an exact
deletion the version that it names. -/
theorem versioning_frame_sampleRun :
    let st := run transact ⟨[([98], .unversioned)], [], []⟩ (sampleRun.take 4)
    (∃ st', transact st (.publish (sampleObject 3) (sampleIds 3 3) 13) = .ok st' ∧
      Frame st st' [98] [107] fun _ => false) ∧
    ∃ st' a, transact st (.deleteVersion [98] [107] (.exact (.opaqueId (sampleUuidText 1)))
        (sampleIds 3 3) 13 13) = .ok st' ∧
      a.versionId = some (sampleUuidText 1) ∧ Removes st st' [98] [107] a := by
  intro st
  have hst : KeyConsistent ⟨[([98], .unversioned)], [], []⟩ [98] [107] := KeyInvariant.nil _
  have hframe := versioning_frame st [98] [107]
    (keyConsistent_run hst (sampleRun.take 4)).versionIndexInvariant
  have hok (op : VersionOperation) (h : (transact st op).isOk = true) :
      ∃ st', transact st op = .ok st' := by
    cases hop : transact st op with
    | ok st' => exact ⟨st', rfl⟩
    | error error =>
      rw [hop] at h
      cases h
  constructor
  · obtain ⟨st', htransact⟩ := hok (.publish (sampleObject 3) (sampleIds 3 3) 13)
      (by decide +kernel)
    exact ⟨st', htransact, hframe.enabled (by decide +kernel) (.publish _ _ _) st' ⟨rfl, rfl⟩ htransact⟩
  · obtain ⟨st', htransact⟩ := hok (.deleteVersion [98] [107]
      (.exact (.opaqueId (sampleUuidText 1))) (sampleIds 3 3) 13 13) (by decide +kernel)
    obtain ⟨a, hid, hremoves, -⟩ := hframe.exact _ _ _ _ st' htransact
    exact ⟨st', a, htransact, hid, hremoves⟩

end IpfS3.Store
