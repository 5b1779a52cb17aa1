import IpfS3.Store.Versions
import IpfS3.Foundations.Table

/-!
# Writing the version index

The statements of `store/object_version.rs` and `store/object.rs` that install and remove versions,
and the operations of `store/pinning/publication.rs`, `store/bucket.rs` and `lifecycle/actions.rs`
built from them.  Each operation runs in one transaction under the ownership fence of its bucket, so
it is a function from a database state to a database state or an error; an error rolls back.

The tables of leases, tags and residencies are written by the same transactions and read by none of
these functions; the verification of mutation guards belongs to the ownership model.  Row ids and
opaque version ids are fresh UUIDs in the code and arguments here; an id that is not fresh fails
with the constraint of the table.

A statement that reads the row with the greatest sequence is `greatest`; its second order column
never decides, since the sequences of one key are distinct.
-/

namespace IpfS3.Store

open Table Fallible List

abbrev Uuid := { value : Text // isCanonicalUuid value = true }

/-- The buckets with their versioning states, the objects and the version rows. -/
structure VersionStore where
  states : List (Text × BucketVersioningState)
  objects : List Object
  versions : List VersionRow
  deriving DecidableEq

inductive VersionSelector where
  | current
  | exact (versionId : PublicVersionId)
  deriving DecidableEq

structure DeleteVersionResult where
  versionId : Option Text
  deletedDeleteMarker : Bool
  createdDeleteMarker : Bool
  deriving DecidableEq

inductive ExactCurrentMarkerDeleteResult where
  | deleted (result : DeleteVersionResult)
  | alreadySatisfied
  | stale
  deriving DecidableEq

/-- The condition on the columns `bucket` and `key`. -/
def ofKey (bucket key : Text) (row : VersionRow) : Bool := row.bucket == bucket && row.key == key

/-- The condition of the current projection of a key. -/
def isCurrent (bucket key : Text) (object : Object) : Bool :=
  object.bucket == bucket && object.key == key && object.isLatest

namespace VersionStore

variable (st : VersionStore) (bucket key : Text)

def keyRows : List VersionRow := st.versions.filter (ofKey bucket key)

def keyObjects : List Object := st.objects.filter fun o => o.bucket == bucket && o.key == key

def currentObjects : List Object := st.objects.filter (isCurrent bucket key)

/-! ## The current projection -/

def getById (objectId : Text) : AppResult Object :=
  match st.objects.find? fun o => o.id == objectId with
  | none => .error (.noSuchKey objectId)
  | some object => .ok object

/-- The check of `set_only_latest` on the selected object. -/
def checkSelected : Option Text → AppResult Unit
  | none => .ok ()
  | some objectId => do
    let selected ← st.getById objectId
    ensure (selected.bucket = bucket ∧ selected.key = key)
      (.invalidArgument "selected object does not belong to the requested bucket/key")

/-- The rows that `set_only_latest` may select. -/
def isSelectable (objectId : Text) (object : Object) : Bool :=
  object.id == objectId && object.bucket == bucket && object.key == key && !object.isLatest

/-- The second statement of `set_only_latest`, on the cleared rows. -/
def selectLatest (objects : List Object) : Option Text → AppResult (List Object)
  | none => .ok objects
  | some objectId => do
    ensure (objects.countP (isSelectable bucket key objectId) = 1)
      (.internal "selected object changed while rebuilding current projection")
    .ok (updateWhere (isSelectable bucket key objectId) (fun o => { o with isLatest := true })
      objects)

def setOnlyLatest (objectId : Option Text) : AppResult VersionStore := do
  st.checkSelected bucket key objectId
  ensure (st.objects.countP (isCurrent bucket key) ≤ 1)
    (.internal "multiple current object projections for one key")
  let cleared := updateWhere (isCurrent bucket key) (fun o => { o with isLatest := false })
    st.objects
  let objects ← selectLatest bucket key cleared objectId
  ensure (objects.countP (isCurrent bucket key) = objectId.toList.length)
    (.internal "current object projection verification failed")
  .ok { st with objects := objects }

/-! ## Installing a version -/

/-- `allocate_next_sequence`, with the overflow check of an `i64`. -/
def allocateNextSequence : AppResult ℤ :=
  let currentMax := ((greatest VersionRow.sequence (st.keyRows bucket key)).map (·.sequence)).getD 0
  if currentMax + 1 < 2 ^ 63 then .ok (currentMax + 1)
  else .error (.internal "object version sequence overflow")

def isLatestOf (row : VersionRow) : Bool := ofKey bucket key row && row.isLatest

/-- What a row becomes when it is no longer the latest. -/
def demoted (now : ℤ) (row : VersionRow) : VersionRow :=
  { row with isLatest := false, becameNoncurrentAt := some now }

def demoteCurrentVersion (now : ℤ) : AppResult VersionStore := do
  ensure (st.versions.countP (isLatestOf bucket key) ≤ 1) invalidVersionIndex
  .ok { st with versions := updateWhere (isLatestOf bucket key) (demoted now) st.versions }

def selectorDbValue : PublicVersionId → AppResult (Option Text)
  | .null => .ok none
  | .opaqueId value => do
    let versionId ← PublicVersionId.parseS3 value
    .ok (some versionId.asS3Str)

def oneVersion : VersionSelector → AppResult (Option VersionRow)
  | .current => .ok ((st.keyRows bucket key).find? (·.isLatest))
  | .exact publicVersionId => do
    let versionId ← selectorDbValue publicVersionId
    .ok ((st.keyRows bucket key).find? fun row => row.versionId == versionId)

def isNullSlot (row : VersionRow) : Bool := ofKey bucket key row && row.versionId.isNone

/-- `remove_null_slot`.  The kind of the removed row is read to release its residency. -/
def removeNullSlot : AppResult VersionStore := do
  let selected ← st.oneVersion bucket key (.exact .null)
  let _ ← selected.mapM versionKind
  ensure (st.versions.countP (isNullSlot bucket key) ≤ 1) invalidVersionIndex
  .ok { st with versions := deleteWhere (isNullSlot bucket key) st.versions }

def asDbValue : PublicVersionId → Option Text
  | .null => none
  | .opaqueId value => some value

/-- The constraints of the table on a new row: its primary key, and among the rows of its key the
latest row, the sequence, and the version id or the null slot. -/
def Insertable (row : VersionRow) : Prop :=
  ∀ r ∈ st.versions, r.id ≠ row.id ∧ (ofKey row.bucket row.key r = true →
    ¬(r.isLatest = true ∧ row.isLatest = true) ∧ r.sequence ≠ row.sequence ∧
      r.versionId ≠ row.versionId)

instance (row : VersionRow) : Decidable (st.Insertable row) :=
  inferInstanceAs (Decidable (∀ r ∈ st.versions, _))

def insertVersionRow (rowId : Uuid) (versionId : PublicVersionId) (kind : VersionKind)
    (objectId : Option Text) (sequence now : ℤ) : AppResult VersionStore := do
  ensure (kind = .object ↔ objectId.isSome = true) invalidVersionIndex
  let row : VersionRow := ⟨rowId, bucket, key, asDbValue versionId, some kind, objectId, sequence,
    true, now, none, now⟩
  ensure (st.Insertable row) uniqueViolation
  ensure (∀ id ∈ objectId, ∃ o ∈ st.objects, o.id = id) invalidVersionIndex
  .ok { st with versions := st.versions ++ [row] }

/-- `prepare_install`, with the UUID that an enabled bucket uses. -/
def prepareInstall (state : BucketVersioningState) (uuid : Uuid) (now : ℤ) :
    AppResult (VersionStore × ℤ × PublicVersionId) := do
  let sequence ← st.allocateNextSequence bucket key
  match state with
  | .enabled => do
    let st ← st.demoteCurrentVersion bucket key now
    .ok (st, sequence, .opaqueId uuid)
  | .suspended | .unversioned => do
    let st ← st.demoteCurrentVersion bucket key now
    let st ← st.removeNullSlot bucket key
    .ok (st, sequence, .null)

/-- The fresh UUIDs of one installation. -/
structure InstallIds where
  rowId : Uuid
  versionId : Uuid
  deriving DecidableEq

def installContentVersion (state : BucketVersioningState) (object : Object) (ids : InstallIds)
    (now : ℤ) : AppResult (VersionStore × Text) := do
  let (st, sequence, versionId) ←
    st.prepareInstall object.bucket object.key state ids.versionId now
  let st ← st.insertVersionRow object.bucket object.key ids.rowId versionId .object
    (some object.id) sequence now
  let st ← st.setOnlyLatest object.bucket object.key (some object.id)
  .ok (st, versionId.asS3Str)

def installDeleteMarker (state : BucketVersioningState) (ids : InstallIds) (now : ℤ) :
    AppResult (VersionStore × Text) := do
  let (st, sequence, versionId) ← st.prepareInstall bucket key state ids.versionId now
  let st ← st.insertVersionRow bucket key ids.rowId versionId .deleteMarker none sequence now
  let st ← st.setOnlyLatest bucket key none
  .ok (st, versionId.asS3Str)

/-! ## Removing a version -/

/-- The error of a version that is gone. -/
def noSuchVersionOf (row : VersionRow) : AppError :=
  .noSuchVersion row.bucket row.key (row.versionId.getD nullVersionId)

def lockVersionById (id : Text) : Option VersionRow := st.versions.find? fun row => row.id == id

/-- The checks of `resolved_from_row` on the current projection. -/
def resolvedCurrentFromRow (row : VersionRow) : AppResult ResolvedVersion := do
  let version ← resolvedFromRow st.objects row
  match version.object with
  | some object =>
    ensure (row.isLatest = true ∧ object.isLatest = true) invalidVersionIndex
  | none =>
    ensure (row.isLatest = true ∧ st.objects.countP (isCurrent row.bucket row.key) = 0)
      invalidVersionIndex
  .ok version

/-- What a row becomes when it is made the latest. -/
def promotedRow (row : VersionRow) : VersionRow :=
  { row with isLatest := true, becameNoncurrentAt := none }

/-- The row that `remove_and_promote` makes the latest. -/
def isPromotable (id : Text) (row : VersionRow) : Bool := row.id == id && !row.isLatest

/-- The object that a latest row of a kind projects to. -/
def selectedObject (row : VersionRow) : VersionKind → Option Text
  | .object => row.objectId
  | .deleteMarker => none

/-- The statements of `remove_and_promote` on the survivor with the greatest sequence. -/
def promote (now : ℤ) (survivor : VersionRow) : AppResult (VersionStore × ResolvedVersion) := do
  ensure (st.versions.countP (isLatestOf bucket key) ≤ 1) invalidVersionIndex
  let cleared := updateWhere (isLatestOf bucket key) (demoted now) st.versions
  ensure (cleared.countP (isPromotable survivor.id) = 1) invalidVersionIndex
  let st := { st with versions := updateWhere (isPromotable survivor.id) promotedRow cleared }
  let kind ← versionKind survivor
  let st ← st.setOnlyLatest bucket key (selectedObject survivor kind)
  let version ← st.resolvedCurrentFromRow (promotedRow survivor)
  .ok (st, version)

/-- `remove_and_promote`; `now` is the clock of the database. -/
def removeAndPromote (selected : VersionRow) (now : ℤ) :
    AppResult (VersionStore × Option ResolvedVersion) := do
  match st.lockVersionById selected.id with
  | none => .error (noSuchVersionOf selected)
  | some selected => do
    let _ ← versionKind selected
    ensure (st.versions.countP (fun row => row.id == selected.id) = 1) (noSuchVersionOf selected)
    let st := { st with versions := deleteWhere (fun row => row.id == selected.id) st.versions }
    if selected.isLatest = false then .ok (st, none)
    else
      match greatest VersionRow.sequence (st.keyRows selected.bucket selected.key) with
      | none => do
        let st ← st.setOnlyLatest selected.bucket selected.key none
        .ok (st, none)
      | some survivor => do
        let (st, version) ← st.promote selected.bucket selected.key now survivor
        .ok (st, some version)

/-- The rows that `delete_current_sole_marker` deletes. -/
def isSoleMarker (selected row : VersionRow) : Bool :=
  row.id == selected.id && ofKey selected.bucket selected.key row &&
    row.kind == some .deleteMarker && row.objectId.isNone && row.sequence == selected.sequence &&
    row.isLatest && row.versionId == selected.versionId

def deleteCurrentSoleMarker (selected : VersionRow) :
    AppResult (VersionStore × ExactCurrentMarkerDeleteResult) := do
  if selected.isLatest = false then .ok (st, .stale)
  else
    let kind ← versionKind selected
    if kind ≠ .deleteMarker then .ok (st, .stale)
    else if (st.keyRows selected.bucket selected.key).length ≠ 1 then .ok (st, .stale)
    else if st.versions.countP (isSoleMarker selected) = 1 then
      .ok ({ st with versions := deleteWhere (isSoleMarker selected) st.versions },
        .deleted ⟨some (selected.versionId.getD nullVersionId), true, false⟩)
    else
      let remaining := deleteWhere (isSoleMarker selected) st.versions
      if (remaining.filter (ofKey selected.bucket selected.key)).length = 0 then
        .ok ({ st with versions := remaining }, .alreadySatisfied)
      else .ok ({ st with versions := remaining }, .stale)

/-! ## What the statements write -/

/-- The columns of an object that no statement writes. -/
def identity (object : Object) : Text × Text × Text := (object.id, object.bucket, object.key)

end VersionStore

open VersionStore

/-- **What a transaction writes**: the rows and the current object ids of one key.  Other keys and
the bucket states stay as they are, and no object disappears. -/
structure Writes (st st' : VersionStore) (bucket key : Text) (rows : List VersionRow)
    (current : List Text) : Prop where
  states_eq : st'.states = st.states
  rows_eq : st'.keyRows bucket key = rows
  current_eq : (st'.currentObjects bucket key).map (·.id) = current
  frame_rows : ∀ bucket' key', ¬(bucket' = bucket ∧ key' = key) →
    st'.keyRows bucket' key' = st.keyRows bucket' key'
  frame_current : ∀ bucket' key', ¬(bucket' = bucket ∧ key' = key) →
    (st'.currentObjects bucket' key').map (·.id) = (st.currentObjects bucket' key').map (·.id)
  frame_objects : ∀ bucket' key', ¬(bucket' = bucket ∧ key' = key) →
    st'.keyObjects bucket' key' = st.keyObjects bucket' key'
  identities : st.objects.map identity <+: st'.objects.map identity

section Statements

variable {st st' st'' : VersionStore} {bucket key : Text}

theorem Writes.trans {rows rows' : List VersionRow} {current current' : List Text}
    (h : Writes st st' bucket key rows current) (h' : Writes st' st'' bucket key rows' current') :
    Writes st st'' bucket key rows' current' where
  states_eq := h'.states_eq.trans h.states_eq
  rows_eq := h'.rows_eq
  current_eq := h'.current_eq
  frame_rows b k hne := (h'.frame_rows b k hne).trans (h.frame_rows b k hne)
  frame_current b k hne := (h'.frame_current b k hne).trans (h.frame_current b k hne)
  frame_objects b k hne := (h'.frame_objects b k hne).trans (h.frame_objects b k hne)
  identities := h.identities.trans h'.identities

theorem Writes.refl (st : VersionStore) (bucket key : Text) :
    Writes st st bucket key (st.keyRows bucket key) ((st.currentObjects bucket key).map (·.id)) :=
  ⟨rfl, rfl, rfl, fun _ _ _ => rfl, fun _ _ _ => rfl, fun _ _ _ => rfl, prefix_rfl⟩

theorem ofKey_eq_true_iff {row : VersionRow} :
    ofKey bucket key row = true ↔ row.bucket = bucket ∧ row.key = key := by
  rw [ofKey, Bool.and_eq_true, beq_iff_eq, beq_iff_eq]

theorem isCurrent_eq_true_iff {o : Object} :
    isCurrent bucket key o = true ↔ (o.bucket = bucket ∧ o.key = key) ∧ o.isLatest = true := by
  rw [isCurrent, Bool.and_eq_true, Bool.and_eq_true, beq_iff_eq, beq_iff_eq]

theorem ofKey_eq_false_of_ne {row : VersionRow} {bucket' key' : Text}
    (hne : ¬(bucket' = bucket ∧ key' = key)) (h : ofKey bucket key row = true) :
    ofKey bucket' key' row = false := by
  rw [Bool.eq_false_iff]
  intro h'
  obtain ⟨rfl, rfl⟩ := ofKey_eq_true_iff.mp h
  obtain ⟨rfl, rfl⟩ := ofKey_eq_true_iff.mp h'
  exact hne ⟨rfl, rfl⟩

theorem Writes.of_versions {versions : List VersionRow}
    (hframe : ∀ bucket' key', ¬(bucket' = bucket ∧ key' = key) →
      versions.filter (ofKey bucket' key') = st.keyRows bucket' key') :
    Writes st { st with versions := versions } bucket key (versions.filter (ofKey bucket key))
      ((st.currentObjects bucket key).map (·.id)) :=
  ⟨rfl, rfl, rfl, hframe, fun _ _ _ => rfl, fun _ _ _ => rfl, prefix_rfl⟩

theorem Writes.update {p : VersionRow → Bool} {f : VersionRow → VersionRow}
    (hp : ∀ r ∈ st.versions, p r = true → ofKey bucket key r = true)
    (hf : ∀ b k r, ofKey b k (f r) = ofKey b k r) :
    Writes st { st with versions := updateWhere p f st.versions } bucket key
      (updateWhere p f (st.keyRows bucket key)) ((st.currentObjects bucket key).map (·.id)) := by
  have hwrites : Writes st { st with versions := updateWhere p f st.versions } bucket key _ _ :=
    Writes.of_versions fun b k hne => filter_updateWhere_of_disjoint fun r hmem hr => by
      rw [hf, and_self]
      exact ofKey_eq_false_of_ne hne (hp r hmem hr)
  rw [filter_updateWhere fun r _ _ => hf bucket key r] at hwrites
  exact hwrites

theorem Writes.delete {p : VersionRow → Bool}
    (hp : ∀ r ∈ st.versions, p r = true → ofKey bucket key r = true) :
    Writes st { st with versions := deleteWhere p st.versions } bucket key
      (deleteWhere p (st.keyRows bucket key)) ((st.currentObjects bucket key).map (·.id)) := by
  have hwrites : Writes st { st with versions := deleteWhere p st.versions } bucket key _ _ :=
    Writes.of_versions fun b k hne => by
      rw [filter_deleteWhere]
      refine deleteWhere_of_forall_not fun r hr => ?_
      obtain ⟨hmem, hofKey⟩ := mem_filter.mp hr
      by_contra hpr
      have hfalse := ofKey_eq_false_of_ne hne (hp r hmem (by simpa using hpr))
      rw [hofKey] at hfalse
      cases hfalse
  rw [filter_deleteWhere] at hwrites
  exact hwrites

theorem keyObjects_updateWhere {p : Object → Bool} (flag : Bool) {objects : List Object}
    (hp : ∀ o, p o = true → o.bucket = bucket ∧ o.key = key) {bucket' key' : Text}
    (hne : ¬(bucket' = bucket ∧ key' = key)) :
    (updateWhere p (fun o => { o with isLatest := flag }) objects).filter
        (fun o => o.bucket == bucket' && o.key == key') =
      objects.filter fun o => o.bucket == bucket' && o.key == key' := by
  refine filter_updateWhere_of_disjoint fun o _ ho => ?_
  obtain ⟨hbucket, hkey⟩ := hp o ho
  have hfalse : (o.bucket == bucket' && o.key == key') = false := by
    rw [Bool.eq_false_iff, ne_eq, Bool.and_eq_true, beq_iff_eq, beq_iff_eq]
    exact fun heq => hne ⟨heq.1.symm.trans hbucket, heq.2.symm.trans hkey⟩
  exact ⟨hfalse, hfalse⟩

/-- **`set_only_latest`** makes the selected object the current one of the key, or none. -/
theorem setOnlyLatest_spec {objectId : Option Text}
    (h : st.setOnlyLatest bucket key objectId = .ok st') :
    Writes st st' bucket key (st.keyRows bucket key) objectId.toList := by
  obtain ⟨-, -, h⟩ := of_bind h
  obtain ⟨-, h⟩ := of_ensure h
  obtain ⟨objects, hselect, h⟩ := of_bind h
  obtain ⟨hcount, h⟩ := of_ensure h
  cases h
  generalize hcleared : updateWhere (isCurrent bucket key)
    (fun o => { o with isLatest := false }) st.objects = cleared at hselect
  have hframe : ∀ b k, ¬(b = bucket ∧ k = key) →
      cleared.filter (isCurrent b k) = st.currentObjects b k := by
    intro b k hne
    rw [← hcleared]
    refine filter_updateWhere_of_disjoint fun o _ ho => ⟨?_, by simp [isCurrent]⟩
    rw [Bool.eq_false_iff]
    intro ho'
    obtain ⟨⟨rfl, rfl⟩, -⟩ := isCurrent_eq_true_iff.mp ho
    obtain ⟨⟨rfl, rfl⟩, -⟩ := isCurrent_eq_true_iff.mp ho'
    exact hne ⟨rfl, rfl⟩
  have hidentity : cleared.map identity = st.objects.map identity := by
    rw [← hcleared]
    exact map_updateWhere fun o _ => rfl
  have hobjects : ∀ b k, ¬(b = bucket ∧ k = key) →
      cleared.filter (fun o => o.bucket == b && o.key == k) = st.keyObjects b k := by
    intro b k hne
    rw [← hcleared]
    exact keyObjects_updateWhere false (fun o ho => (isCurrent_eq_true_iff.mp ho).1) hne
  have hnone : cleared.filter (isCurrent bucket key) = [] := by
    rw [← hcleared, filter_eq_nil_iff]
    intro o ho
    obtain ⟨a, -, rfl⟩ := mem_updateWhere.mp ho
    split_ifs with ha
    · simp [isCurrent]
    · exact ha
  cases objectId with
  | none =>
    cases hselect
    refine ⟨rfl, rfl, ?_, fun _ _ _ => rfl, fun b k hne => ?_, hobjects, ?_⟩
    · rw [currentObjects, hnone]
      rfl
    · rw [currentObjects, hframe b k hne]
    · rw [hidentity]
  | some id =>
    obtain ⟨-, hselect⟩ := of_ensure hselect
    cases hselect
    refine ⟨rfl, rfl, ?_, fun _ _ _ => rfl, fun b k hne => ?_, fun b k hne => ?_, ?_⟩
    · -- the count says that there is one current row, and it can only be a selected one
      obtain ⟨a, ha⟩ := exists_filter_eq_singleton hcount
      rw [currentObjects, ha]
      have hmem : a ∈ [a] := mem_singleton_self a
      rw [← ha, mem_filter, mem_updateWhere] at hmem
      obtain ⟨⟨o, ho, hoa⟩, hcurrent⟩ := hmem
      split_ifs at hoa with hsel
      · simp only [isSelectable, Bool.and_eq_true, beq_iff_eq] at hsel
        rw [← hoa, Option.toList_some, map_singleton, hsel.1.1.1]
      · have hmem' : o ∈ cleared.filter (isCurrent bucket key) :=
          mem_filter.mpr ⟨ho, hoa ▸ hcurrent⟩
        rw [hnone] at hmem'
        cases hmem'
    · rw [currentObjects, filter_updateWhere_of_disjoint fun o _ ho => ?_, hframe b k hne]
      simp only [isSelectable, Bool.and_eq_true, beq_iff_eq] at ho
      obtain ⟨⟨⟨-, rfl⟩, rfl⟩, -⟩ := ho
      have hfalse : ∀ flag, isCurrent b k { o with isLatest := flag } = false := by
        intro flag
        rw [Bool.eq_false_iff]
        intro ho'
        obtain ⟨⟨rfl, rfl⟩, -⟩ := isCurrent_eq_true_iff.mp ho'
        exact hne ⟨rfl, rfl⟩
      exact ⟨hfalse o.isLatest, hfalse true⟩
    · rw [← hobjects b k hne]
      refine keyObjects_updateWhere true (fun o ho => ?_) hne
      simp only [isSelectable, Bool.and_eq_true, beq_iff_eq] at ho
      exact ⟨ho.1.1.2, ho.1.2⟩
    · have hselected : (updateWhere (isSelectable bucket key id)
          (fun o => { o with isLatest := true }) cleared).map identity = st.objects.map identity := by
        rw [map_updateWhere, hidentity]
        exact fun o _ => rfl
      exact hselected ▸ prefix_rfl

theorem Writes.demote (st : VersionStore) (bucket key : Text) (now : ℤ) :
    Writes st
      { st with versions := updateWhere (isLatestOf bucket key) (demoted now) st.versions }
      bucket key (updateWhere (·.isLatest) (demoted now) (st.keyRows bucket key))
      ((st.currentObjects bucket key).map (·.id)) := by
  have hwrites : Writes st
      { st with versions := updateWhere (isLatestOf bucket key) (demoted now) st.versions }
      bucket key _ _ :=
    Writes.update (fun r _ hr => (Bool.and_eq_true_iff.mp hr).1) fun _ _ _ => rfl
  have hrows : updateWhere (isLatestOf bucket key) (demoted now) (st.keyRows bucket key) =
      updateWhere (·.isLatest) (demoted now) (st.keyRows bucket key) := by
    refine map_congr_left fun r hr => ?_
    rw [isLatestOf, (mem_filter.mp hr).2, Bool.true_and]
  rw [hrows] at hwrites
  exact hwrites

/-- **`demote_current_version`.** -/
theorem demoteCurrentVersion_spec {now : ℤ}
    (h : st.demoteCurrentVersion bucket key now = .ok st') :
    Writes st st' bucket key
      (updateWhere (·.isLatest) (demoted now) (st.keyRows bucket key))
      ((st.currentObjects bucket key).map (·.id)) := by
  obtain ⟨-, h⟩ := of_ensure h
  cases h
  exact Writes.demote st bucket key now

/-- **`remove_null_slot`.** -/
theorem removeNullSlot_spec (h : st.removeNullSlot bucket key = .ok st') :
    Writes st st' bucket key
      (deleteWhere (·.versionId.isNone) (st.keyRows bucket key))
      ((st.currentObjects bucket key).map (·.id)) := by
  obtain ⟨selected, -, h⟩ := of_bind h
  obtain ⟨-, -, h⟩ := of_bind h
  obtain ⟨-, h⟩ := of_ensure h
  cases h
  have hwrites : Writes st
      { st with versions := deleteWhere (isNullSlot bucket key) st.versions } bucket key _ _ :=
    Writes.delete fun r _ hr => (Bool.and_eq_true_iff.mp hr).1
  have hrows : deleteWhere (isNullSlot bucket key) (st.keyRows bucket key) =
      deleteWhere (·.versionId.isNone) (st.keyRows bucket key) := by
    refine filter_congr fun r hr => ?_
    rw [isNullSlot, (mem_filter.mp hr).2, Bool.true_and]
  rw [hrows] at hwrites
  exact hwrites

theorem allocateNextSequence_spec {sequence : ℤ}
    (h : st.allocateNextSequence bucket key = .ok sequence)
    (hpos : ∀ r ∈ st.keyRows bucket key, 0 < r.sequence) :
    0 < sequence ∧ ∀ r ∈ st.keyRows bucket key, r.sequence < sequence := by
  rw [allocateNextSequence] at h
  split_ifs at h
  cases h
  cases hmax : greatest VersionRow.sequence (st.keyRows bucket key) with
  | none =>
    rw [greatest_eq_none_iff.mp hmax]
    exact ⟨by simp, fun r hr => absurd hr not_mem_nil⟩
  | some a =>
    have ha := hpos a (mem_of_greatest hmax)
    rw [Option.map_some, Option.getD_some]
    refine ⟨by omega, fun r hr => ?_⟩
    have := le_of_greatest hmax hr
    omega

/-- **`insert_version_row`** appends a latest row of the given kind. -/
theorem insertVersionRow_spec {rowId : Uuid} {versionId : PublicVersionId} {kind : VersionKind}
    {objectId : Option Text} {sequence now : ℤ}
    (h : st.insertVersionRow bucket key rowId versionId kind objectId sequence now = .ok st') :
    (kind = .object ↔ objectId.isSome = true) ∧
      Writes st st' bucket key
        (st.keyRows bucket key ++ [⟨rowId, bucket, key, asDbValue versionId, some kind, objectId,
          sequence, true, now, none, now⟩])
        ((st.currentObjects bucket key).map (·.id)) := by
  obtain ⟨hkind, h⟩ := of_ensure h
  obtain ⟨-, h⟩ := of_ensure h
  obtain ⟨-, h⟩ := of_ensure h
  cases h
  generalize hrow : (⟨rowId, bucket, key, asDbValue versionId, some kind, objectId, sequence, true,
    now, none, now⟩ : VersionRow) = row
  have hofKey : ofKey bucket key row = true := by
    rw [← hrow, ofKey_eq_true_iff]
    exact ⟨rfl, rfl⟩
  have hwrites : Writes st { st with versions := st.versions ++ [row] } bucket key _ _ :=
    Writes.of_versions fun b k hne => by
      rw [filter_append, filter_cons_of_neg, filter_nil, append_nil]
      · rfl
      · rw [ofKey_eq_false_of_ne hne hofKey]
        exact Bool.false_ne_true
  rw [filter_append, filter_cons_of_pos hofKey, filter_nil] at hwrites
  exact ⟨hkind, hwrites⟩

end Statements

end IpfS3.Store
