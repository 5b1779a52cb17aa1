import IpfS3.Store.VersionIndex
import IpfS3.Foundations.Transactions

/-!
# Operations on the version index

The transactions that publish and delete versions and change the versioning state of a bucket:
`write_object_version_and_update_lifecycle`, `delete_version_attempt`,
`execute_lifecycle_delete_guarded` and `set_versioning_state`.

`KeyStep` lists what one of them can do to the rows and the current object of a key, and
`transact_spec` says that each of them does one of these things to one key and nothing else.
-/

namespace IpfS3.Store

open Table Fallible VersionStore List Option

inductive LifecycleActionKind where
  | expireCurrent
  | expireNoncurrent
  | transitionCurrent
  | transitionNoncurrent
  | deleteExpiredMarker
  | abortIncompleteMultipartUpload
  deriving DecidableEq

structure VersionTargetIdentity where
  bucket : Text
  key : Text
  versionRowId : Text
  publicVersionId : PublicVersionId
  kind : VersionKind
  objectId : Option Text
  sequence : ℤ
  deriving DecidableEq

inductive GuardedLifecycleExecutionResult where
  | applied (result : DeleteVersionResult)
  | alreadySatisfied
  | stale
  deriving DecidableEq

namespace VersionStore

variable (st : VersionStore) (bucket key : Text)

/-! ## Publication -/

/-- `insert_immutable_in_transaction`, for a row that is not the latest. -/
def insertImmutable (object : Object) : AppResult (VersionStore × Object) := do
  let row := { object with isLatest := false }
  ensure (∀ o ∈ st.objects, o.id ≠ row.id) uniqueViolation
  let st := { st with objects := st.objects ++ [row] }
  let inserted ← st.getById row.id
  .ok (st, inserted)

/-- `write_object_version_and_update_lifecycle`. -/
def writeObjectVersion (object : Object) (state : BucketVersioningState) (ids : InstallIds)
    (now : ℤ) : AppResult (VersionStore × Option Text) := do
  ensure (0 ≤ object.size) (.invalidPinningRequest "logical object size cannot be negative")
  let (st, inserted) ← st.insertImmutable { object with createdAt := now }
  let (st, publicVersionId) ← st.installContentVersion state inserted ids now
  .ok (st, match state with
    | .unversioned => none
    | .enabled | .suspended => some publicVersionId)

/-! ## Deletion -/

def lockIndexedVersion (versionId : PublicVersionId) :
    AppResult (Option (VersionRow × ResolvedVersion)) := do
  let row ← st.oneVersion bucket key (.exact versionId)
  match row with
  | none => .ok none
  | some row => do
    let resolved ← resolvedFromRow st.objects row
    .ok (some (row, resolved))

/-- The lock of a version's object, which must still be what the version resolved to. -/
def checkLockedObject (message : String) (resolved : ResolvedVersion) : AppResult Unit :=
  match resolved.object with
  | none => .ok ()
  | some object =>
    match st.objects.find? fun o => o.id == object.id with
    | none => .error (.internal "object version index references a missing internal object")
    | some locked => ensure (locked = object) (.internal message)

def deleteUnversionedCurrentCore : AppResult (VersionStore × DeleteVersionResult) := do
  let nullSlot ← st.lockIndexedVersion bucket key .null
  let current := (st.currentObjects bucket key).head?
  ensure (∀ slot ∈ nullSlot, ∀ object ∈ current, slot.1.objectId = some object.id)
    (.internal "unversioned null index does not match the current object projection")
  let st ← current.elim (.ok st) fun _ => st.setOnlyLatest bucket key none
  let st ← st.removeNullSlot bucket key
  .ok (st, ⟨none, false, false⟩)

/-- `delete_enabled_current_in_transaction`. -/
def deleteEnabledCurrent (ids : InstallIds) (now : ℤ) :
    AppResult (VersionStore × DeleteVersionResult) := do
  let (st, versionId) ← st.installDeleteMarker bucket key .enabled ids now
  .ok (st, ⟨some versionId, false, true⟩)

def deleteSuspendedCurrentCore (ids : InstallIds) (now : ℤ) :
    AppResult (VersionStore × DeleteVersionResult) := do
  let nullSlot ← st.lockIndexedVersion bucket key .null
  let _ ← st.allocateNextSequence bucket key
  nullSlot.elim (.ok ()) fun slot =>
    st.checkLockedObject "null version object changed during delete" slot.2
  let (st, versionId) ← st.installDeleteMarker bucket key .suspended ids now
  .ok (st, ⟨some versionId, false, true⟩)

def deleteCurrent (state : BucketVersioningState) (ids : InstallIds) (now : ℤ) :
    AppResult (VersionStore × DeleteVersionResult) :=
  match state with
  | .unversioned => st.deleteUnversionedCurrentCore bucket key
  | .enabled => st.deleteEnabledCurrent bucket key ids now
  | .suspended => st.deleteSuspendedCurrentCore bucket key ids now

/-- `delete_exact_core`; `databaseNow` is the clock that a promotion reads. -/
def deleteExactCore (versionId : PublicVersionId) (databaseNow : ℤ) :
    AppResult (VersionStore × DeleteVersionResult) := do
  let selected ← st.lockIndexedVersion bucket key versionId
  match selected with
  | none => .error (.noSuchVersion bucket key versionId.asS3Str)
  | some (selected, resolved) => do
    st.checkLockedObject "selected version object changed during delete" resolved
    let (st, _) ← st.removeAndPromote selected databaseNow
    .ok (st, ⟨some versionId.asS3Str, decide (resolved.kind = .deleteMarker), false⟩)

def deleteVersionAttempt (selector : VersionSelector) (ids : InstallIds) (now databaseNow : ℤ) :
    AppResult (VersionStore × DeleteVersionResult) := do
  let state ← getVersioningState st.states bucket
  match selector with
  | .current => st.deleteCurrent bucket key state ids now
  | .exact versionId => do
    ensure (state ≠ .unversioned)
      (.invalidArgument "version IDs are unavailable for an unversioned bucket")
    st.deleteExactCore bucket key versionId databaseNow

/-! ## Lifecycle actions -/

def targetMatchesRow (selected : VersionRow) (target : VersionTargetIdentity) : AppResult Bool :=
  if selected.bucket = target.bucket ∧ selected.key = target.key ∧
      selected.sequence = target.sequence ∧ selected.objectId = target.objectId then do
    let kind ← versionKind selected
    if kind = target.kind then do
      let versionId ← publicVersionId selected
      .ok (decide (versionId = target.publicVersionId))
    else .ok false
  else .ok false

/-- `execute_lifecycle_delete_guarded`, once its guard has been verified. -/
def executeLifecycleDelete (target : VersionTargetIdentity) (action : LifecycleActionKind)
    (ids : InstallIds) (now databaseNow : ℤ) :
    AppResult (VersionStore × GuardedLifecycleExecutionResult) := do
  ensure (action ≠ .transitionCurrent ∧ action ≠ .transitionNoncurrent)
    (.internal "lifecycle transition cannot execute through lifecycle deletion")
  let state ← getVersioningState st.states target.bucket
  match st.lockVersionById target.versionRowId with
  | none => .ok (st, .stale)
  | some selected => do
    let matched ← targetMatchesRow selected target
    if matched = false then .ok (st, .stale)
    else
      match action with
      | .expireCurrent =>
        if target.kind ≠ .object ∨ selected.isLatest = false then .ok (st, .stale)
        else do
          let (st, deleted) ← st.deleteCurrent target.bucket target.key state ids now
          .ok (st, .applied deleted)
      | .deleteExpiredMarker =>
        if target.kind ≠ .deleteMarker ∨ selected.isLatest = false then .ok (st, .stale)
        else do
          let (st', result) ← st.deleteCurrentSoleMarker selected
          match result with
          | .deleted deleted => .ok (st', .applied deleted)
          | .alreadySatisfied => .ok (st', .alreadySatisfied)
          | .stale => .ok (st', .stale)
      | .expireNoncurrent =>
        if selected.isLatest = true then .ok (st, .stale)
        else do
          let (st, deleted) ← st.deleteExactCore target.bucket target.key target.publicVersionId
            databaseNow
          .ok (st, .applied deleted)
      | .abortIncompleteMultipartUpload | .transitionCurrent | .transitionNoncurrent =>
        .error (.internal "multipart lifecycle action reached version deletion")

/-! ## The versioning state -/

def setVersioningState (state : BucketVersioningState) : AppResult VersionStore := do
  ensure (state ≠ .unversioned) (.invalidArgument "versioning status must be Enabled or Suspended")
  let current ← getVersioningState st.states bucket
  if current = state then .ok st
  else do
    ensure (st.states.countP (fun row => row.1 == bucket) = 1) (.noSuchBucket bucket)
    let states := updateWhere (fun row => row.1 == bucket) (fun row => (row.1, state)) st.states
    .ok { st with states := states }

end VersionStore

/-- The transactions on the version index. -/
inductive VersionOperation where
  | publish (object : Object) (ids : InstallIds) (now : ℤ)
  | deleteVersion (bucket key : Text) (selector : VersionSelector) (ids : InstallIds)
      (now databaseNow : ℤ)
  | lifecycleDelete (target : VersionTargetIdentity) (action : LifecycleActionKind)
      (ids : InstallIds) (now databaseNow : ℤ)
  | setVersioningState (bucket : Text) (state : BucketVersioningState)

def transact (st : VersionStore) : VersionOperation → AppResult VersionStore
  | .publish object ids now => do
    let state ← getVersioningState st.states object.bucket
    let (st, _) ← st.writeObjectVersion object state ids now
    .ok st
  | .deleteVersion bucket key selector ids now databaseNow => do
    let (st, _) ← st.deleteVersionAttempt bucket key selector ids now databaseNow
    .ok st
  | .lifecycleDelete target action ids now databaseNow => do
    let (st, _) ← st.executeLifecycleDelete target action ids now databaseNow
    .ok st
  | .setVersioningState bucket state => st.setVersioningState bucket state

/-! ## What an operation does to a key -/

/-- The rows of a key after the latest one has been demoted. -/
def demotedRows (now : ℤ) (rows : List VersionRow) : List VersionRow :=
  updateWhere (·.isLatest) (demoted now) rows

/-- The rows that an installation keeps: an enabled bucket keeps all of them, the other states give
up the null slot. -/
def keptRows (state : BucketVersioningState) (rows : List VersionRow) : List VersionRow :=
  match state with
  | .enabled => rows
  | .suspended | .unversioned => deleteWhere (·.versionId.isNone) rows

/-- **What one operation can do** to the rows and the current object ids of a key. -/
inductive KeyStep (state : BucketVersioningState) (rows : List VersionRow) (current : List Text) :
    List VersionRow → List Text → Prop where
  | unchanged : KeyStep state rows current rows current
  | install (now : ℤ) (row : VersionRow) (kind : VersionKind)
      (hkind : versionKind row = .ok kind) (hlatest : row.isLatest = true)
      (hnoncurrent : row.becameNoncurrentAt = none)
      (hnull : row.versionId = none ↔ state ≠ .enabled)
      (hsequence : (∀ r ∈ rows, 0 < r.sequence) →
        0 < row.sequence ∧ ∀ r ∈ rows, r.sequence < row.sequence) :
      KeyStep state rows current (keptRows state (demotedRows now rows) ++ [row])
        row.objectId.toList
  | clear (hstate : state = .unversioned) :
      KeyStep state rows current (deleteWhere (·.versionId.isNone) rows) []
  | remove (a : VersionRow) (ha : rows.filter (fun r => r.id == a.id) = [a])
      (hlatest : a.isLatest = false) :
      KeyStep state rows current (deleteWhere (fun r => r.id == a.id) rows) current
  | removeLast (a : VersionRow) (ha : rows.filter (fun r => r.id == a.id) = [a])
      (hnone : deleteWhere (fun r => r.id == a.id) rows = []) :
      KeyStep state rows current [] []
  | promote (now : ℤ) (a survivor : VersionRow) (kind : VersionKind)
      (ha : rows.filter (fun r => r.id == a.id) = [a]) (hlatest : a.isLatest = true)
      (hsurvivor : greatest VersionRow.sequence (deleteWhere (fun r => r.id == a.id) rows) =
        some survivor)
      (hkind : versionKind survivor = .ok kind)
      (hcount : (demotedRows now (deleteWhere (fun r => r.id == a.id) rows)).countP
        (isPromotable survivor.id) ≤ 1) :
      KeyStep state rows current
        (updateWhere (isPromotable survivor.id) promotedRow
          (demotedRows now (deleteWhere (fun r => r.id == a.id) rows)))
        survivor.objectId.toList
  | removeMarker (a : VersionRow) (ha : rows = [a]) (hkind : a.kind = some .deleteMarker)
      (hlatest : a.isLatest = true) :
      KeyStep state rows current [] current

/-- The columns of a version row that no statement rewrites. -/
structure FixedColumns where
  id : Text
  bucket : Text
  key : Text
  versionId : Option Text
  kind : Option VersionKind
  objectId : Option Text
  sequence : ℤ
  lifecycleAgeStartedAt : ℤ
  createdAt : ℤ
  deriving DecidableEq

def VersionRow.fixed (row : VersionRow) : FixedColumns :=
  ⟨row.id, row.bucket, row.key, row.versionId, row.kind, row.objectId, row.sequence,
    row.lifecycleAgeStartedAt, row.createdAt⟩

theorem map_fixed_demotedRows (now : ℤ) (rows : List VersionRow) :
    (demotedRows now rows).map VersionRow.fixed = rows.map VersionRow.fixed :=
  map_updateWhere fun _ _ => rfl

/-- One row of a key was removed, and the others kept their fixed columns. -/
structure Removes (st st' : VersionStore) (bucket key : Text) (a : VersionRow) : Prop where
  unique : (st.keyRows bucket key).filter (fun r => r.id == a.id) = [a]
  rows : (st'.keyRows bucket key).map VersionRow.fixed =
    (deleteWhere (fun r => r.id == a.id) (st.keyRows bucket key)).map VersionRow.fixed

def StepsKey (st st' : VersionStore) (state : BucketVersioningState) (bucket key : Text) : Prop :=
  ∃ rows current, Writes st st' bucket key rows current ∧
    KeyStep state (st.keyRows bucket key) ((st.currentObjects bucket key).map (·.id)) rows current

section Operations

variable {st st' : VersionStore} {bucket key : Text} {state : BucketVersioningState}

theorem StepsKey.refl (st : VersionStore) (state : BucketVersioningState) (bucket key : Text) :
    StepsKey st st state bucket key := ⟨_, _, Writes.refl st bucket key, KeyStep.unchanged⟩

variable {now : ℤ} {versionId : PublicVersionId} {ids : InstallIds} {result : DeleteVersionResult}
  {row selected : VersionRow}

/-- **`prepare_install`**: the kept rows, a new greatest sequence, and the null id unless the bucket
is enabled. -/
theorem prepareInstall_spec {uuid : Uuid} {sequence : ℤ}
    (h : st.prepareInstall bucket key state uuid now = .ok (st', sequence, versionId)) :
    Writes st st' bucket key (keptRows state (demotedRows now (st.keyRows bucket key)))
        ((st.currentObjects bucket key).map (·.id)) ∧
      (asDbValue versionId = none ↔ state ≠ .enabled) ∧
      ((∀ r ∈ st.keyRows bucket key, 0 < r.sequence) →
        0 < sequence ∧ ∀ r ∈ st.keyRows bucket key, r.sequence < sequence) := by
  obtain ⟨sequence', hsequence, h⟩ := of_bind h
  have hspec := allocateNextSequence_spec hsequence
  -- the two states that give up the null slot run the same statements
  have hnull : ∀ {st₂ : VersionStore} {sequence₂ : ℤ} {versionId₂ : PublicVersionId},
      (do
        let st ← st.demoteCurrentVersion bucket key now
        let st ← st.removeNullSlot bucket key
        .ok (st, sequence', .null) : AppResult _) = .ok (st₂, sequence₂, versionId₂) →
      Writes st st₂ bucket key
          (deleteWhere (·.versionId.isNone) (demotedRows now (st.keyRows bucket key)))
          ((st.currentObjects bucket key).map (·.id)) ∧
        asDbValue versionId₂ = none ∧ sequence' = sequence₂ := by
    intro st₂ sequence₂ versionId₂ h
    obtain ⟨st₁, hdemote, h⟩ := of_bind h
    obtain ⟨st₂, hremove, h⟩ := of_bind h
    obtain ⟨rfl, rfl, rfl⟩ := Prod.mk.inj (Except.ok.inj h) |>.imp id Prod.mk.inj
    have hdemoted := demoteCurrentVersion_spec hdemote
    have hremoved := removeNullSlot_spec hremove
    rw [hdemoted.rows_eq, hdemoted.current_eq] at hremoved
    exact ⟨hdemoted.trans hremoved, rfl, rfl⟩
  cases state with
  | enabled =>
    obtain ⟨st₁, hdemote, h⟩ := of_bind h
    obtain ⟨rfl, rfl, rfl⟩ := Prod.mk.inj (Except.ok.inj h) |>.imp id Prod.mk.inj
    exact ⟨demoteCurrentVersion_spec hdemote, by simp [asDbValue], hspec⟩
  | suspended =>
    obtain ⟨hwrites, hid, rfl⟩ := hnull h
    exact ⟨hwrites, by simp [hid], hspec⟩
  | unversioned =>
    obtain ⟨hwrites, hid, rfl⟩ := hnull h
    exact ⟨hwrites, by simp [hid], hspec⟩

/-- An installation on one key: the kept rows, and a new latest row. -/
def Installs (st st' : VersionStore) (state : BucketVersioningState) (bucket key : Text) : Prop :=
  ∃ now row kind, Writes st st' bucket key
      (keptRows state (demotedRows now (st.keyRows bucket key)) ++ [row]) row.objectId.toList ∧
    versionKind row = .ok kind ∧ row.isLatest = true ∧ row.becameNoncurrentAt = none ∧
    (row.versionId = none ↔ state ≠ .enabled) ∧
    ((∀ r ∈ st.keyRows bucket key, 0 < r.sequence) →
      0 < row.sequence ∧ ∀ r ∈ st.keyRows bucket key, r.sequence < row.sequence)

theorem Installs.stepsKey (h : Installs st st' state bucket key) :
    StepsKey st st' state bucket key := by
  obtain ⟨now, row, kind, hwrites, hkind, hlatest, hnoncurrent, hnull, hsequence⟩ := h
  exact ⟨_, _, hwrites, KeyStep.install now row kind hkind hlatest hnoncurrent hnull hsequence⟩

theorem install_spec {uuid rowId : Uuid} {sequence : ℤ} {kind : VersionKind}
    {objectId : Option Text} {st₁ st₂ : VersionStore}
    (hprepare : st.prepareInstall bucket key state uuid now = .ok (st₁, sequence, versionId))
    (hinsert : st₁.insertVersionRow bucket key rowId versionId kind objectId sequence now = .ok st₂)
    (hselect : st₂.setOnlyLatest bucket key objectId = .ok st') :
    Installs st st' state bucket key := by
  obtain ⟨hprepared, hnull, hsequence⟩ := prepareInstall_spec hprepare
  obtain ⟨hkind, hinserted⟩ := insertVersionRow_spec hinsert
  have hselected := setOnlyLatest_spec hselect
  rw [hinserted.rows_eq, hprepared.rows_eq] at hselected
  refine ⟨now, ⟨rowId, bucket, key, asDbValue versionId, some kind, objectId, sequence, true, now,
    none, now⟩, kind, (hprepared.trans hinserted).trans hselected, ?_, rfl, rfl, hnull, hsequence⟩
  cases kind with
  | object =>
    obtain ⟨id, rfl⟩ := isSome_iff_exists.mp (hkind.mp rfl)
    rfl
  | deleteMarker =>
    obtain rfl : objectId = none := by
      rw [← not_isSome_iff_eq_none, ← hkind]
      exact VersionKind.noConfusion
    rfl

theorem installContentVersion_spec {object : Object} {id : Text}
    (h : st.installContentVersion state object ids now = .ok (st', id)) :
    Installs st st' state object.bucket object.key := by
  obtain ⟨⟨st₁, sequence, versionId⟩, hprepare, h⟩ := of_bind h
  obtain ⟨st₂, hinsert, h⟩ := of_bind h
  obtain ⟨st₃, hselect, h⟩ := of_bind h
  cases h
  exact install_spec hprepare hinsert hselect

theorem installDeleteMarker_spec {id : Text}
    (h : st.installDeleteMarker bucket key state ids now = .ok (st', id)) :
    Installs st st' state bucket key := by
  obtain ⟨⟨st₁, sequence, versionId⟩, hprepare, h⟩ := of_bind h
  obtain ⟨st₂, hinsert, h⟩ := of_bind h
  obtain ⟨st₃, hselect, h⟩ := of_bind h
  cases h
  exact install_spec hprepare hinsert hselect

/-- **`insert_immutable_in_transaction`** adds a row that is nobody's current object. -/
theorem insertImmutable_spec {object inserted : Object}
    (h : st.insertImmutable object = .ok (st', inserted)) :
    inserted = { object with isLatest := false } ∧
      Writes st st' object.bucket object.key (st.keyRows object.bucket object.key)
        ((st.currentObjects object.bucket object.key).map (·.id)) := by
  obtain ⟨hfresh, h⟩ := of_ensure h
  obtain ⟨found, hfound, h⟩ := of_bind h
  cases h
  have hcurrent : ∀ b k, isCurrent b k { object with isLatest := false } = false := by
    intro b k
    rw [isCurrent, Bool.and_false]
  have hbucket : ({ object with isLatest := false } : Object).bucket = object.bucket := rfl
  have hkey : ({ object with isLatest := false } : Object).key = object.key := rfl
  generalize ({ object with isLatest := false } : Object) = row
    at hfresh hfound hcurrent hbucket hkey ⊢
  constructor
  · have hnone : st.objects.find? (fun o => o.id == row.id) = none :=
      find?_eq_none.mpr fun o ho => by simpa using hfresh o ho
    rw [getById, find?_append, hnone, none_or, find?_singleton,
      if_pos (by simp)] at hfound
    exact (Except.ok.inj hfound).symm
  · have hobjects : ∀ b k, (st.objects ++ [row]).filter (isCurrent b k) = st.currentObjects b k := by
      intro b k
      rw [filter_append, filter_singleton, hcurrent, currentObjects]
      exact append_nil _
    refine ⟨rfl, rfl, ?_, fun _ _ _ => rfl, fun b k _ => ?_, fun b k hne => ?_, ?_⟩
    · rw [currentObjects, hobjects]
    · rw [currentObjects, hobjects]
    · rw [keyObjects, filter_append, filter_cons_of_neg, filter_nil,
        append_nil, keyObjects]
      rw [Bool.and_eq_true, beq_iff_eq, beq_iff_eq, hbucket, hkey]
      exact fun heq => hne ⟨heq.1.symm, heq.2.symm⟩
    · rw [map_append]
      exact prefix_append _ _

theorem Installs.after_writes {st₁ : VersionStore} {current : List Text}
    (hwrites : Writes st st₁ bucket key (st.keyRows bucket key) current)
    (h : Installs st₁ st' state bucket key) : Installs st st' state bucket key := by
  rw [Installs, hwrites.rows_eq] at h
  obtain ⟨now, row, kind, hwrites', hrow⟩ := h
  exact ⟨now, row, kind, hwrites.trans hwrites', hrow⟩

theorem writeObjectVersion_spec {object : Object} {versionId : Option Text}
    (h : st.writeObjectVersion object state ids now = .ok (st', versionId)) :
    Installs st st' state object.bucket object.key := by
  obtain ⟨-, h⟩ := of_ensure h
  obtain ⟨⟨st₁, inserted⟩, hinsert, h⟩ := of_bind h
  obtain ⟨⟨st₂, publicVersionId⟩, hinstall, h⟩ := of_bind h
  cases h
  obtain ⟨rfl, hwrites⟩ := insertImmutable_spec hinsert
  exact (installContentVersion_spec hinstall).after_writes hwrites

theorem deleteUnversionedCurrentCore_spec
    (h : st.deleteUnversionedCurrentCore bucket key = .ok (st', result)) :
    Writes st st' bucket key (deleteWhere (·.versionId.isNone) (st.keyRows bucket key)) [] := by
  obtain ⟨nullSlot, -, h⟩ := of_bind h
  obtain ⟨-, h⟩ := of_ensure h
  obtain ⟨st₁, hselect, h⟩ := of_bind h
  obtain ⟨st₂, hremove, h⟩ := of_bind h
  cases h
  have hselected : Writes st st₁ bucket key (st.keyRows bucket key) [] := by
    cases hcurrent : st.currentObjects bucket key with
    | nil =>
      rw [hcurrent] at hselect
      cases hselect
      have hwrites := Writes.refl st bucket key
      rw [hcurrent] at hwrites
      exact hwrites
    | cons object rest =>
      rw [hcurrent] at hselect
      exact setOnlyLatest_spec hselect
  have hremoved := removeNullSlot_spec hremove
  rw [hselected.rows_eq, hselected.current_eq] at hremoved
  exact hselected.trans hremoved

/-- **The deletion of the current version** installs a marker; an unversioned bucket clears the null
slot instead. -/
theorem deleteCurrent_spec (h : st.deleteCurrent bucket key state ids now = .ok (st', result)) :
    Installs st st' state bucket key ∨ state = .unversioned ∧
      Writes st st' bucket key (deleteWhere (·.versionId.isNone) (st.keyRows bucket key)) [] := by
  cases state with
  | unversioned => exact Or.inr ⟨rfl, deleteUnversionedCurrentCore_spec h⟩
  | enabled =>
    obtain ⟨⟨st₁, versionId⟩, hinstall, h⟩ := of_bind h
    cases h
    exact Or.inl (installDeleteMarker_spec hinstall)
  | suspended =>
    obtain ⟨nullSlot, -, h⟩ := of_bind h
    obtain ⟨-, -, h⟩ := of_bind h
    obtain ⟨-, -, h⟩ := of_bind h
    obtain ⟨⟨st₁, versionId⟩, hinstall, h⟩ := of_bind h
    cases h
    exact Or.inl (installDeleteMarker_spec hinstall)

theorem stepsKey_deleteCurrent (h : st.deleteCurrent bucket key state ids now = .ok (st', result)) :
    StepsKey st st' state bucket key := by
  rcases deleteCurrent_spec h with hinstalls | ⟨hstate, hwrites⟩
  · exact hinstalls.stepsKey
  · exact ⟨_, _, hwrites, KeyStep.clear hstate⟩

theorem lockVersionById_spec {id : Text} (h : st.lockVersionById id = some row) :
    row ∈ st.versions ∧ row.id = id :=
  ⟨mem_of_find?_eq_some h, by simpa using find?_some h⟩

theorem keyRows_filter_id {a : VersionRow} (ha : a ∈ st.versions)
    (hcount : st.versions.countP (fun r => r.id == a.id) = 1) :
    (∀ r ∈ st.versions, (r.id == a.id) = true → r = a) ∧
      (st.keyRows a.bucket a.key).filter (fun r => r.id == a.id) = [a] := by
  obtain ⟨b, hb⟩ := exists_filter_eq_singleton hcount
  obtain rfl : a = b := eq_of_filter_eq_singleton hb ha (by simp)
  refine ⟨fun r hr hid => eq_of_filter_eq_singleton hb hr hid, ?_⟩
  rw [keyRows, filter_comm, hb, filter_cons_of_pos, filter_nil]
  exact ofKey_eq_true_iff.mpr ⟨rfl, rfl⟩

theorem selectedObject_eq {kind : VersionKind} (h : versionKind row = .ok kind) :
    selectedObject row kind = row.objectId := by
  rw [versionKind] at h
  split at h
  · cases h
    rfl
  · cases h
    exact (‹row.objectId = none›).symm
  · cases h

/-- **Promotion of the survivor** after a latest row of the key has been deleted. -/
theorem promote_spec {survivor : VersionRow} {version : ResolvedVersion}
    (h : st.promote bucket key now survivor = .ok (st', version))
    (hmem : survivor ∈ st.keyRows bucket key) :
    ∃ kind, versionKind survivor = .ok kind ∧
      (demotedRows now (st.keyRows bucket key)).countP (isPromotable survivor.id) ≤ 1 ∧
      Writes st st' bucket key
        (updateWhere (isPromotable survivor.id) promotedRow
          (demotedRows now (st.keyRows bucket key)))
        survivor.objectId.toList := by
  obtain ⟨-, h⟩ := of_ensure h
  obtain ⟨hcount, h⟩ := of_ensure h
  obtain ⟨kind, hkind, h⟩ := of_bind h
  obtain ⟨st₂, hselect, h⟩ := of_bind h
  obtain ⟨resolved, -, h⟩ := of_bind h
  cases h
  rw [selectedObject_eq hkind] at hselect
  have hdemoted := Writes.demote st bucket key now
  generalize hst₁ : ({ st with
    versions := updateWhere (isLatestOf bucket key) (demoted now) st.versions } : VersionStore) = st₁
    at hdemoted
  have hversions : updateWhere (isLatestOf bucket key) (demoted now) st.versions = st₁.versions := by
    rw [← hst₁]
  have hst : ({ st with
      versions := updateWhere (isPromotable survivor.id) promotedRow st₁.versions } :
      VersionStore) = { st₁ with
        versions := updateWhere (isPromotable survivor.id) promotedRow st₁.versions } := by
    rw [← hst₁]
  rw [hversions, hst] at hselect
  rw [hversions] at hcount
  -- the survivor itself is the one promotable row, so the update stays in the key
  obtain ⟨a, ha⟩ := exists_filter_eq_singleton hcount
  obtain ⟨hsurvivor, hofKey⟩ := mem_filter.mp hmem
  have hpromotable : ∀ r ∈ st₁.versions, isPromotable survivor.id r = true →
      ofKey bucket key r = true := by
    have hx : ∃ x ∈ st₁.versions, isPromotable survivor.id x = true ∧ ofKey bucket key x = true := by
      refine ⟨_, hversions ▸ mem_updateWhere.mpr ⟨survivor, hsurvivor, rfl⟩, ?_⟩
      by_cases hlatest : survivor.isLatest = true
      · rw [if_pos (by rw [isLatestOf, hofKey, hlatest, Bool.and_self])]
        exact ⟨by simp [isPromotable, demoted], hofKey⟩
      · rw [if_neg (by rw [isLatestOf, hofKey, Bool.true_and]; exact hlatest)]
        exact ⟨by simp [isPromotable, hlatest], hofKey⟩
    obtain ⟨x, hx, hpx, hkx⟩ := hx
    obtain rfl := eq_of_filter_eq_singleton ha hx hpx
    intro r hr hpr
    rw [eq_of_filter_eq_singleton ha hr hpr]
    exact hkx
  have hpromoted : Writes st₁ { st₁ with
      versions := updateWhere (isPromotable survivor.id) promotedRow st₁.versions }
      bucket key _ _ := Writes.update hpromotable fun _ _ _ => rfl
  have hselected := setOnlyLatest_spec hselect
  rw [hpromoted.rows_eq, hdemoted.rows_eq] at hselected
  refine ⟨kind, hkind, ?_, (hdemoted.trans hpromoted).trans hselected⟩
  rw [demotedRows, ← hdemoted.rows_eq, ← hcount]
  exact filter_sublist.countP_le

/-- **`remove_and_promote`** on a row of the key. -/
theorem removeAndPromote_spec {version : Option ResolvedVersion}
    (h : st.removeAndPromote selected now = .ok (st', version))
    (hselected : selected ∈ st.keyRows bucket key) :
    StepsKey st st' state bucket key ∧ Removes st st' bucket key selected := by
  rw [removeAndPromote] at h
  cases hlock : st.lockVersionById selected.id with
  | none =>
    rw [hlock] at h
    cases h
  | some a =>
    rw [hlock] at h
    obtain ⟨kind, -, h⟩ := of_bind h
    obtain ⟨hcount, h⟩ := of_ensure h
    -- the locked row is the selected one, since its id is unique
    obtain ⟨ha, hid⟩ := lockVersionById_spec hlock
    obtain ⟨hunique, hfilter⟩ := keyRows_filter_id ha hcount
    obtain ⟨hmem, hofKey⟩ := mem_filter.mp hselected
    obtain rfl : selected = a := hunique selected hmem (by rw [hid, beq_self_eq_true])
    obtain ⟨rfl, rfl⟩ := ofKey_eq_true_iff.mp hofKey
    have hdeleted : Writes st
        { st with versions := deleteWhere (fun r => r.id == selected.id) st.versions }
        selected.bucket selected.key _ _ :=
      Writes.delete fun r hr hrid => by
        rw [hunique r hr hrid]
        exact hofKey
    generalize ({ st with versions := deleteWhere (fun r => r.id == selected.id) st.versions } :
      VersionStore) = st₁ at hdeleted h
    by_cases hlatest : selected.isLatest = false
    · rw [if_pos hlatest] at h
      cases h
      exact ⟨⟨_, _, hdeleted, KeyStep.remove selected hfilter hlatest⟩, hfilter,
        congrArg _ hdeleted.rows_eq⟩
    rw [if_neg hlatest] at h
    cases hgreatest : greatest VersionRow.sequence
        (st₁.keyRows selected.bucket selected.key) with
    | none =>
      rw [hgreatest] at h
      obtain ⟨st₂, hselect, h⟩ := of_bind h
      cases h
      have hnone := greatest_eq_none_iff.mp hgreatest
      have hcleared := setOnlyLatest_spec hselect
      rw [hnone] at hcleared
      rw [hdeleted.rows_eq] at hnone
      refine ⟨⟨_, _, hdeleted.trans hcleared, KeyStep.removeLast selected hfilter hnone⟩, hfilter, ?_⟩
      rw [hcleared.rows_eq, hnone]
    | some survivor =>
      rw [hgreatest] at h
      obtain ⟨⟨st₂, resolved⟩, hpromote, h⟩ := of_bind h
      cases h
      obtain ⟨kind', hkind, hcount', hpromoted⟩ :=
        promote_spec hpromote (mem_of_greatest hgreatest)
      rw [hdeleted.rows_eq] at hgreatest hcount' hpromoted
      refine ⟨⟨_, _, hdeleted.trans hpromoted, KeyStep.promote now selected survivor kind' hfilter
        (by simpa using hlatest) hgreatest hkind hcount'⟩, hfilter, ?_⟩
      rw [hpromoted.rows_eq, map_updateWhere (g := VersionRow.fixed), map_fixed_demotedRows]
      exact fun _ _ => rfl

theorem selectorDbValue_eq_ok {value : Option Text} (h : selectorDbValue versionId = .ok value) :
    value = asDbValue versionId := by
  cases versionId with
  | null => exact (Except.ok.inj h).symm
  | opaqueId id =>
    obtain ⟨parsed, hparse, h⟩ := of_bind h
    cases h
    rw [PublicVersionId.parseS3] at hparse
    split_ifs at hparse with hnull
    · cases hparse
      rw [hnull]
      rfl
    · cases hparse
      rfl

theorem lockIndexedVersion_spec {resolved : ResolvedVersion}
    (h : st.lockIndexedVersion bucket key versionId = .ok (some (row, resolved))) :
    row ∈ st.keyRows bucket key ∧ row.versionId = asDbValue versionId := by
  obtain ⟨found, hfound, h⟩ := of_bind h
  cases found with
  | none => cases h
  | some row' =>
    obtain ⟨resolved', -, h⟩ := of_bind h
    obtain ⟨rfl, -⟩ := Prod.mk.inj (some.inj (Except.ok.inj h))
    obtain ⟨value, hvalue, hfound⟩ := of_bind hfound
    have hfind := Except.ok.inj hfound
    refine ⟨mem_of_find?_eq_some hfind, ?_⟩
    have hid := find?_some hfind
    rw [← selectorDbValue_eq_ok hvalue]
    exact beq_iff_eq.mp hid

theorem deleteExactCore_spec (h : st.deleteExactCore bucket key versionId now = .ok (st', result)) :
    StepsKey st st' state bucket key ∧
      ∃ a, a.versionId = asDbValue versionId ∧ Removes st st' bucket key a := by
  obtain ⟨found, hfound, h⟩ := of_bind h
  rcases found with - | ⟨row, resolved⟩
  · cases h
  · obtain ⟨-, -, h⟩ := of_bind h
    obtain ⟨⟨st₁, version⟩, hremove, h⟩ := of_bind h
    cases h
    obtain ⟨hmem, hid⟩ := lockIndexedVersion_spec hfound
    obtain ⟨hstep, hremoves⟩ := removeAndPromote_spec hremove hmem
    exact ⟨hstep, row, hid, hremoves⟩

theorem deleteVersionAttempt_spec {selector : VersionSelector} {databaseNow : ℤ}
    (h : st.deleteVersionAttempt bucket key selector ids now databaseNow = .ok (st', result)) :
    ∃ state, getVersioningState st.states bucket = .ok state ∧ StepsKey st st' state bucket key := by
  obtain ⟨state, hstate, h⟩ := of_bind h
  refine ⟨state, hstate, ?_⟩
  cases selector with
  | current => exact stepsKey_deleteCurrent h
  | exact versionId =>
    obtain ⟨-, h⟩ := of_ensure h
    exact (deleteExactCore_spec h).1

theorem isSoleMarker_spec (h : isSoleMarker selected row = true) :
    ofKey selected.bucket selected.key row = true ∧ row.kind = some .deleteMarker ∧
      row.isLatest = true := by
  simp only [isSoleMarker, Bool.and_eq_true, beq_iff_eq] at h
  exact ⟨h.1.1.1.1.1.2, h.1.1.1.1.2, h.1.2⟩

theorem deleteWhere_isSoleMarker (hlength : (st.keyRows selected.bucket selected.key).length = 1)
    (hcount : st.versions.countP (isSoleMarker selected) ≠ 1) :
    deleteWhere (isSoleMarker selected) st.versions = st.versions := by
  refine deleteWhere_of_forall_not fun r hr => ?_
  by_contra hsole
  have hpos : 0 < st.versions.countP (isSoleMarker selected) :=
    countP_pos_iff.mpr ⟨r, hr, by simpa using hsole⟩
  have hle : st.versions.countP (isSoleMarker selected) ≤
      st.versions.countP (ofKey selected.bucket selected.key) :=
    countP_mono_left fun x _ hx => (isSoleMarker_spec hx).1
  rw [countP_eq_length_filter (l := st.versions) (p := ofKey _ _)] at hle
  rw [keyRows] at hlength
  omega

/-- **`delete_current_sole_marker`** deletes the only row of the key, a latest delete marker, or
nothing. -/
theorem deleteCurrentSoleMarker_spec {result : ExactCurrentMarkerDeleteResult}
    (h : st.deleteCurrentSoleMarker selected = .ok (st', result)) :
    StepsKey st st' state selected.bucket selected.key := by
  have hrefl : ∀ {result' : ExactCurrentMarkerDeleteResult},
      (.ok (st, result') : AppResult _) = .ok (st', result) →
        StepsKey st st' state selected.bucket selected.key := by
    intro result' hok
    cases hok
    exact StepsKey.refl st state _ _
  rw [deleteCurrentSoleMarker] at h
  by_cases hlatest : selected.isLatest = false
  · rw [if_pos hlatest] at h
    exact hrefl h
  rw [if_neg hlatest] at h
  obtain ⟨kind, -, h⟩ := of_bind h
  by_cases hkind : kind ≠ .deleteMarker
  · rw [if_pos hkind] at h
    exact hrefl h
  rw [if_neg hkind] at h
  by_cases hlength : (st.keyRows selected.bucket selected.key).length ≠ 1
  · rw [if_pos hlength] at h
    exact hrefl h
  rw [if_neg hlength] at h
  rw [ne_eq, not_not] at hlength
  by_cases hcount : st.versions.countP (isSoleMarker selected) = 1
  · rw [if_pos hcount] at h
    cases h
    obtain ⟨a, ha⟩ := length_eq_one_iff.mp hlength
    obtain ⟨x, hx⟩ := exists_filter_eq_singleton hcount
    obtain ⟨hmem, hsole⟩ := mem_filter.mp (hx ▸ mem_singleton_self x)
    obtain ⟨hofKey, hmarker, hlatest'⟩ := isSoleMarker_spec hsole
    obtain rfl : x = a := by
      have hmem' : x ∈ st.keyRows selected.bucket selected.key :=
        mem_filter.mpr ⟨hmem, hofKey⟩
      rw [ha] at hmem'
      exact mem_singleton.mp hmem'
    have hdeleted : Writes st
        { st with versions := deleteWhere (isSoleMarker selected) st.versions }
        selected.bucket selected.key _ _ := Writes.delete fun r _ hr => (isSoleMarker_spec hr).1
    have hnil : deleteWhere (isSoleMarker selected) (st.keyRows selected.bucket selected.key) = [] := by
      rw [ha, deleteWhere, filter_cons_of_neg (by rw [hsole]; decide), filter_nil]
    rw [hnil] at hdeleted
    exact ⟨_, _, hdeleted, KeyStep.removeMarker x ha hmarker hlatest'⟩
  · rw [if_neg hcount] at h
    dsimp only at h
    rw [deleteWhere_isSoleMarker hlength hcount] at h
    split_ifs at h
    · exact hrefl h
    · exact hrefl h

/-- **What a lifecycle deletion runs**: nothing, or one of the three deletions on its target. -/
theorem executeLifecycleDelete_cases {target : VersionTargetIdentity}
    {action : LifecycleActionKind} {databaseNow : ℤ} {result : GuardedLifecycleExecutionResult}
    (h : st.executeLifecycleDelete target action ids now databaseNow = .ok (st', result)) :
    ∃ state, getVersioningState st.states target.bucket = .ok state ∧
      (st' = st ∨
        (action = .expireCurrent ∧ ∃ deleted,
          st.deleteCurrent target.bucket target.key state ids now = .ok (st', deleted)) ∨
        (action = .deleteExpiredMarker ∧ ∃ selected deleted, selected.id = target.versionRowId ∧
          selected.bucket = target.bucket ∧ selected.key = target.key ∧
          st.deleteCurrentSoleMarker selected = .ok (st', deleted)) ∨
        (action = .expireNoncurrent ∧ ∃ deleted,
          st.deleteExactCore target.bucket target.key target.publicVersionId databaseNow =
            .ok (st', deleted))) := by
  obtain ⟨-, h⟩ := of_ensure h
  obtain ⟨state, hstate, h⟩ := of_bind h
  refine ⟨state, hstate, ?_⟩
  have hstale : ∀ {result' : GuardedLifecycleExecutionResult},
      (.ok (st, result') : AppResult _) = .ok (st', result) → st' = st :=
    fun hok => (Prod.mk.inj (Except.ok.inj hok)).1.symm
  cases hlock : st.lockVersionById target.versionRowId with
  | none =>
    rw [hlock] at h
    exact Or.inl (hstale h)
  | some selected =>
    rw [hlock] at h
    obtain ⟨matched, hmatched, h⟩ := of_bind h
    by_cases hfalse : matched = false
    · rw [if_pos hfalse] at h
      exact Or.inl (hstale h)
    rw [if_neg hfalse] at h
    cases action with
    | expireCurrent =>
      dsimp only at h
      split_ifs at h
      · exact Or.inl (hstale h)
      · obtain ⟨⟨st₁, deleted⟩, hdelete, h⟩ := of_bind h
        cases h
        exact Or.inr (Or.inl ⟨rfl, deleted, hdelete⟩)
    | deleteExpiredMarker =>
      dsimp only at h
      split_ifs at h
      · exact Or.inl (hstale h)
      · obtain ⟨⟨st₁, deleted⟩, hdelete, h⟩ := of_bind h
        obtain rfl : st₁ = st' := by
          cases deleted <;> exact (Prod.mk.inj (Except.ok.inj h)).1
        obtain ⟨hbucket, hkey⟩ : selected.bucket = target.bucket ∧ selected.key = target.key := by
          rw [targetMatchesRow] at hmatched
          split_ifs at hmatched with hcolumns
          · exact ⟨hcolumns.1, hcolumns.2.1⟩
          · exact absurd (Except.ok.inj hmatched).symm hfalse
        exact Or.inr (Or.inr (Or.inl ⟨rfl, selected, deleted, (lockVersionById_spec hlock).2,
          hbucket, hkey, hdelete⟩))
    | expireNoncurrent =>
      dsimp only at h
      split_ifs at h
      · exact Or.inl (hstale h)
      · obtain ⟨⟨st₁, deleted⟩, hdelete, h⟩ := of_bind h
        cases h
        exact Or.inr (Or.inr (Or.inr ⟨rfl, deleted, hdelete⟩))
    | abortIncompleteMultipartUpload => cases h
    | transitionCurrent => cases h
    | transitionNoncurrent => cases h

/-- **A lifecycle deletion** is a step on the target's key. -/
theorem executeLifecycleDelete_spec {target : VersionTargetIdentity}
    {action : LifecycleActionKind} {databaseNow : ℤ} {result : GuardedLifecycleExecutionResult}
    (h : st.executeLifecycleDelete target action ids now databaseNow = .ok (st', result)) :
    ∃ state, getVersioningState st.states target.bucket = .ok state ∧
      StepsKey st st' state target.bucket target.key := by
  obtain ⟨state, hstate, hcases⟩ := executeLifecycleDelete_cases h
  refine ⟨state, hstate, ?_⟩
  rcases hcases with rfl | ⟨-, deleted, hdelete⟩ | ⟨-, selected, deleted, -, hbucket, hkey, hdelete⟩ |
    ⟨-, deleted, hdelete⟩
  · exact StepsKey.refl st' state _ _
  · exact stepsKey_deleteCurrent hdelete
  · have hstep : StepsKey st st' state selected.bucket selected.key :=
      deleteCurrentSoleMarker_spec hdelete
    rw [hbucket, hkey] at hstep
    exact hstep
  · exact (deleteExactCore_spec hdelete).1

theorem getVersioningState_eq_ok_iff {states : List (Text × BucketVersioningState)} :
    getVersioningState states bucket = .ok state ↔ states.lookup bucket = some state := by
  rw [getVersioningState]
  cases states.lookup bucket with
  | none => simp
  | some state' => simp

theorem lookup_updateWhere (states : List (Text × BucketVersioningState)) (b : Text) :
    (updateWhere (fun row => row.1 == bucket) (fun row => (row.1, state)) states).lookup b =
      states.lookup b ∨
    (updateWhere (fun row => row.1 == bucket) (fun row => (row.1, state)) states).lookup b =
      some state := by
  induction states with
  | nil => exact Or.inl rfl
  | cons row states ih =>
    rw [updateWhere, map_cons, lookup_cons]
    split_ifs with hrow
    · cases hb : b == row.1 with
      | true => exact Or.inr rfl
      | false =>
        rw [lookup_cons, hb]
        exact ih
    · cases hb : b == row.1 with
      | true => exact Or.inl (by rw [lookup_cons, hb])
      | false =>
        rw [lookup_cons, hb]
        exact ih

/-- **`set_versioning_state`** never makes a bucket unversioned. -/
theorem setVersioningState_spec (h : st.setVersioningState bucket state = .ok st') :
    st'.objects = st.objects ∧ st'.versions = st.versions ∧
      ∀ b, st'.states.lookup b = some .unversioned → st.states.lookup b = some .unversioned := by
  obtain ⟨hstate, h⟩ := of_ensure h
  obtain ⟨current, -, h⟩ := of_bind h
  split_ifs at h with hcurrent
  · cases h
    exact ⟨rfl, rfl, fun b hb => hb⟩
  · obtain ⟨-, h⟩ := of_ensure h
    cases h
    refine ⟨rfl, rfl, fun b hb => ?_⟩
    rcases lookup_updateWhere st.states b with hsame | hset
    · exact hsame.symm.trans hb
    · exact absurd (some.inj (hset.symm.trans hb)) hstate

/-- **What a transaction does**: a step on one key in the versioning state of its bucket, or a change
of versioning states that makes no bucket unversioned. -/
theorem transact_spec {op : VersionOperation} (h : transact st op = .ok st') :
    (∃ state bucket key, st.states.lookup bucket = some state ∧
        StepsKey st st' state bucket key) ∨
      (st'.objects = st.objects ∧ st'.versions = st.versions ∧
        ∀ b, st'.states.lookup b = some .unversioned → st.states.lookup b = some .unversioned) := by
  cases op with
  | publish object ids now =>
    obtain ⟨state, hstate, h⟩ := of_bind h
    obtain ⟨⟨st₁, versionId⟩, hwrite, h⟩ := of_bind h
    cases h
    exact Or.inl ⟨state, _, _, getVersioningState_eq_ok_iff.mp hstate,
      (writeObjectVersion_spec hwrite).stepsKey⟩
  | deleteVersion bucket key selector ids now databaseNow =>
    obtain ⟨⟨st₁, result⟩, hdelete, h⟩ := of_bind h
    cases h
    obtain ⟨state, hstate, hstep⟩ := deleteVersionAttempt_spec hdelete
    exact Or.inl ⟨state, _, _, getVersioningState_eq_ok_iff.mp hstate, hstep⟩
  | lifecycleDelete target action ids now databaseNow =>
    obtain ⟨⟨st₁, result⟩, hdelete, h⟩ := of_bind h
    cases h
    obtain ⟨state, hstate, hstep⟩ := executeLifecycleDelete_spec hdelete
    exact Or.inl ⟨state, _, _, getVersioningState_eq_ok_iff.mp hstate, hstep⟩
  | setVersioningState bucket state => exact Or.inr (setVersioningState_spec h)

end Operations

end IpfS3.Store
