import IpfS3.AppError
import IpfS3.Store.Objects
import IpfS3.Foundations.Fallible

/-!
# The version index

The rows of `store/object_version.rs`: what a row resolves to (`resolvedFromRow`), and
`scanVersions`, the query behind `ListObjectVersions`.  Its order is key ascending and then
sequence descending; the third order column never decides, since the sequences of one key are
distinct.

A cursor is inclusive: a scan from the cursor of a row starts with that row
(`scanVersions_cursor`).  A cursor with the least sequence and no version id addresses the boundary
after a key instead.
-/

namespace IpfS3.Store

open Keyset Fallible List

def nullVersionId : Text := Text.ascii ['n', 'u', 'l', 'l']

inductive StorageClass where
  | standard
  | standardIa
  deriving DecidableEq

inductive BucketVersioningState where
  | unversioned
  | enabled
  | suspended
  deriving DecidableEq

inductive PublicVersionId where
  | null
  | opaqueId (value : Text)
  deriving DecidableEq

inductive VersionKind where
  | object
  | deleteMarker
  deriving DecidableEq

/-- A row of `object_versions`; `kind` is the column text when it is one of the two known ones. -/
structure VersionRow where
  id : Text
  bucket : Text
  key : Text
  versionId : Option Text
  kind : Option VersionKind
  objectId : Option Text
  sequence : ℤ
  isLatest : Bool
  lifecycleAgeStartedAt : ℤ
  becameNoncurrentAt : Option ℤ
  createdAt : ℤ
  deriving DecidableEq

/-- `ResolvedVersion`, whose constructor rejects a content version without its object and a delete
marker with one. -/
structure ResolvedVersion where
  id : Text
  key : Text
  publicVersionId : Text
  kind : VersionKind
  object : Option Object
  isLatest : Bool
  sequence : ℤ
  lifecycleAgeStartedAt : ℤ
  becameNoncurrentAt : Option ℤ
  createdAt : ℤ
  object_isSome : kind = .object ↔ object.isSome = true
  deriving DecidableEq

structure VersionCursor where
  key : Text
  sequence : ℤ
  publicVersionId : Text
  deriving DecidableEq

/-! ## Resolving a row -/

def invalidVersionIndex : AppError := .internal "invalid object version index row"

def isHexDigit (c : UInt8) : Bool := (48 ≤ c && c ≤ 57) || (97 ≤ c && c ≤ 102)

/-- The text of a UUID as `Uuid::to_string` writes it: hexadecimal digits in groups of 8, 4, 4, 4
and 12. -/
def isCanonicalUuid (value : Text) : Bool :=
  value.length == 36 &&
    value.zipIdx.all fun (c, i) => if i ∈ [8, 13, 18, 23] then c == 45 else isHexDigit c

def PublicVersionId.parseS3 (value : Text) : AppResult PublicVersionId :=
  if value = nullVersionId then .ok .null
  else if isCanonicalUuid value then .ok (.opaqueId value)
  else .error (.invalidArgument "version ID must be `null` or a canonical UUID")

def PublicVersionId.asS3Str : PublicVersionId → Text
  | .null => nullVersionId
  | .opaqueId value => value

def versionKind (row : VersionRow) : AppResult VersionKind :=
  match row.kind, row.objectId with
  | some .object, some _ => .ok .object
  | some .deleteMarker, none => .ok .deleteMarker
  | _, _ => .error invalidVersionIndex

def publicVersionId (row : VersionRow) : AppResult PublicVersionId :=
  match row.versionId with
  | none => .ok .null
  | some value => (PublicVersionId.parseS3 value).mapError fun _ => invalidVersionIndex

/-- `resolved_from_row` without the check of the current projection, which a scan does not ask
for. -/
def resolvedFromRow (objects : List Object) (row : VersionRow) : AppResult ResolvedVersion := do
  let kind ← versionKind row
  let versionId ← publicVersionId row
  match kind with
  | .object =>
    match objects.find? fun o => some o.id == row.objectId with
    | none => .error invalidVersionIndex
    | some object =>
      if object.bucket ≠ row.bucket ∨ object.key ≠ row.key then .error invalidVersionIndex
      else .ok ⟨row.id, row.key, versionId.asS3Str, .object, some object, row.isLatest,
        row.sequence, row.lifecycleAgeStartedAt, row.becameNoncurrentAt, row.createdAt, by simp⟩
  | .deleteMarker =>
    .ok ⟨row.id, row.key, versionId.asS3Str, .deleteMarker, none, row.isLatest,
      row.sequence, row.lifecycleAgeStartedAt, row.becameNoncurrentAt, row.createdAt, by simp⟩

def versionCursor (version : ResolvedVersion) : VersionCursor :=
  ⟨version.key, version.sequence, version.publicVersionId⟩

variable {row : VersionRow} {version : ResolvedVersion}

theorem resolvedFromRow_fields {objects : List Object}
    (h : resolvedFromRow objects row = .ok version) :
    version.id = row.id ∧ version.key = row.key ∧ version.sequence = row.sequence ∧
      ∃ id, publicVersionId row = .ok id ∧ version.publicVersionId = id.asS3Str := by
  obtain ⟨kind, -, h⟩ := of_bind h
  obtain ⟨id, hid, h⟩ := of_bind h
  cases kind with
  | object =>
    simp only at h
    split at h
    · cases h
    · split_ifs at h
      cases h
      exact ⟨rfl, rfl, rfl, id, hid, rfl⟩
  | deleteMarker =>
    cases h
    exact ⟨rfl, rfl, rfl, id, hid, rfl⟩

/-! ## Scanning -/

/-- The bucket states, objects and version rows of one database state.  Sequences of one key are
distinct by a unique index; every row has a known kind, its object, and a version id that is absent
or a UUID. -/
structure VersionCatalog where
  states : List (Text × BucketVersioningState)
  objects : List Object
  versions : List VersionRow
  sequence_unique : versions.Pairwise fun a b =>
    a.bucket = b.bucket → a.key = b.key → a.sequence ≠ b.sequence
  versionId_canonical : ∀ row ∈ versions, ∀ value, row.versionId = some value →
    isCanonicalUuid value = true
  resolvable : ∀ row ∈ versions, ∃ version, resolvedFromRow objects row = .ok version

def getVersioningState (states : List (Text × BucketVersioningState)) (bucket : Text) :
    AppResult BucketVersioningState :=
  match states.lookup bucket with
  | none => .error (.noSuchBucket bucket)
  | some state => .ok state

/-- `KEY_BOUNDARY_SEQUENCE`, the least `i64`. -/
def keyBoundarySequence : ℤ := -2 ^ 63

def isKeyBoundary (cursor : VersionCursor) : Bool :=
  cursor.sequence == keyBoundarySequence && cursor.publicVersionId.isEmpty

/-- The condition of a scan on rows with the cursor's key. -/
def sameKeyAfterCursor (cursor : VersionCursor) : AppResult (VersionRow → Bool) :=
  if cursor.publicVersionId = nullVersionId then
    .ok fun row => decide (row.sequence < cursor.sequence) ||
      (row.sequence == cursor.sequence && row.versionId.isNone)
  else do
    let versionId ← PublicVersionId.parseS3 cursor.publicVersionId
    .ok fun row => decide (row.sequence < cursor.sequence) ||
      (row.sequence == cursor.sequence &&
        row.versionId.any fun value => decide (versionId.asS3Str ≤ value))

/-- The condition a cursor adds to a scan. -/
def cursorFilter : Option VersionCursor → AppResult (VersionRow → Bool)
  | none => .ok fun _ => true
  | some cursor =>
    if isKeyBoundary cursor then .ok fun row => decide (cursor.key < row.key)
    else do
      let same ← sameKeyAfterCursor cursor
      .ok fun row => decide (cursor.key < row.key) || (row.key == cursor.key && same row)

/-- The order of a scan: key ascending, sequence descending. -/
def scanOrder (row : VersionRow) : Text ×ₗ ℤᵒᵈ := toLex (row.key, OrderDual.toDual row.sequence)

section Scan

variable (keyStartsWith : Text → Text → Bool) (db : VersionCatalog) (bucket pfx : Text)

def scanVersions (cursor : Option VersionCursor) (limit : ℕ) :
    AppResult (List ResolvedVersion) := do
  let state ← getVersioningState db.states bucket
  if state = .unversioned ∨ limit = 0 then .ok []
  else
    let afterCursor ← cursorFilter cursor
    let rows := sortBy scanOrder (db.versions.filter fun row =>
      afterCursor row && (row.bucket == bucket && keyStartsWith row.key pfx))
    (rows.take limit).mapM (resolvedFromRow db.objects)

/-- Every row a scan can return, in scan order. -/
def matchingVersions : List VersionRow :=
  sortBy scanOrder (db.versions.filter fun row => row.bucket == bucket && keyStartsWith row.key pfx)

/-- The versions a scan can return, in scan order. -/
def scanRows : List ResolvedVersion :=
  (matchingVersions keyStartsWith db bucket pfx).filterMap fun row =>
    (resolvedFromRow db.objects row).toOption

variable {keyStartsWith db bucket pfx}

theorem mem_matchingVersions :
    row ∈ matchingVersions keyStartsWith db bucket pfx ↔
      row ∈ db.versions ∧ row.bucket = bucket ∧ keyStartsWith row.key pfx = true := by
  simp [matchingVersions]

theorem scanOrder_lt_iff {a b : VersionRow} :
    scanOrder a < scanOrder b ↔ a.key < b.key ∨ a.key = b.key ∧ b.sequence < a.sequence := by
  rw [scanOrder, scanOrder, Prod.Lex.toLex_lt_toLex]
  exact Iff.rfl

theorem pairwise_scanOrder_ne : (db.versions.filter fun row =>
    row.bucket == bucket && keyStartsWith row.key pfx).Pairwise
      fun a b => scanOrder a ≠ scanOrder b := by
  rw [pairwise_filter]
  refine db.sequence_unique.imp fun {a b} hab ha hb heq => ?_
  simp only [Bool.and_eq_true, beq_iff_eq] at ha hb
  obtain ⟨hkey, hseq⟩ := Prod.mk.inj (toLex.injective heq)
  exact hab (ha.1.trans hb.1.symm) hkey (OrderDual.toDual.injective hseq)

theorem ascending_matchingVersions :
    Ascending scanOrder (matchingVersions keyStartsWith db bucket pfx) :=
  ascending_sortBy _ pairwise_scanOrder_ne

theorem forall₂_scanRows : List.Forall₂ (fun row version =>
      resolvedFromRow db.objects row = .ok version)
    (matchingVersions keyStartsWith db bucket pfx) (scanRows keyStartsWith db bucket pfx) := by
  refine forall₂_filterMap_toOption fun row hrow => ?_
  exact db.resolvable row (mem_matchingVersions.mp hrow).1

theorem publicVersionId_eq {id : PublicVersionId}
    (hcanonical : ∀ value, row.versionId = some value → isCanonicalUuid value = true)
    (h : publicVersionId row = .ok id) :
    (row.versionId = none ∧ id = .null) ∨
      ∃ value, row.versionId = some value ∧ id = .opaqueId value ∧ value ≠ nullVersionId ∧
        value ≠ [] ∧ PublicVersionId.parseS3 value = .ok id := by
  cases hv : row.versionId with
  | none =>
    rw [publicVersionId, hv] at h
    exact Or.inl ⟨rfl, (Except.ok.inj h).symm⟩
  | some value =>
    have hvalue := hcanonical value hv
    have hlength : value.length = 36 := by
      rw [isCanonicalUuid, Bool.and_eq_true, beq_iff_eq] at hvalue
      exact hvalue.1
    have hnull : value ≠ nullVersionId := by
      rintro rfl
      exact absurd hlength (by decide)
    have hnil : value ≠ [] := by
      rintro rfl
      exact absurd hlength (by decide)
    have hparse : PublicVersionId.parseS3 value = .ok (.opaqueId value) := by
      rw [PublicVersionId.parseS3, if_neg hnull, if_pos hvalue]
    rw [publicVersionId, hv] at h
    simp only [hparse] at h
    obtain rfl : PublicVersionId.opaqueId value = id := Except.ok.inj h
    exact Or.inr ⟨value, rfl, rfl, hnull, hnil, hparse⟩

theorem cursorFilter_versionCursor {objects : List Object}
    (hcanonical : ∀ value, row.versionId = some value → isCanonicalUuid value = true)
    (h : resolvedFromRow objects row = .ok version) :
    ∃ p, cursorFilter (some (versionCursor version)) = .ok p ∧ p row = true ∧
      (∀ r, scanOrder row < scanOrder r → p r = true) ∧
      ∀ r, scanOrder r < scanOrder row → p r = false := by
  obtain ⟨-, hkey, hseq, id, hid, hpublic⟩ := resolvedFromRow_fields h
  -- both forms of the same-key condition keep the row and order other sequences
  have hsame : ∃ same, sameKeyAfterCursor (versionCursor version) = .ok same ∧ same row = true ∧
      (∀ r, r.sequence < row.sequence → same r = true) ∧
      ∀ r, row.sequence < r.sequence → same r = false := by
    rcases publicVersionId_eq hcanonical hid with ⟨hnone, rfl⟩ | ⟨value, hv, rfl, hnull, -, hparse⟩
    · have hpublic' : (versionCursor version).publicVersionId = nullVersionId := hpublic
      refine ⟨_, by rw [sameKeyAfterCursor, if_pos hpublic'], ?_, fun r hr => ?_, fun r hr => ?_⟩
      · simp [versionCursor, hseq, hnone]
      · simp [versionCursor, hseq, hr]
      · simp [versionCursor, hseq, hr.le, hr.ne']
    · have hpublic' : (versionCursor version).publicVersionId = value := hpublic
      refine ⟨_, by rw [sameKeyAfterCursor, hpublic', if_neg hnull, hparse]; rfl, ?_, fun r hr => ?_,
        fun r hr => ?_⟩
      · simp [versionCursor, hseq, hv, PublicVersionId.asS3Str]
      · simp [versionCursor, hseq, hr]
      · simp [versionCursor, hseq, hr.le, hr.ne']
  have hboundary : isKeyBoundary (versionCursor version) = false := by
    rcases publicVersionId_eq hcanonical hid with ⟨-, rfl⟩ | ⟨value, -, rfl, -, hnil, -⟩
    · simp [isKeyBoundary, versionCursor, hpublic, PublicVersionId.asS3Str, nullVersionId,
        Text.ascii]
    · simp [isKeyBoundary, versionCursor, hpublic, PublicVersionId.asS3Str, hnil]
  obtain ⟨same, hok, hrow, hlater, hearlier⟩ := hsame
  refine ⟨fun r => decide (version.key < r.key) || (r.key == version.key && same r), ?_, ?_,
    fun r hr => ?_, fun r hr => ?_⟩
  · rw [cursorFilter, hboundary]
    simp only [Bool.false_eq_true, if_false, hok]
    rfl
  · simp [hkey, hrow]
  · rcases scanOrder_lt_iff.mp hr with hlt | ⟨heq, hlt⟩
    · rw [hkey, Bool.or_eq_true]
      exact Or.inl (decide_eq_true hlt)
    · simp [hkey, heq, hlater r hlt]
  · rw [hkey, Bool.or_eq_false_iff]
    rcases scanOrder_lt_iff.mp hr with hlt | ⟨heq, hlt⟩
    · exact ⟨decide_eq_false hlt.not_gt, by simp [hlt.ne]⟩
    · exact ⟨decide_eq_false (by rw [heq]; exact lt_irrefl _), by simp [hearlier r hlt]⟩

section Batch

variable {state : BucketVersioningState} {limit : ℕ}

theorem scanVersions_eq (hstate : getVersioningState db.states bucket = .ok state)
    (hversioned : state ≠ .unversioned) (hlimit : limit ≠ 0) {cursor : Option VersionCursor}
    {p : VersionRow → Bool} (hp : cursorFilter cursor = .ok p) :
    scanVersions keyStartsWith db bucket pfx cursor limit =
      (((matchingVersions keyStartsWith db bucket pfx).filter p).take limit).mapM
        (resolvedFromRow db.objects) := by
  rw [scanVersions, hstate, matchingVersions, ← sortBy_filter _ pairwise_scanOrder_ne,
    filter_filter]
  show (if state = .unversioned ∨ limit = 0 then _ else _) = _
  rw [if_neg (not_or.mpr ⟨hversioned, hlimit⟩), hp]
  rfl

theorem scanVersions_unversioned (hstate : getVersioningState db.states bucket = .ok .unversioned)
    (cursor : Option VersionCursor) :
    scanVersions keyStartsWith db bucket pfx cursor limit = .ok [] := by
  rw [scanVersions, hstate]
  simp [bind, Except.bind]

/-- **A scan without a cursor** reads the first rows. -/
theorem scanVersions_none (hstate : getVersioningState db.states bucket = .ok state)
    (hversioned : state ≠ .unversioned) (hlimit : limit ≠ 0) :
    scanVersions keyStartsWith db bucket pfx none limit =
      .ok ((scanRows keyStartsWith db bucket pfx).take limit) := by
  rw [scanVersions_eq hstate hversioned hlimit rfl, filter_true]
  exact mapM_eq_ok_iff.mpr (forall₂_take limit forall₂_scanRows)

/-- **A scan from the cursor of a row** reads that row and the ones after it. -/
theorem scanVersions_cursor (hstate : getVersioningState db.states bucket = .ok state)
    (hversioned : state ≠ .unversioned) (hlimit : limit ≠ 0) {A B : List ResolvedVersion}
    (h : scanRows keyStartsWith db bucket pfx = A ++ version :: B) :
    scanVersions keyStartsWith db bucket pfx (some (versionCursor version)) limit =
      .ok ((version :: B).take limit) := by
  have hall : List.Forall₂ _ (matchingVersions keyStartsWith db bucket pfx) (A ++ version :: B) :=
    h ▸ forall₂_scanRows
  have hdrop := forall₂_drop_append _ A (version :: B) hall
  obtain ⟨row, rows, hrow, hrows, hsplit⟩ := forall₂_cons_right_iff.mp hdrop
  have hmatching : matchingVersions keyStartsWith db bucket pfx =
      (matchingVersions keyStartsWith db bucket pfx).take A.length ++ row :: rows := by
    rw [← hsplit, take_append_drop]
  have hmem : row ∈ db.versions :=
    (mem_matchingVersions.mp (hmatching ▸ mem_append_right _ mem_cons_self)).1
  have hasc : Ascending scanOrder (matchingVersions keyStartsWith db bucket pfx) :=
    ascending_matchingVersions
  rw [hmatching, Ascending, pairwise_append, pairwise_cons] at hasc
  obtain ⟨p, hp, hprow, hlater, hearlier⟩ :=
    cursorFilter_versionCursor (db.versionId_canonical row hmem) hrow
  have hbefore : ((matchingVersions keyStartsWith db bucket pfx).take A.length).filter p = [] := by
    refine filter_eq_nil_iff.mpr fun r hr => ?_
    rw [hearlier r (hasc.2.2 r hr row mem_cons_self)]
    exact Bool.false_ne_true
  have hafter : rows.filter p = rows :=
    filter_eq_self.mpr fun r hr => hlater r (hasc.2.1.1 r hr)
  have hfilter : (matchingVersions keyStartsWith db bucket pfx).filter p = row :: rows := by
    rw [hmatching, filter_append, hbefore, filter_cons_of_pos hprow, hafter,
      nil_append]
  rw [scanVersions_eq hstate hversioned hlimit hp, hfilter]
  exact mapM_eq_ok_iff.mpr (forall₂_take limit (List.Forall₂.cons hrow hrows))

end Batch

theorem pairwise_scanRows : (scanRows keyStartsWith db bucket pfx).Pairwise fun a b =>
    a.key < b.key ∨ a.key = b.key ∧ b.sequence < a.sequence := by
  refine pairwise_of_forall₂ forall₂_scanRows ascending_matchingVersions
    fun a a' b b' hab hab' hlt => ?_
  obtain ⟨-, hkey, hseq, -⟩ := resolvedFromRow_fields hab
  obtain ⟨-, hkey', hseq', -⟩ := resolvedFromRow_fields hab'
  rw [hkey, hseq, hkey', hseq']
  exact scanOrder_lt_iff.mp hlt

theorem pairwise_key_scanRows :
    (scanRows keyStartsWith db bucket pfx).Pairwise fun a b => a.key ≤ b.key :=
  pairwise_scanRows.imp fun hab => hab.elim le_of_lt fun h => h.1.le

theorem nodup_scanRows : (scanRows keyStartsWith db bucket pfx).Nodup := by
  refine pairwise_scanRows.imp fun {a b} hab heq => ?_
  subst heq
  rcases hab with hlt | ⟨-, hlt⟩
  · exact lt_irrefl _ hlt
  · exact lt_irrefl _ hlt

end Scan

end IpfS3.Store
