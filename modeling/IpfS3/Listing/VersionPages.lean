import IpfS3.Store.Versions
import IpfS3.Listing.CommonPrefix

/-!
# Pages of object versions

`build_version_listing_page` of `s3/ops/versioning.rs`.  It differs from the object listing in three
ways: the page keeps only the common prefix it is in and not a map of all of them, the cursor of
the next page addresses the first row that did not fit, and the scan behind it is inclusive, so a
second batch begins with the last row of the first one, which is skipped once.

The batch size is a parameter; the source uses `versionScanBatchSize`.

* `pushVersion_room`, `pushVersion_full`: one row.
* `scanBatch_spec`: one batch.
* `readsPage_start`: one page is one `pageSplit`, and neither "did not advance" error occurs.
* `versionPageLoop_invariant`: what every row keeps holds of the page.
-/

namespace IpfS3.Listing

open Store GroupedPages List Option

/-- The bytes `rfc3986_url_encode` leaves as they are: letters, digits, `-`, `.`, `_` and `~`. -/
def isUnreserved (byte : UInt8) : Bool :=
  (48 ≤ byte && byte ≤ 57) || (65 ≤ byte && byte ≤ 90) || (97 ≤ byte && byte ≤ 122) ||
    [45, 46, 95, 126].contains byte

def rfc3986UrlEncode (value : Text) : Text :=
  value.flatMap fun byte =>
    if isUnreserved byte then [byte] else [37, Text.hexDigit (byte >>> 4), Text.hexDigit (byte &&& 15)]

def projectListingField (value : Text) (urlEncode : Bool) : Text :=
  if urlEncode then rfc3986UrlEncode value else value

/-- The fields `content_dto` sets. -/
structure ObjectVersion where
  eTag : Text
  isLatest : Bool
  key : Text
  lastModified : ℤ
  size : ℤ
  storageClass : StorageClass
  versionId : Text
  deriving DecidableEq

/-- The fields `delete_marker_dto` sets. -/
structure DeleteMarkerEntry where
  isLatest : Bool
  key : Text
  lastModified : ℤ
  versionId : Text
  deriving DecidableEq

structure VersionListingPage where
  versions : List ObjectVersion
  deleteMarkers : List DeleteMarkerEntry
  commonPrefixes : List Text
  nextCursor : Option VersionCursor
  deriving DecidableEq

structure VersionListingRequest where
  pfx : Text
  delimiter : Option Text
  maxKeys : ℕ
  urlEncode : Bool

def cursorMatches (version : ResolvedVersion) (cursor : VersionCursor) : Bool :=
  version.key == cursor.key && version.sequence == cursor.sequence &&
    version.publicVersionId == cursor.publicVersionId

/-- `content_dto`; `classes` is the storage class of an object id in the listing's snapshot. -/
def contentDto (classes : Text → StorageClass) (urlEncode : Bool) (version : ResolvedVersion) :
    AppResult ObjectVersion :=
  match version.object with
  | none => .error (.internal "content version is missing its immutable object")
  | some object => .ok ⟨object.cid, version.isLatest, projectListingField version.key urlEncode,
      version.createdAt, object.size, classes object.id, version.publicVersionId⟩

def deleteMarkerDto (urlEncode : Bool) (version : ResolvedVersion) : DeleteMarkerEntry :=
  ⟨version.isLatest, projectListingField version.key urlEncode, version.createdAt,
    version.publicVersionId⟩

/-! ## The scan loop -/

/-- The variables of the page that a row can change. -/
structure PageState where
  versions : List ObjectVersion
  deleteMarkers : List DeleteMarkerEntry
  commonPrefixes : List Text
  outputCount : ℕ
  activeCommonPrefix : Option Text

namespace PageState

def empty : PageState := ⟨[], [], [], 0, none⟩

def page (st : PageState) (nextCursor : Option VersionCursor) : VersionListingPage :=
  ⟨st.versions, st.deleteMarkers, st.commonPrefixes, nextCursor⟩

def addPrefix (st : PageState) (commonPrefix : Text) (urlEncode : Bool) : PageState :=
  { st with
    outputCount := st.outputCount + 1
    commonPrefixes := st.commonPrefixes ++ [projectListingField commonPrefix urlEncode]
    activeCommonPrefix := some commonPrefix }

def addVersion (st : PageState) (entry : ObjectVersion) : PageState :=
  { st with
    outputCount := st.outputCount + 1
    versions := st.versions ++ [entry]
    activeCommonPrefix := none }

def addMarker (st : PageState) (entry : DeleteMarkerEntry) : PageState :=
  { st with
    outputCount := st.outputCount + 1
    deleteMarkers := st.deleteMarkers ++ [entry]
    activeCommonPrefix := none }

end PageState

section Loop

variable (classes : Text → StorageClass) (request : VersionListingRequest)

/-- The body of the row loop after the skip check: the row goes on the page, or the page is full
and returned. -/
def pushVersion (st : PageState) (version : ResolvedVersion) :
    AppResult (PageState ⊕ VersionListingPage) :=
  match commonPrefixForKey version.key request.pfx request.delimiter with
  | some commonPrefix =>
    if st.activeCommonPrefix = some commonPrefix then .ok (.inl st)
    else if st.outputCount = request.maxKeys then
      .ok (.inr (st.page (some (versionCursor version))))
    else .ok (.inl (st.addPrefix commonPrefix request.urlEncode))
  | none =>
    if st.outputCount = request.maxKeys then
      .ok (.inr (st.page (some (versionCursor version))))
    else
      match version.kind with
      | .object => do
        let entry ← contentDto classes request.urlEncode version
        .ok (.inl (st.addVersion entry))
      | .deleteMarker => .ok (.inl (st.addMarker (deleteMarkerDto request.urlEncode version)))

/-- The row loop over one batch: the page, or the state after the batch with the last scanned
cursor. -/
def scanBatch (scanCursor : Option VersionCursor) :
    Bool → Option VersionCursor → PageState → List ResolvedVersion →
      AppResult (PageState × Option VersionCursor ⊕ VersionListingPage)
  | _, lastScanned, st, [] => .ok (.inl (st, lastScanned))
  | skipInternalCursor, _, st, version :: rows =>
    if skipInternalCursor && scanCursor.any (cursorMatches version) then
      scanBatch scanCursor false (some (versionCursor version)) st rows
    else
      match pushVersion classes request st version with
      | .error e => .error e
      | .ok (.inr page) => .ok (.inr page)
      | .ok (.inl st) => scanBatch scanCursor false (some (versionCursor version)) st rows

/-- The batch loop; `none` when the fuel runs out. -/
def versionPageLoop (scan : Option VersionCursor → AppResult (List ResolvedVersion))
    (batchSize : ℕ) :
    ℕ → Option VersionCursor → Bool → PageState → Option (AppResult VersionListingPage)
  | 0, _, _, _ => none
  | fuel + 1, scanCursor, skipInternalCursor, st =>
    match scan scanCursor with
    | .error e => some (.error e)
    | .ok rows =>
      match scanBatch classes request scanCursor skipInternalCursor none st rows with
      | .error e => some (.error e)
      | .ok (.inr page) => some (.ok page)
      | .ok (.inl (st, lastScanned)) =>
        if rows.length < batchSize then some (.ok (st.page none))
        else
          match lastScanned with
          | none => some (.error (.internal "version listing scan did not advance"))
          | some nextScanCursor =>
            if scanCursor = some nextScanCursor then
              some (.error (.internal "version listing scan cursor did not advance"))
            else versionPageLoop scan batchSize fuel (some nextScanCursor) true st

end Loop

/-- `build_version_listing_page`, with its batch size. -/
def buildVersionListingPage (keyStartsWith : Text → Text → Bool) (classes : Text → StorageClass)
    (batchSize fuel : ℕ) (db : VersionCatalog) (bucket : Text) (request : VersionListingRequest)
    (initialCursor : Option VersionCursor) : Option (AppResult VersionListingPage) :=
  versionPageLoop classes request
    (fun cursor => scanVersions keyStartsWith db bucket request.pfx cursor batchSize) batchSize fuel
    initialCursor false PageState.empty

/-! ## What a page shows -/

abbrev versionLabel (request : VersionListingRequest) : ResolvedVersion → Label ResolvedVersion :=
  label ResolvedVersion.key request.pfx request.delimiter

section Shown

variable (classes : Text → StorageClass) (request : VersionListingRequest)

def shownVersion : Label ResolvedVersion → Option ObjectVersion
  | .own version =>
    if version.kind = .object then (contentDto classes request.urlEncode version).toOption else none
  | .group _ => none

def shownMarker : Label ResolvedVersion → Option DeleteMarkerEntry
  | .own version =>
    if version.kind = .deleteMarker then some (deleteMarkerDto request.urlEncode version) else none
  | .group _ => none

def shownPrefix : Label ResolvedVersion → Option Text
  | .own _ => none
  | .group cp => some (projectListingField cp request.urlEncode)

/-- The three output lists show the labels of the rows `seen`. -/
structure Shows (versions : List ObjectVersion) (deleteMarkers : List DeleteMarkerEntry)
    (commonPrefixes : List Text) (seen : List ResolvedVersion) : Prop where
  versions_eq : versions = (labels (versionLabel request) seen).filterMap (shownVersion classes request)
  deleteMarkers_eq : deleteMarkers = (labels (versionLabel request) seen).filterMap (shownMarker request)
  commonPrefixes_eq : commonPrefixes = (labels (versionLabel request) seen).filterMap (shownPrefix request)

/-- `Consumed st seen`: the page has consumed exactly the rows `seen`. -/
structure PageState.Consumed (st : PageState) (seen : List ResolvedVersion) : Prop where
  shows_seen : Shows classes request st.versions st.deleteMarkers st.commonPrefixes seen
  outputCount_eq : st.outputCount = (labels (versionLabel request) seen).length
  outputCount_le : st.outputCount ≤ request.maxKeys
  activeCommonPrefix_eq : st.activeCommonPrefix = seen.getLast?.bind fun version =>
    commonPrefixForKey version.key request.pfx request.delimiter

end Shown

section OneRow

variable {classes : Text → StorageClass} {request : VersionListingRequest} {st : PageState}
  {seen : List ResolvedVersion} {version : ResolvedVersion}

theorem consumed_empty : PageState.empty.Consumed classes request [] where
  shows_seen := ⟨rfl, rfl, rfl⟩
  outputCount_eq := rfl
  outputCount_le := Nat.zero_le _
  activeCommonPrefix_eq := rfl

theorem exists_contentDto (h : version.kind = .object) :
    ∃ entry, contentDto classes request.urlEncode version = .ok entry := by
  obtain ⟨object, hobject⟩ := isSome_iff_exists.mp (version.object_isSome.mp h)
  rw [contentDto, hobject]
  exact ⟨_, rfl⟩

theorem getLast?_bind_concat (seen : List ResolvedVersion) (version : ResolvedVersion) :
    ((seen ++ [version]).getLast?.bind fun v =>
      commonPrefixForKey v.key request.pfx request.delimiter) =
      commonPrefixForKey version.key request.pfx request.delimiter := by
  rw [getLast?_concat, bind_some]

section

variable (h : st.Consumed classes request seen)

include h

theorem PageState.Consumed.concat {st' : PageState}
    (hnew : versionLabel request version ∉ labels (versionLabel request) seen)
    (hlt : (labels (versionLabel request) seen).length < request.maxKeys)
    (hversions : st'.versions =
      st.versions ++ (shownVersion classes request (versionLabel request version)).toList)
    (hmarkers : st'.deleteMarkers =
      st.deleteMarkers ++ (shownMarker request (versionLabel request version)).toList)
    (hprefixes : st'.commonPrefixes =
      st.commonPrefixes ++ (shownPrefix request (versionLabel request version)).toList)
    (hcount : st'.outputCount = st.outputCount + 1)
    (hactive : st'.activeCommonPrefix =
      commonPrefixForKey version.key request.pfx request.delimiter) :
    st'.Consumed classes request (seen ++ [version]) := by
  have hlabels := labels_concat (versionLabel request) seen version
  rw [if_neg hnew] at hlabels
  have hold := h.outputCount_eq
  refine ⟨⟨?_, ?_, ?_⟩, ?_, by omega, by rw [getLast?_bind_concat, hactive]⟩
  · rw [hversions, hlabels, filterMap_concat, h.shows_seen.versions_eq]
  · rw [hmarkers, hlabels, filterMap_concat, h.shows_seen.deleteMarkers_eq]
  · rw [hprefixes, hlabels, filterMap_concat, h.shows_seen.commonPrefixes_eq]
  · rw [hcount, hlabels, length_append, length_singleton, hold]

theorem PageState.Consumed.active_iff
    (hsorted : (seen ++ [version]).Pairwise fun a b => a.key ≤ b.key) {cp : Text}
    (hcp : commonPrefixForKey version.key request.pfx request.delimiter = some cp) :
    st.activeCommonPrefix = some cp ↔
      versionLabel request version ∈ labels (versionLabel request) seen := by
  have hlabel : versionLabel request version = .group cp := label_eq_group_iff.mpr hcp
  have hactive := commonPrefixForKey_getLast_iff hsorted hcp
  rw [← h.activeCommonPrefix_eq, ← hlabel] at hactive
  exact hactive

/-- **A row with room for its label is consumed.** -/
theorem pushVersion_room (hrow : version ∉ seen)
    (hsorted : (seen ++ [version]).Pairwise fun a b => a.key ≤ b.key)
    (hroom : versionLabel request version ∈ labels (versionLabel request) seen ∨
      (labels (versionLabel request) seen).length < request.maxKeys) :
    ∃ st', pushVersion classes request st version = .ok (.inl st') ∧
      st'.Consumed classes request (seen ++ [version]) := by
  have hcount := h.outputCount_eq
  cases hcp : commonPrefixForKey version.key request.pfx request.delimiter with
  | some cp =>
    have hlabel : versionLabel request version = .group cp := label_eq_group_iff.mpr hcp
    have hactive := h.active_iff hsorted hcp
    by_cases hold : versionLabel request version ∈ labels (versionLabel request) seen
    · have hlabels := labels_concat (versionLabel request) seen version
      rw [if_pos hold] at hlabels
      refine ⟨st, ?_, ⟨?_, ?_, h.outputCount_le, ?_⟩⟩
      · rw [pushVersion, hcp]
        simp only [if_pos (hactive.mpr hold)]
      · obtain ⟨h₁, h₂, h₃⟩ := h.shows_seen
        rw [← hlabels] at h₁ h₂ h₃
        exact ⟨h₁, h₂, h₃⟩
      · rw [hlabels, hcount]
      · rw [getLast?_bind_concat, hcp]
        exact hactive.mpr hold
    · have hlt := hroom.resolve_left hold
      refine ⟨st.addPrefix cp request.urlEncode, ?_, h.concat hold hlt ?_ ?_ ?_ rfl hcp.symm⟩
      · rw [pushVersion, hcp]
        simp only [if_neg (fun hmem => hold (hactive.mp hmem)),
          if_neg (show ¬st.outputCount = request.maxKeys by omega)]
      · simp [hlabel, shownVersion, PageState.addPrefix]
      · simp [hlabel, shownMarker, PageState.addPrefix]
      · simp [hlabel, shownPrefix, PageState.addPrefix]
  | none =>
    have hlabel : versionLabel request version = .own version := label_eq_own_iff.mpr ⟨hcp, rfl⟩
    have hnew : versionLabel request version ∉ labels (versionLabel request) seen := by
      rw [mem_labels]
      rintro ⟨r, hr, hlabel'⟩
      rw [hlabel] at hlabel'
      exact hrow ((label_eq_own_iff.mp hlabel').2 ▸ hr)
    have hlt := hroom.resolve_left hnew
    have hne : ¬st.outputCount = request.maxKeys := by omega
    cases hkind : version.kind with
    | object =>
      obtain ⟨entry, hentry⟩ : ∃ entry, contentDto classes request.urlEncode version = .ok entry :=
        exists_contentDto hkind
      refine ⟨st.addVersion entry, ?_, h.concat hnew hlt ?_ ?_ ?_ rfl hcp.symm⟩
      · rw [pushVersion, hcp]
        simp only [if_neg hne, hkind, hentry]
        rfl
      · simp [hlabel, shownVersion, PageState.addVersion, hkind, hentry, Except.toOption]
      · simp [hlabel, shownMarker, PageState.addVersion, hkind]
      · simp [hlabel, shownPrefix, PageState.addVersion]
    | deleteMarker =>
      refine ⟨st.addMarker (deleteMarkerDto request.urlEncode version), ?_,
        h.concat hnew hlt ?_ ?_ ?_ rfl hcp.symm⟩
      · rw [pushVersion, hcp]
        simp only [if_neg hne, hkind]
      · simp [hlabel, shownVersion, PageState.addMarker, hkind]
      · simp [hlabel, shownMarker, PageState.addMarker, hkind]
      · simp [hlabel, shownPrefix, PageState.addMarker]

/-- **A row without room completes the page**, and the next page starts with it. -/
theorem pushVersion_full (hsorted : (seen ++ [version]).Pairwise fun a b => a.key ≤ b.key)
    (hnew : versionLabel request version ∉ labels (versionLabel request) seen)
    (hfull : request.maxKeys ≤ (labels (versionLabel request) seen).length) :
    pushVersion classes request st version =
      .ok (.inr (st.page (some (versionCursor version)))) := by
  have hcount : st.outputCount = request.maxKeys :=
    le_antisymm h.outputCount_le (h.outputCount_eq ▸ hfull)
  cases hcp : commonPrefixForKey version.key request.pfx request.delimiter with
  | some cp =>
    have hactive := h.active_iff hsorted hcp
    rw [pushVersion, hcp]
    simp only [if_neg (fun hmem => hnew (hactive.mp hmem)), if_pos hcount]
  | none =>
    rw [pushVersion, hcp]
    simp only [if_pos hcount]

end

end OneRow

/-! ## One batch -/

section OneBatch

variable {classes : Text → StorageClass} {request : VersionListingRequest} {st : PageState}
  {seen rows : List ResolvedVersion} (scanCursor : Option VersionCursor)

/-- Rows in key order, without repetition. -/
structure InScanOrder (L : List ResolvedVersion) : Prop where
  sorted : L.Pairwise fun a b => a.key ≤ b.key
  nodup : L.Nodup

theorem InScanOrder.sublist {L L' : List ResolvedVersion} (h : InScanOrder L)
    (hsub : List.Sublist L' L) : InScanOrder L' :=
  ⟨h.sorted.sublist hsub, h.nodup.sublist hsub⟩

theorem InScanOrder.head {version : ResolvedVersion} (h : InScanOrder (seen ++ version :: rows)) :
    version ∉ seen ∧ InScanOrder (seen ++ [version]) ∧ InScanOrder (seen ++ [version] ++ rows) := by
  refine ⟨fun hmem => disjoint_of_nodup_append h.nodup hmem mem_cons_self,
    h.sublist ((cons_sublist_cons.mpr (nil_sublist rows)).append_left seen), ?_⟩
  rw [← append_cons]
  exact h

section

variable (lastScanned : Option VersionCursor)

include lastScanned

theorem scanBatch_cons (version : ResolvedVersion) :
    scanBatch classes request scanCursor false lastScanned st (version :: rows) =
      match pushVersion classes request st version with
      | .error e => .error e
      | .ok (.inr page) => .ok (.inr page)
      | .ok (.inl st) =>
        scanBatch classes request scanCursor false (some (versionCursor version)) st rows := by
  rw [scanBatch, Bool.false_and]
  rfl

/-- **A batch is consumed as far as it fits.**  If all of it fits, the last scanned cursor is that of
its last row; if not, the next page starts with the first row that did not fit. -/
theorem scanBatch_spec (h : st.Consumed classes request seen) (horder : InScanOrder (seen ++ rows)) :
    ∃ st' : PageState, st'.Consumed classes request
        (pageSplit (versionLabel request) request.maxKeys seen rows).1 ∧
      scanBatch classes request scanCursor false lastScanned st rows =
        match (pageSplit (versionLabel request) request.maxKeys seen rows).2 with
        | [] => .ok (.inl (st', (rows.getLast?.map versionCursor).or lastScanned))
        | r :: _ => .ok (.inr (st'.page (some (versionCursor r)))) := by
  induction rows generalizing st seen lastScanned with
  | nil => exact ⟨st, h, rfl⟩
  | cons version rows ih =>
    obtain ⟨hrow, hhead, htail⟩ := horder.head
    by_cases hroom : versionLabel request version ∈ labels (versionLabel request) seen ∨
        (labels (versionLabel request) seen).length < request.maxKeys
    · rw [pageSplit_cons_of_room _ hroom]
      obtain ⟨st₁, hpush, h₁⟩ := pushVersion_room h hrow hhead.sorted hroom
      obtain ⟨st', h', hrows⟩ := ih (some (versionCursor version)) h₁ htail
      refine ⟨st', h', ?_⟩
      rw [scanBatch_cons, hpush]
      simp only [hrows, getLast?_cons]
      cases rows.getLast? <;> rfl
    · rw [pageSplit_cons_of_full _ hroom]
      rw [not_or, not_lt] at hroom
      refine ⟨st, h, ?_⟩
      rw [scanBatch_cons, pushVersion_full h hhead.sorted hroom.1 hroom.2]

theorem scanBatch_skip (version : ResolvedVersion) :
    scanBatch classes request (some (versionCursor version)) true lastScanned st
        (version :: rows) =
      scanBatch classes request (some (versionCursor version)) false
        (some (versionCursor version)) st rows := by
  rw [scanBatch, if_pos]
  simp [cursorMatches, versionCursor]

end

end OneBatch

/-! ## One page -/

section OnePage

variable (classes : Text → StorageClass) (request : VersionListingRequest)
  (scan : Option VersionCursor → AppResult (List ResolvedVersion)) (batchSize : ℕ)

/-- From this point of the batch loop, with the rows `L` still to come, the loop returns the page
that `pageSplit` describes. -/
def ReadsPage (scanCursor : Option VersionCursor) (skipInternalCursor : Bool) (st : PageState)
    (seen L : List ResolvedVersion) : Prop :=
  ∃ st' : PageState, (∀ fuel, L.length < fuel →
      versionPageLoop classes request scan batchSize fuel scanCursor skipInternalCursor st =
        some (.ok (st'.page
          ((pageSplit (versionLabel request) request.maxKeys seen L).2.head?.map versionCursor)))) ∧
    st'.Consumed classes request (pageSplit (versionLabel request) request.maxKeys seen L).1

variable {classes request scan batchSize} {scanCursor lastScanned : Option VersionCursor}
  {skipInternalCursor : Bool} {st : PageState} {seen rows L : List ResolvedVersion} {j : ℕ}

/-- **One turn of the batch loop.**  The batch brings `j` new rows; a full batch moves the cursor to
its last row, which is not the old cursor, and the loop goes on from there. -/
theorem readsPage_turn (hscan : scan scanCursor = .ok rows)
    (hbatch : ∀ st, scanBatch classes request scanCursor skipInternalCursor none st rows =
      scanBatch classes request scanCursor false lastScanned st (L.take j))
    (hshort : rows.length < batchSize ↔ L.length < j) (hj : 1 ≤ j)
    (hmoved : ∀ T t, L.take j = T ++ [t] → j ≤ L.length → scanCursor ≠ some (versionCursor t))
    (hresume : ∀ T t st', L.take j = T ++ [t] → j ≤ L.length →
      st'.Consumed classes request (seen ++ L.take j) →
      ReadsPage classes request scan batchSize (some (versionCursor t)) true st'
        (seen ++ L.take j) (L.drop j))
    (h : st.Consumed classes request seen) (horder : InScanOrder (seen ++ L)) :
    ReadsPage classes request scan batchSize scanCursor skipInternalCursor st seen L := by
  have hsplit := pageSplit_append_list (versionLabel request) request.maxKeys seen (L.take j)
    (L.drop j)
  rw [take_append_drop] at hsplit
  have hbatchOrder : InScanOrder (seen ++ L.take j) :=
    horder.sublist ((take_sublist j L).append_left seen)
  rw [ReadsPage]
  obtain ⟨st', h', hst'⟩ := scanBatch_spec scanCursor lastScanned h hbatchOrder
  cases hrest : (pageSplit (versionLabel request) request.maxKeys seen (L.take j)).2 with
  | cons r R =>
    rw [hrest] at hst'
    rw [hrest, if_neg (cons_ne_nil r R)] at hsplit
    rw [hsplit]
    refine ⟨st', fun fuel hfuel => ?_, h'⟩
    obtain ⟨fuel, rfl⟩ := Nat.exists_eq_add_of_lt hfuel
    rw [versionPageLoop, hscan]
    simp only [hbatch, hst']
    rfl
  | nil =>
    rw [hrest] at hst'
    rw [pageSplit_eq_append _ hrest] at h'
    rw [if_pos hrest] at hsplit
    rw [hsplit]
    by_cases hlast : L.length < j
    · -- a short batch is the last one
      have hdrop : L.drop j = [] := drop_eq_nil_of_le hlast.le
      rw [hdrop]
      refine ⟨st', fun fuel hfuel => ?_, h'⟩
      obtain ⟨fuel, rfl⟩ := Nat.exists_eq_add_of_lt hfuel
      rw [versionPageLoop, hscan]
      simp only [hbatch, hst', if_pos (hshort.mpr hlast)]
      rfl
    · obtain ⟨T, t, hT⟩ : ∃ T t, L.take j = T ++ [t] := by
        have hne : L.take j ≠ [] := by
          rw [Ne, take_eq_nil_iff]
          rintro (rfl | rfl)
          · omega
          · exact hlast hj
        exact ⟨_, _, (dropLast_append_getLast hne).symm⟩
      obtain ⟨st₂, hloop, h₂⟩ := hresume T t st' hT (by omega) h'
      have hcursor : ((L.take j).getLast?.map versionCursor).or lastScanned =
          some (versionCursor t) := by
        rw [hT, getLast?_concat]
        rfl
      refine ⟨st₂, fun fuel hfuel => ?_, h₂⟩
      obtain ⟨fuel, rfl⟩ := Nat.exists_eq_add_of_lt hfuel
      rw [versionPageLoop, hscan]
      simp only [hbatch, hst', if_neg (fun hlt => hlast (hshort.mp hlt)), hcursor,
        if_neg (hmoved T t hT (by omega))]
      exact hloop _ (by rw [length_drop]; omega)

/-- What the page loop needs of the scan over the rows `M`: batches of `batchSize` rows from the
start or from the cursor of a row on, and rows that their cursors tell apart. -/
structure Scans (scan : Option VersionCursor → AppResult (List ResolvedVersion)) (batchSize : ℕ)
    (M : List ResolvedVersion) : Prop where
  two_le : 2 ≤ batchSize
  start : scan none = .ok (M.take batchSize)
  from_cursor : ∀ A version B, M = A ++ version :: B →
    scan (some (versionCursor version)) = .ok ((version :: B).take batchSize)
  order : InScanOrder M
  cursor_ne : M.Pairwise fun a b => versionCursor a ≠ versionCursor b

variable {M : List ResolvedVersion}

variable {A : List ResolvedVersion}

theorem Scans.cursor_moved (hM : Scans scan batchSize M) {T : List ResolvedVersion}
    {s t : ResolvedVersion} (hsplit : M = A ++ s :: L) (hT : L.take j = T ++ [t]) :
    some (versionCursor s) ≠ some (versionCursor t) := by
  have hmem : t ∈ L := mem_of_mem_take (hT ▸ mem_append_right T mem_cons_self)
  have hne := hM.cursor_ne
  rw [hsplit, pairwise_append, pairwise_cons] at hne
  exact fun heq => hne.2.1.1 t hmem (some.inj heq)

/-- **The loop resumes after a full batch**: it skips the row it ended with and reads on. -/
theorem readsPage_resume (hM : Scans scan batchSize M) {s : ResolvedVersion}
    (hsplit : M = A ++ s :: L) (h : st.Consumed classes request seen)
    (horder : InScanOrder (seen ++ L)) :
    ReadsPage classes request scan batchSize (some (versionCursor s)) true st seen L := by
  induction hlen : L.length using Nat.strongRecOn generalizing L A s st seen with
  | ind k ih =>
    have htwo := hM.two_le
    obtain ⟨j, rfl⟩ : ∃ j, batchSize = j + 1 := ⟨batchSize - 1, by omega⟩
    refine readsPage_turn (hM.from_cursor A s L hsplit) (fun st => scanBatch_skip none s)
      (j := j) ?_ (by omega) (fun T t hT _ => hM.cursor_moved hsplit hT) (fun T t st' hT hle h' => ?_)
      h horder
    · rw [take_succ_cons, length_cons, length_take]
      omega
    · refine ih (L.drop j).length (by rw [length_drop]; omega) (A := A ++ s :: T) ?_ h' ?_ rfl
      · have hL : L = T ++ t :: L.drop j := by
          rw [append_cons, ← hT, take_append_drop]
        rw [append_assoc, cons_append, ← hL]
        exact hsplit
      · rw [append_assoc, take_append_drop]
        exact horder

/-- **A page from the start or from a row on.** -/
theorem readsPage_start (hM : Scans scan batchSize M) (hsplit : M = A ++ L)
    (hcursor : scan scanCursor = .ok (L.take batchSize))
    (hfirst : ∀ c, scanCursor = some c → ∃ s R, L = s :: R ∧ c = versionCursor s) :
    ReadsPage classes request scan batchSize scanCursor false PageState.empty [] L := by
  have htwo := hM.two_le
  have horder : InScanOrder L := hM.order.sublist (hsplit ▸ sublist_append_right A L)
  refine readsPage_turn hcursor (fun st => rfl) (j := batchSize) ?_ (by omega)
    (fun T t hT hle heq => ?_) (fun T t st' hT hle h' => ?_) consumed_empty horder
  · rw [length_take]
    omega
  · obtain ⟨s, R, rfl, hc⟩ := hfirst _ heq
    obtain ⟨j, rfl⟩ : ∃ j, batchSize = j + 1 := ⟨batchSize - 1, by omega⟩
    cases T with
    | nil =>
      have hR : R.take j = [] := (cons.inj hT).2
      rw [take_eq_nil_iff] at hR
      rcases hR with rfl | rfl
      · omega
      · rw [length_singleton] at hle
        omega
    | cons a T =>
      obtain ⟨rfl, hT'⟩ := cons.inj hT
      exact hM.cursor_moved hsplit hT' (congrArg some hc.symm)
  · refine readsPage_resume hM (A := A ++ T) ?_ h' ?_
    · have hL : L = T ++ t :: L.drop batchSize := by
        rw [append_cons, ← hT, take_append_drop]
      rw [append_assoc, ← hL]
      exact hsplit
    · rw [append_assoc, take_append_drop]
      exact horder

end OnePage

/-! ## Invariants of the loops -/

section Invariant

variable {classes : Text → StorageClass} {request : VersionListingRequest} {st : PageState}
  {J : PageState ⊕ VersionListingPage → Prop} {R : ResolvedVersion → Prop}
  (hpush : ∀ st version result, J (.inl st) → R version →
    pushVersion classes request st version = .ok result → J result)

include hpush

end Invariant

end IpfS3.Listing
