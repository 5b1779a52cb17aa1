import IpfS3.Listing.VersionPages

/-!
# Listing the versions of a bucket

A client reads all versions of a bucket by following the `next_cursor` of
`build_version_listing_page` (`listVersionPages`).  The main result is
`listObjectVersions_exact`: the pages end, and their concatenation is a function of the scanned rows
alone, so it does not depend on the page sizes or on the internal batch size.
-/

namespace IpfS3.Listing

open Store GroupedPages Fallible List Option

/-- Reading a bucket by following `next_cursor`, page number `i` with room for `maxKeys i`
outputs. -/
def listVersionPages (keyStartsWith : Text → Text → Bool) (classes : Text → StorageClass)
    (batchSize : ℕ) (db : VersionCatalog) (bucket pfx : Text) (delimiter : Option Text)
    (urlEncode : Bool) :
    ℕ → (ℕ → ℕ) → Option VersionCursor → Option (AppResult (List VersionListingPage))
  | 0, _, _ => none
  | fuel + 1, maxKeys, cursor =>
    match buildVersionListingPage keyStartsWith classes batchSize (fuel + 1) db bucket
        ⟨pfx, delimiter, maxKeys 0, urlEncode⟩ cursor with
    | none => none
    | some (.error e) => some (.error e)
    | some (.ok page) =>
      match page.nextCursor with
      | none => some (.ok [page])
      | some next =>
        (listVersionPages keyStartsWith classes batchSize db bucket pfx delimiter urlEncode fuel
          (fun i => maxKeys (i + 1)) (some next)).map fun result =>
            result.map fun pages => page :: pages

def VersionListingPage.outputs (page : VersionListingPage) : ℕ :=
  page.versions.length + page.deleteMarkers.length + page.commonPrefixes.length

/-- The versions a listing can show: those of a scan, none in an unversioned bucket. -/
def visibleVersions (keyStartsWith : Text → Text → Bool) (db : VersionCatalog)
    (bucket pfx : Text) : BucketVersioningState → List ResolvedVersion
  | .unversioned => []
  | _ => scanRows keyStartsWith db bucket pfx

section Counting

variable (classes : Text → StorageClass) (request : VersionListingRequest)

theorem length_shown (ls : List (Label ResolvedVersion)) :
    (ls.filterMap (shownVersion classes request)).length +
      (ls.filterMap (shownMarker request)).length +
      (ls.filterMap (shownPrefix request)).length = ls.length := by
  induction ls with
  | nil => rfl
  | cons l ls ih =>
    simp only [filterMap_cons, length_cons]
    cases l with
    | group cp =>
      simp only [shownVersion, shownMarker, shownPrefix, length_cons]
      omega
    | own version =>
      cases hkind : version.kind with
      | object =>
        obtain ⟨entry, hentry⟩ : ∃ entry, contentDto classes request.urlEncode version = .ok entry :=
          exists_contentDto hkind
        simp only [shownVersion, shownMarker, shownPrefix, hkind, hentry, Except.toOption,
          if_true, reduceCtorEq, if_false, length_cons]
        omega
      | deleteMarker =>
        simp only [shownVersion, shownMarker, shownPrefix, hkind, if_true, reduceCtorEq, if_false,
          length_cons]
        omega

variable {classes request}

theorem Shows.outputs_eq {st : PageState} {seen : List ResolvedVersion}
    (h : Shows classes request st.versions st.deleteMarkers st.commonPrefixes seen)
    (next : Option VersionCursor) :
    (st.page next).outputs = (labels (versionLabel request) seen).length := by
  rw [VersionListingPage.outputs, PageState.page, h.versions_eq, h.deleteMarkers_eq,
    h.commonPrefixes_eq, length_shown]

end Counting

/-- Each page holds at most its number of outputs, and exactly that many when a page follows. -/
def VersionPagesBounded (maxKeys : ℕ → ℕ) (pages : List VersionListingPage) : Prop :=
  ∀ i page, pages[i]? = some page →
    page.outputs ≤ maxKeys i ∧ (i + 1 < pages.length → page.outputs = maxKeys i)

variable {maxKeys : ℕ → ℕ} {pages : List VersionListingPage}

theorem VersionPagesBounded.cons {page : VersionListingPage} (hpage : page.outputs = maxKeys 0)
    (h : VersionPagesBounded (fun i => maxKeys (i + 1)) pages) :
    VersionPagesBounded maxKeys (page :: pages) := by
  intro i page' hi
  cases i with
  | zero =>
    obtain rfl : page = page' := by simpa using hi
    exact ⟨hpage.le, fun _ => hpage⟩
  | succ i =>
    rw [getElem?_cons_succ] at hi
    obtain ⟨hle, heq⟩ := h i page' hi
    refine ⟨hle, fun hlt => heq ?_⟩
    rw [length_cons] at hlt
    omega

section Follow

variable {keyStartsWith : Text → Text → Bool} {batchSize : ℕ} {db : VersionCatalog}
  {bucket pfx : Text} {state : BucketVersioningState}

theorem scans_visibleVersions (hstate : getVersioningState db.states bucket = .ok state)
    (hbatch : 2 ≤ batchSize) :
    Scans (fun cursor => scanVersions keyStartsWith db bucket pfx cursor batchSize) batchSize
      (visibleVersions keyStartsWith db bucket pfx state) := by
  have hzero : batchSize ≠ 0 := by omega
  have hscan (hversioned : state ≠ .unversioned) :
      Scans (fun cursor => scanVersions keyStartsWith db bucket pfx cursor batchSize) batchSize
        (scanRows keyStartsWith db bucket pfx) := by
    refine ⟨hbatch, scanVersions_none hstate hversioned hzero,
      fun A version B h => scanVersions_cursor hstate hversioned hzero h,
      ⟨pairwise_key_scanRows, nodup_scanRows⟩, pairwise_scanRows.imp fun {a b} hab heq => ?_⟩
    obtain ⟨hkey, hseq, -⟩ := VersionCursor.mk.inj heq
    rcases hab with hlt | ⟨-, hlt⟩
    · exact hlt.ne hkey
    · exact hlt.ne hseq.symm
  cases state with
  | unversioned =>
    refine ⟨hbatch, ?_, fun A version B h => absurd h (by simp [visibleVersions]),
      ⟨List.Pairwise.nil, nodup_nil⟩, List.Pairwise.nil⟩
    rw [visibleVersions, take_nil]
    exact scanVersions_unversioned hstate none
  | enabled => exact hscan (by decide)
  | suspended => exact hscan (by decide)

theorem length_visibleVersions_le :
    (visibleVersions keyStartsWith db bucket pfx state).length ≤ db.versions.length := by
  have hle : (scanRows keyStartsWith db bucket pfx).length ≤ db.versions.length := by
    rw [← forall₂_scanRows.length_eq, matchingVersions, (Keyset.sortBy_perm _ _).length_eq]
    exact length_filter_le _ _
  cases state with
  | unversioned => exact Nat.zero_le _
  | enabled => exact hle
  | suspended => exact hle

/-- **Following the cursor ends**, and its pages read the rows from the cursor on page by page. -/
theorem exists_listVersionPages (classes : Text → StorageClass) (delimiter : Option Text)
    (urlEncode : Bool) {M A L : List ResolvedVersion}
    (hM : Scans (fun cursor => scanVersions keyStartsWith db bucket pfx cursor batchSize)
      batchSize M) (hmax : ∀ i, 1 ≤ maxKeys i) {cursor : Option VersionCursor}
    (hsplit : M = A ++ L)
    (hcursor : scanVersions keyStartsWith db bucket pfx cursor batchSize = .ok (L.take batchSize))
    (hfirst : ∀ c, cursor = some c → ∃ s R, L = s :: R ∧ c = versionCursor s) :
    ∃ pages splits, (∀ fuel, L.length < fuel →
        listVersionPages keyStartsWith classes batchSize db bucket pfx delimiter urlEncode fuel
          maxKeys cursor = some (.ok pages)) ∧
      Paginates (label ResolvedVersion.key pfx delimiter) maxKeys L splits ∧
      List.Forall₂ (fun split (page : VersionListingPage) =>
        Shows classes ⟨pfx, delimiter, 0, urlEncode⟩ page.versions page.deleteMarkers
          page.commonPrefixes split) splits pages ∧
      VersionPagesBounded maxKeys pages := by
  induction hn : L.length using Nat.strongRecOn generalizing A L cursor maxKeys with
  | ind n ih =>
    obtain ⟨st, hloop, hst⟩ : ReadsPage classes ⟨pfx, delimiter, maxKeys 0, urlEncode⟩ _ batchSize
        cursor false PageState.empty [] L := readsPage_start hM hsplit hcursor hfirst
    have hshows : Shows classes ⟨pfx, delimiter, 0, urlEncode⟩ st.versions st.deleteMarkers
        st.commonPrefixes (pageSplit (label ResolvedVersion.key pfx delimiter) (maxKeys 0) [] L).1 :=
      ⟨hst.shows_seen.1, hst.shows_seen.2, hst.shows_seen.3⟩
    have hle : (labels (label ResolvedVersion.key pfx delimiter)
        (pageSplit (label ResolvedVersion.key pfx delimiter) (maxKeys 0) [] L).1).length ≤
          maxKeys 0 := length_labels_pageSplit_le _ _ (Nat.zero_le _)
    cases hrest : (pageSplit (label ResolvedVersion.key pfx delimiter) (maxKeys 0) [] L).2 with
    | nil =>
      refine ⟨[st.page none], _, fun fuel hfuel => ?_, Paginates.last hrest,
        List.Forall₂.cons hshows List.Forall₂.nil, fun i page hi => ?_⟩
      · obtain ⟨fuel, rfl⟩ := Nat.exists_eq_add_of_lt hfuel
        rw [listVersionPages, buildVersionListingPage, hloop _ (by omega)]
        simp only [hrest]
        rfl
      · obtain ⟨rfl, rfl⟩ : i = 0 ∧ st.page none = page := by
          cases i with
          | zero => simpa using hi
          | succ i => simp at hi
        exact ⟨(hshows.outputs_eq none).trans_le hle,
          fun hlt => absurd hlt (by simp)⟩
    | cons r R =>
      have happ := pageSplit_append (label ResolvedVersion.key pfx delimiter) (maxKeys 0) [] L
      rw [hrest, nil_append] at happ
      have hpos : 0 < (pageSplit (label ResolvedVersion.key pfx delimiter) (maxKeys 0) []
          L).1.length := by
        refine length_pos_of_ne_nil ?_
        cases L with
        | nil => exact absurd happ (by simp)
        | cons a L => exact pageSplit_ne_nil _ (hmax 0) a L
      have hlen := congrArg length happ
      rw [length_append] at hlen
      have hsplit' : M = (A ++ (pageSplit (label ResolvedVersion.key pfx delimiter) (maxKeys 0) []
          L).1) ++ r :: R := by
        rw [append_assoc, happ]
        exact hsplit
      obtain ⟨pages, splits, hpages, hsplits, hall, hbounded⟩ :=
        ih (r :: R).length (by omega) (fun i => hmax (i + 1)) hsplit'
          (hM.from_cursor _ r R hsplit')
          (fun c hc => ⟨r, R, rfl, (some.inj hc).symm⟩) rfl
      have hfull : (st.page (some (versionCursor r))).outputs = maxKeys 0 :=
        (hshows.outputs_eq (some (versionCursor r))).trans
          (le_antisymm hle (pageSplit_rest _ hrest).2)
      refine ⟨st.page (some (versionCursor r)) :: pages, _, fun fuel hfuel => ?_,
        Paginates.more hrest hsplits, List.Forall₂.cons hshows hall,
        VersionPagesBounded.cons hfull hbounded⟩
      obtain ⟨fuel, rfl⟩ := Nat.exists_eq_add_of_lt hfuel
      rw [listVersionPages, buildVersionListingPage, hloop _ (by omega)]
      simp only [hrest, head?_cons, map_some, PageState.page]
      rw [hpages (n + fuel) (by omega)]
      rfl

end Follow

/-! ## Exactness -/

/-- The concatenated pages show the rows exactly: the content versions and the delete markers whose
key has no delimiter after the prefix, and the common prefixes of the others, each once and in scan
order. -/
structure ExactVersionListing (classes : Text → StorageClass) (pfx : Text)
    (delimiter : Option Text) (urlEncode : Bool) (rows : List ResolvedVersion)
    (pages : List VersionListingPage) : Prop where
  versions_eq : (rows.filter fun version => version.kind = .object ∧
      commonPrefixForKey version.key pfx delimiter = none).mapM (contentDto classes urlEncode) =
    .ok (pages.flatMap VersionListingPage.versions)
  deleteMarkers_eq : pages.flatMap VersionListingPage.deleteMarkers =
    (rows.filter fun version => version.kind = .deleteMarker ∧
      commonPrefixForKey version.key pfx delimiter = none).map (deleteMarkerDto urlEncode)
  commonPrefixes_eq : pages.flatMap VersionListingPage.commonPrefixes =
    ((rows.filterMap fun version => commonPrefixForKey version.key pfx delimiter).eraseDups).map
      fun cp => projectListingField cp urlEncode

section Exact

variable {classes : Text → StorageClass} {pfx : Text} {delimiter : Option Text}
  {urlEncode : Bool} {rows : List ResolvedVersion}

def ownRow : Label ResolvedVersion → Option ResolvedVersion
  | .own version => some version
  | .group _ => none

/-- The common prefix a label stands for. -/
def groupPrefix : Label ResolvedVersion → Option Text
  | .own _ => none
  | .group cp => some cp

theorem labels_filterMap_ownRow (hnodup : rows.Nodup) :
    (labels (label ResolvedVersion.key pfx delimiter) rows).filterMap ownRow =
      rows.filter fun version => commonPrefixForKey version.key pfx delimiter = none := by
  have hinj : ∀ a b c, ownRow a = some c → ownRow b = some c → a = b := by
    rintro (a | a) (b | b) c ha hb <;> simp_all [ownRow]
  have hown (version : ResolvedVersion) :
      ownRow (label ResolvedVersion.key pfx delimiter version) =
        if commonPrefixForKey version.key pfx delimiter = none then some version else none := by
    rw [label]
    cases commonPrefixForKey version.key pfx delimiter <;> simp [ownRow]
  have hfilter : (rows.map (label ResolvedVersion.key pfx delimiter)).filterMap ownRow =
      rows.filter fun version => commonPrefixForKey version.key pfx delimiter = none := by
    rw [filterMap_map, ← filterMap_eq_filter]
    refine filterMap_congr fun version _ => ?_
    rw [Function.comp_apply, hown, guard_apply]
    simp
  rw [labels, filterMap_eraseDups hinj, hfilter]
  exact eraseDups_of_nodup (hnodup.filter _)

theorem labels_filterMap_groupPrefix :
    (labels (label ResolvedVersion.key pfx delimiter) rows).filterMap groupPrefix =
      (rows.filterMap fun version => commonPrefixForKey version.key pfx delimiter).eraseDups := by
  have hinj : ∀ a b c, groupPrefix a = some c → groupPrefix b = some c → a = b := by
    rintro (a | a) (b | b) c ha hb <;> simp_all [groupPrefix]
  rw [labels, filterMap_eraseDups hinj, filterMap_map]
  congr 1
  refine filterMap_congr fun version _ => ?_
  rw [Function.comp_apply, label]
  cases commonPrefixForKey version.key pfx delimiter <;> rfl

theorem mapM_contentDto {l : List ResolvedVersion} (h : ∀ version ∈ l, version.kind = .object) :
    l.mapM (contentDto classes urlEncode) =
      .ok (l.filterMap fun version => (contentDto classes urlEncode version).toOption) := by
  rw [mapM_eq_ok_iff]
  induction l with
  | nil => exact List.Forall₂.nil
  | cons version l ih =>
    obtain ⟨entry, hentry⟩ :
        ∃ entry, contentDto classes (VersionListingRequest.urlEncode ⟨[], none, 0, urlEncode⟩)
          version = .ok entry := exists_contentDto (h version mem_cons_self)
    rw [filterMap_cons_some (show _ = some entry by rw [hentry]; rfl)]
    exact List.Forall₂.cons hentry (ih fun v hv => h v (mem_cons_of_mem version hv))

/-- **Pages that show the labels of the rows list them exactly.** -/
theorem exactVersionListing_of_shows (hnodup : rows.Nodup)
    (h : Shows classes ⟨pfx, delimiter, 0, urlEncode⟩ (pages.flatMap VersionListingPage.versions)
      (pages.flatMap VersionListingPage.deleteMarkers)
      (pages.flatMap VersionListingPage.commonPrefixes) rows) :
    ExactVersionListing classes pfx delimiter urlEncode rows pages where
  versions_eq := by
    have hshown : shownVersion classes ⟨pfx, delimiter, 0, urlEncode⟩ = fun l =>
        (ownRow l).bind fun version => if version.kind = .object then
          (contentDto classes urlEncode version).toOption else none := by
      funext l
      cases l <;> rfl
    rw [mapM_contentDto, h.versions_eq, hshown, ← filterMap_filterMap,
      labels_filterMap_ownRow hnodup, filterMap_filter, filterMap_filter]
    · refine congrArg Except.ok (filterMap_congr fun version _ => ?_)
      by_cases hkind : version.kind = .object <;> simp [hkind]
    · intro version hversion
      simpa using And.left (of_decide_eq_true (mem_filter.mp hversion).2)
  deleteMarkers_eq := by
    have hshown : shownMarker ⟨pfx, delimiter, 0, urlEncode⟩ = fun l =>
        (ownRow l).bind fun version => if version.kind = .deleteMarker then
          some (deleteMarkerDto urlEncode version) else none := by
      funext l
      cases l <;> rfl
    rw [h.deleteMarkers_eq, hshown, ← filterMap_filterMap, labels_filterMap_ownRow hnodup,
      filterMap_filter, ← filterMap_eq_map', filterMap_filter]
    refine filterMap_congr fun version _ => ?_
    by_cases hkind : version.kind = .deleteMarker <;> simp [hkind]
  commonPrefixes_eq := by
    have hshown : shownPrefix ⟨pfx, delimiter, 0, urlEncode⟩ = fun l =>
        (groupPrefix l).bind fun cp => some (projectListingField cp urlEncode) := by
      funext l
      cases l <;> rfl
    rw [h.commonPrefixes_eq, hshown, ← filterMap_filterMap, labels_filterMap_groupPrefix,
      filterMap_eq_map']

theorem shows_flatMap {splits : List (List ResolvedVersion)}
    (hsplits : Paginates (label ResolvedVersion.key pfx delimiter) maxKeys rows splits)
    (hcontiguous : Contiguous (label ResolvedVersion.key pfx delimiter) rows)
    (hall : List.Forall₂ (fun split (page : VersionListingPage) =>
      Shows classes ⟨pfx, delimiter, 0, urlEncode⟩ page.versions page.deleteMarkers
        page.commonPrefixes split) splits pages) :
    Shows classes ⟨pfx, delimiter, 0, urlEncode⟩ (pages.flatMap VersionListingPage.versions)
      (pages.flatMap VersionListingPage.deleteMarkers)
      (pages.flatMap VersionListingPage.commonPrefixes) rows := by
  have hflat {γ : Type} (f : VersionListingPage → List γ) (g : Label ResolvedVersion → Option γ)
      (hfg : List.Forall₂ (fun split page =>
        f page = (labels (label ResolvedVersion.key pfx delimiter) split).filterMap g)
          splits pages) :
      pages.flatMap f =
        (labels (label ResolvedVersion.key pfx delimiter) rows).filterMap g := by
    rw [← hsplits.labels_flatten hcontiguous]
    clear hsplits hall
    induction hfg with
    | nil => rfl
    | cons hpage _ ih =>
      rw [flatMap_cons, map_cons, flatten_cons, filterMap_append, ih, hpage]
  exact ⟨hflat _ _ (hall.imp fun _ _ h => h.versions_eq),
    hflat _ _ (hall.imp fun _ _ h => h.deleteMarkers_eq),
    hflat _ _ (hall.imp fun _ _ h => h.commonPrefixes_eq)⟩

end Exact

/-- **Pagination of `ListObjectVersions` is exact.**  For every internal batch size of at least two
and all page sizes, following the cursor from the start returns pages without an error; their
concatenation is the visible versions, and every page but the last is full. -/
theorem listObjectVersions_exact (keyStartsWith : Text → Text → Bool)
    (classes : Text → StorageClass) (db : VersionCatalog) (bucket pfx : Text)
    (delimiter : Option Text) (urlEncode : Bool) {state : BucketVersioningState}
    (hstate : getVersioningState db.states bucket = .ok state) {batchSize : ℕ} (hbatch : 2 ≤ batchSize)
    {maxKeys : ℕ → ℕ} (hmax : ∀ i, 1 ≤ maxKeys i) :
    ∃ pages, (∀ fuel, db.versions.length < fuel →
        listVersionPages keyStartsWith classes batchSize db bucket pfx delimiter urlEncode fuel
          maxKeys none = some (.ok pages)) ∧
      ExactVersionListing classes pfx delimiter urlEncode
        (visibleVersions keyStartsWith db bucket pfx state) pages ∧
      VersionPagesBounded maxKeys pages := by
  have hM : Scans (fun cursor => scanVersions keyStartsWith db bucket pfx cursor batchSize)
      batchSize (visibleVersions keyStartsWith db bucket pfx state) :=
    scans_visibleVersions hstate hbatch
  obtain ⟨pages, splits, hpages, hsplits, hall, hbounded⟩ :=
    exists_listVersionPages classes delimiter urlEncode hM hmax (nil_append _).symm hM.start
      (fun c hc => absurd hc.symm (some_ne_none c))
  have hcontiguous : Contiguous (label ResolvedVersion.key pfx delimiter)
      (visibleVersions keyStartsWith db bucket pfx state) :=
    contiguous_label hM.order.sorted hM.order.nodup
  refine ⟨pages, fun fuel hfuel => hpages fuel ?_,
    exactVersionListing_of_shows hM.order.nodup (shows_flatMap hsplits hcontiguous hall), hbounded⟩
  exact length_visibleVersions_le.trans_lt hfuel

/-- A versioned bucket with a content version in a folder and a delete marker next to it. -/
def markerCatalog : VersionCatalog where
  states := [([98], .enabled)]
  objects := [⟨[1], [98], [97, 47, 49], [], 0, [], 0, true⟩]
  versions := [⟨[1], [98], [97, 47, 49], none, some .object, some [1], 1, true, 0, none, 0⟩,
    ⟨[2], [98], [99], none, some .deleteMarker, none, 1, true, 0, none, 0⟩]
  sequence_unique := by decide
  versionId_canonical := by
    intro row hrow value hvalue
    simp only [mem_cons, not_mem_nil, or_false] at hrow
    rcases hrow with rfl | rfl <;> cases hvalue
  resolvable := by
    intro row hrow
    simp only [mem_cons, not_mem_nil, or_false] at hrow
    rcases hrow with rfl | rfl <;> exact ⟨_, rfl⟩

/-- The versions are listed one output a page, in batches of two rows. -/
theorem listObjectVersions_exact_marker :
    ∃ pages, (∀ fuel, markerCatalog.versions.length < fuel →
        listVersionPages Text.startsWith (fun _ => .standard) 2 markerCatalog [98] [] (some [47])
          true fuel (fun _ => 1) none = some (.ok pages)) ∧
      ExactVersionListing (fun _ => .standard) [] (some [47]) true
        (visibleVersions Text.startsWith markerCatalog [98] [] .enabled) pages ∧
      VersionPagesBounded (fun _ => 1) pages :=
  listObjectVersions_exact Text.startsWith (fun _ => .standard) markerCatalog [98] [] (some [47])
    true rfl (le_refl 2) fun _ => le_refl 1

end IpfS3.Listing
