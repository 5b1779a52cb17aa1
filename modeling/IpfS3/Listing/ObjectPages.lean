import IpfS3.Listing.PageBuilder

/-!
# Listing the objects of a bucket

`build_listing_page` of `s3/ops/object.rs`: batches of the store query are pushed into a page
builder until the page is full or a batch comes back short.  A client reads a whole bucket by
following `next_cursor` (`listPages`).  The two loops of the source have no bound of their own, so
the model gives them fuel and the theorems say how much is enough.

* `buildListingPage_eq`: one page is one `pageSplit` of the matching rows after the cursor.
* `exists_listPages`: following the cursor ends, and the pages are those of `Paginates`.
* `listPages_exact`: what the pages of one listing contain.
-/

namespace IpfS3.Listing

open Store GroupedPages Keyset ListingPageBuilder List

inductive S3Error where
  | noSuchBucket (message : Text)
  deriving DecidableEq

structure ListingRequest where
  bucket : Text
  pfx : Text
  delimiter : Option Text
  cursor : Option Text
  maxKeys : ℕ
  deriving DecidableEq

/-- The paging loop: query a batch, push it, stop when the page is complete or the batch is short;
`none` when the fuel runs out. -/
def pagingLoop (query : Option Text → List ListingObject) (batchLimit : ℕ) :
    ℕ → Option Text → ListingPageBuilder → Option ListingPageBuilder
  | 0, _, _ => none
  | fuel + 1, cursor, builder =>
    let rows := query cursor
    let exhausted := decide (rows.length < batchLimit)
    match builder.pushRows cursor rows with
    | (builder, _, .pageComplete) => some builder
    | (builder, cursor, .continue') =>
      if exhausted then some builder else pagingLoop query batchLimit fuel cursor builder

/-- The text of the error for a missing bucket. -/
def bucketNotFound (bucket : Text) : Text :=
  Text.ascii ['b', 'u', 'c', 'k', 'e', 't', ' ', 'n', 'o', 't', ' ', 'f', 'o', 'u', 'n', 'd', ':',
    ' '] ++ bucket

/-- The batch size: one lookahead row for a flat page, larger batches under a delimiter. -/
def batchLimit (delimiter : Option Text) (maxKeys : ℕ) : ℕ :=
  if delimiter.isSome then max (maxKeys + 1) 1000 else maxKeys + 1

def buildListingPage (keyStartsWith : Text → Text → Bool) (fuel : ℕ) (db : Catalog)
    (request : ListingRequest) : Option (Except S3Error ListingPage) :=
  if bucketExists db request.bucket then
    let cursor := request.cursor.filter fun value => !value.isEmpty
    let prefixFilter := if request.pfx.isEmpty then none else some request.pfx
    let delimiter := request.delimiter.filter fun value => !value.isEmpty
    let limit := batchLimit delimiter request.maxKeys
    let builder := ListingPageBuilder.new request.pfx delimiter request.maxKeys
    (pagingLoop (fun cursor => list keyStartsWith db request.bucket prefixFilter cursor limit)
      limit fuel cursor builder).map fun builder => .ok builder.finish
  else
    some (.error (.noSuchBucket (bucketNotFound request.bucket)))

/-- Reading a bucket by following `next_cursor`, page number `i` with room for `maxKeys i`
entries. -/
def listPages (keyStartsWith : Text → Text → Bool) (db : Catalog) (bucket pfx : Text)
    (delimiter : Option Text) :
    ℕ → (ℕ → ℕ) → Option Text → Option (Except S3Error (List ListingPage))
  | 0, _, _ => none
  | fuel + 1, maxKeys, cursor =>
    match buildListingPage keyStartsWith (fuel + 1) db
        ⟨bucket, pfx, delimiter, cursor, maxKeys 0⟩ with
    | none => none
    | some (.error e) => some (.error e)
    | some (.ok page) =>
      match page.nextCursor with
      | none => some (.ok [page])
      | some next =>
        (listPages keyStartsWith db bucket pfx delimiter fuel (fun i => maxKeys (i + 1))
          (some next)).map fun result => result.map fun pages => page :: pages

/-! ## One page -/

theorem pagingLoop_succ (query : Option Text → List ListingObject) (n fuel : ℕ)
    (cursor : Option Text) (b : ListingPageBuilder) :
    pagingLoop query n (fuel + 1) cursor b =
      match b.pushRows cursor (query cursor) with
      | (b', _, .pageComplete) => some b'
      | (b', cursor', .continue') =>
        if (query cursor).length < n then some b' else pagingLoop query n fuel cursor' b' := by
  rw [pagingLoop]
  rcases b.pushRows cursor (query cursor) with ⟨b', cursor', _ | _⟩ <;> simp

/-- **The paging loop reads one page.**  Fuel for one batch per remaining row, and one more, is
enough. -/
theorem pagingLoop_eq {query : Option Text → List ListingObject} {M : List ListingObject} {n : ℕ}
    (hM : Ascending ListingObject.key M) (hn : 1 ≤ n)
    (hquery : ∀ c, query c = (after ListingObject.key c M).take n) {cursor : Option Text}
    {b : ListingPageBuilder} {seen : List ListingObject} (hb : b.Consumed seen)
    (htrunc : b.isTruncated = false)
    (hnodup : (seen ++ after ListingObject.key cursor M).Nodup) :
    ∃ b', (∀ fuel, (after ListingObject.key cursor M).length < fuel →
        pagingLoop query n fuel cursor b = some b') ∧
      b'.Consumed (pageSplit (rowLabel b.pfx b.delimiter) b.maxKeys seen
        (after ListingObject.key cursor M)).1 ∧
      SameRequest b b' ∧
      (b'.isTruncated = true ↔ (pageSplit (rowLabel b.pfx b.delimiter) b.maxKeys seen
        (after ListingObject.key cursor M)).2 ≠ []) := by
  induction hlen : (after ListingObject.key cursor M).length using Nat.strongRecOn
    generalizing cursor b seen with
  | ind k ih =>
    set L := after ListingObject.key cursor M with hL
    have hsplit := pageSplit_append_list (rowLabel b.pfx b.delimiter) b.maxKeys seen (L.take n)
      (L.drop n)
    rw [take_append_drop] at hsplit
    have hbatch : (seen ++ L.take n).Nodup :=
      hnodup.sublist ((take_sublist n L).append_left seen)
    have hturn (fuel : ℕ) := pagingLoop_succ query n fuel cursor b
    rw [hquery cursor, ← hL] at hturn
    obtain ⟨b', cursor', hb', hreq, hrows⟩ := pushRows_spec cursor hb hbatch
    cases hrest : (pageSplit (rowLabel b.pfx b.delimiter) b.maxKeys seen (L.take n)).2 with
    | cons r R =>
      rw [hrest, if_neg (cons_ne_nil r R)] at hsplit hrows
      obtain ⟨hpush, htrunc'⟩ := hrows
      rw [hsplit]
      refine ⟨b', fun fuel hfuel => ?_, hb', hreq, by simp [htrunc']⟩
      obtain ⟨fuel, rfl⟩ := Nat.exists_eq_add_of_lt hfuel
      rw [hturn, hpush]
    | nil =>
      rw [if_pos hrest] at hsplit hrows
      rw [pageSplit_eq_append _ hrest] at hb'
      obtain ⟨hpush, htrunc'⟩ := hrows
      rw [hsplit]
      by_cases hshort : (L.take n).length < n
      · -- a short batch is the last one
        have hdrop : L.drop n = [] := by
          rw [length_take] at hshort
          exact drop_eq_nil_of_le (by omega)
        refine ⟨b', fun fuel hfuel => ?_, ?_, hreq, ?_⟩
        · obtain ⟨fuel, rfl⟩ := Nat.exists_eq_add_of_lt hfuel
          rw [hturn, hpush]
          exact if_pos hshort
        · rw [hdrop]
          exact hb'
        · rw [htrunc', htrunc, hdrop]
          simp [pageSplit]
      · obtain ⟨A, r, hA⟩ : ∃ A r, L.take n = A ++ [r] := by
          have hne : L.take n ≠ [] := fun hnil => by
            rw [hnil, length_nil] at hshort
            omega
          exact ⟨_, _, (dropLast_append_getLast hne).symm⟩
        have hnext := after_of_take_eq_concat ListingObject.key hM (hL ▸ hA)
        rw [← hL] at hnext
        have hcursor : ((L.take n).getLast?.map ListingObject.key).or cursor = some r.key := by
          rw [hA, getLast?_concat]
          rfl
        have hdrop : (L.drop n).length < k := by
          rw [length_take] at hshort
          rw [length_drop]
          omega
        have hnodup' : (seen ++ L.take n ++ L.drop n).Nodup := by
          rw [append_assoc, take_append_drop]
          exact hnodup
        rw [← hnext] at hdrop hnodup' ⊢
        obtain ⟨b₂, hloop, hb₂, hreq₂, htrunc₂⟩ :=
          ih _ hdrop hb' (htrunc'.trans htrunc) hnodup' rfl
        rw [hreq.pfx_eq, hreq.delimiter_eq, hreq.maxKeys_eq] at hb₂ htrunc₂
        refine ⟨b₂, fun fuel hfuel => ?_, hb₂, hreq.trans hreq₂, htrunc₂⟩
        obtain ⟨fuel, rfl⟩ := Nat.exists_eq_add_of_lt hfuel
        rw [hturn, hpush, hcursor]
        exact (if_neg hshort).trans (hloop _ (by omega))

/-- What a page shows of the rows `L` after its cursor. -/
structure PageOf (pfx : Text) (delimiter : Option Text) (maxKeys : ℕ) (L : List ListingObject)
    (page : ListingPage) : Prop where
  entries_eq : page.entries.map ListingEntry.toLabel =
    labels (rowLabel pfx delimiter) (pageSplit (rowLabel pfx delimiter) maxKeys [] L).1
  isTruncated_iff : page.isTruncated = true ↔
    (pageSplit (rowLabel pfx delimiter) maxKeys [] L).2 ≠ []
  nextCursor_eq : page.nextCursor = if page.isTruncated then
    (pageSplit (rowLabel pfx delimiter) maxKeys [] L).1.getLast?.map ListingObject.key else none

/-- The rows a listing of `pfx` can show. -/
abbrev listingRows (keyStartsWith : Text → Text → Bool) (db : Catalog) (bucket pfx : Text) :
    List ListingObject :=
  matching keyStartsWith db bucket (if pfx.isEmpty then none else some pfx)

section Page

variable {keyStartsWith : Text → Text → Bool} {db : Catalog} {bucket pfx : Text}
  {delimiter : Option Text}

theorem rowLabel_filter : rowLabel pfx (delimiter.filter fun value => !value.isEmpty) =
    rowLabel pfx delimiter := by
  have hidem (key : Text) :
      commonPrefixForKey key pfx (delimiter.filter fun value => !value.isEmpty) =
        commonPrefixForKey key pfx delimiter := by
    rw [commonPrefixForKey, commonPrefixForKey, Option.filter_filter]
    simp only [Bool.and_self]
  funext row
  rw [rowLabel, label, hidem]
  rfl

theorem after_filter (cursor : Option Text) :
    after ListingObject.key (cursor.filter fun value => !value.isEmpty)
        (listingRows keyStartsWith db bucket pfx) =
      after ListingObject.key cursor (listingRows keyStartsWith db bucket pfx) := by
  rcases cursor with _ | _ | ⟨c, cursor⟩
  · rfl
  · refine filter_congr fun row hrow => ?_
    obtain ⟨c, rest, hkey⟩ := exists_cons_of_ne_nil (key_ne_nil_of_mem_matching hrow)
    simp [hkey]
  · rfl

/-- **One page of a listing.** -/
theorem buildListingPage_eq (hbucket : bucketExists db bucket = true) (cursor : Option Text)
    (maxKeys : ℕ) :
    ∃ page, (∀ fuel, (after ListingObject.key cursor
          (listingRows keyStartsWith db bucket pfx)).length < fuel →
        buildListingPage keyStartsWith fuel db ⟨bucket, pfx, delimiter, cursor, maxKeys⟩ =
          some (.ok page)) ∧
      PageOf pfx delimiter maxKeys
        (after ListingObject.key cursor (listingRows keyStartsWith db bucket pfx)) page := by
  have hlimit : 1 ≤ batchLimit (delimiter.filter fun value => !value.isEmpty) maxKeys := by
    rw [batchLimit]
    split_ifs <;> omega
  have hasc : Ascending ListingObject.key (listingRows keyStartsWith db bucket pfx) :=
    ascending_matching
  rw [← after_filter]
  obtain ⟨b', hloop, hb', hreq, htrunc⟩ := pagingLoop_eq hasc hlimit
    (fun c => list_eq c _) (consumed_new pfx (delimiter.filter fun value => !value.isEmpty) maxKeys)
    rfl (hasc.after _ _).nodup
  have hlabel : rowLabel (new pfx (delimiter.filter fun value => !value.isEmpty) maxKeys).pfx
      (new pfx (delimiter.filter fun value => !value.isEmpty) maxKeys).delimiter =
        rowLabel pfx delimiter := rowLabel_filter
  have hlabel' : rowLabel b'.pfx b'.delimiter = rowLabel pfx delimiter := by
    rw [hreq.pfx_eq, hreq.delimiter_eq]
    exact hlabel
  rw [hlabel] at hb' htrunc
  refine ⟨b'.finish, fun fuel hfuel => ?_, ⟨?_, htrunc, ?_⟩⟩
  · rw [buildListingPage, if_pos hbucket]
    exact congrArg (Option.map fun builder => Except.ok builder.finish) (hloop fuel hfuel)
  · have hentries := hb'.entries_eq
    rw [hlabel'] at hentries
    exact hentries
  · rw [finish, hb'.lastConsumedKey_eq]
    rfl

/-! ## Following the cursor -/

/-- The cursor page number `i` was asked with. -/
def inputCursor (cursor : Option Text) (pages : List ListingPage) : ℕ → Option Text
  | 0 => cursor
  | i + 1 => pages[i]?.bind ListingPage.nextCursor

/-- What holds of each page of a run: it is not overfull, all pages but the last are truncated, and
a truncated page has an entry and moves the cursor up. -/
def PagesBounded (cursor : Option Text) (maxKeys : ℕ → ℕ) (pages : List ListingPage) : Prop :=
  ∀ i page, pages[i]? = some page →
    page.entries.length ≤ maxKeys i ∧
    (page.isTruncated = true ↔ i + 1 < pages.length) ∧
    (page.isTruncated = true → page.entries ≠ [] ∧
      ∃ next, page.nextCursor = some next ∧ ∀ c, inputCursor cursor pages i = some c → c < next)

variable {page : ListingPage}

theorem inputCursor_cons_succ {cursor : Option Text} {next : Text} {pages : List ListingPage}
    (hnext : page.nextCursor = some next) (i : ℕ) :
    inputCursor cursor (page :: pages) (i + 1) = inputCursor (some next) pages i := by
  cases i with
  | zero => simpa [inputCursor] using hnext
  | succ i => rfl

theorem PagesBounded.cons {cursor : Option Text} {maxKeys : ℕ → ℕ} {next : Text}
    {pages : List ListingPage} (hnext : page.nextCursor = some next)
    (hle : page.entries.length ≤ maxKeys 0) (htrunc : page.isTruncated = true)
    (hne : page.entries ≠ []) (hlt : ∀ c, cursor = some c → c < next) (hpages : pages ≠ [])
    (h : PagesBounded (some next) (fun i => maxKeys (i + 1)) pages) :
    PagesBounded cursor maxKeys (page :: pages) := by
  intro i page' hpage
  cases i with
  | zero =>
    obtain rfl : page = page' := by simpa using hpage
    have := length_pos_of_ne_nil hpages
    exact ⟨hle, by simp [htrunc]; omega, fun _ => ⟨hne, next, hnext, hlt⟩⟩
  | succ i =>
    rw [getElem?_cons_succ] at hpage
    obtain ⟨hle', hiff, hmore⟩ := h i page' hpage
    refine ⟨hle', by rw [hiff, length_cons]; omega, fun ht => ?_⟩
    rw [inputCursor_cons_succ hnext]
    exact hmore ht

theorem PageOf.exists_next {M : List ListingObject} {cursor : Option Text} {maxKeys : ℕ}
    {r : ListingObject} {R : List ListingObject} (hM : Ascending ListingObject.key M)
    (hmax : 1 ≤ maxKeys)
    (h : PageOf pfx delimiter maxKeys (after ListingObject.key cursor M) page)
    (hrest : (pageSplit (rowLabel pfx delimiter) maxKeys []
      (after ListingObject.key cursor M)).2 = r :: R) :
    page.isTruncated = true ∧ page.entries ≠ [] ∧ ∃ next, page.nextCursor = some next ∧
      (∀ c, cursor = some c → c < next) ∧
      after ListingObject.key (some next) M = r :: R := by
  set L := after ListingObject.key cursor M with hL
  set A := (pageSplit (rowLabel pfx delimiter) maxKeys [] L).1 with hA
  have happ := pageSplit_append (rowLabel pfx delimiter) maxKeys [] L
  rw [hrest, ← hA, nil_append] at happ
  have hne : A ≠ [] := by
    cases hcase : L with
    | nil => rw [hcase] at happ; exact absurd happ (by simp)
    | cons a L' => rw [hA, hcase]; exact pageSplit_ne_nil _ hmax a L'
  obtain ⟨B, a, hBa⟩ : ∃ B a, A = B ++ [a] := ⟨_, _, (dropLast_append_getLast hne).symm⟩
  have htrunc : page.isTruncated = true := h.isTruncated_iff.mpr (by rw [hrest]; simp)
  have htake : L.take A.length = B ++ [a] := by rw [← happ, take_left, hBa]
  refine ⟨htrunc, ?_, a.key, ?_, ?_, ?_⟩
  · intro hnil
    have hlabels := h.entries_eq
    rw [hnil, map_nil, ← hA] at hlabels
    have hmem : rowLabel pfx delimiter a ∈ labels (rowLabel pfx delimiter) A :=
      (mem_labels _).mpr ⟨a, by rw [hBa]; simp, rfl⟩
    rw [← hlabels] at hmem
    cases hmem
  · rw [h.nextCursor_eq, if_pos htrunc, ← hA, hBa, getLast?_concat, Option.map_some]
  · rintro c rfl
    have hmem : a ∈ L := by rw [← happ, hBa]; simp
    exact ((mem_after_some ListingObject.key).mp hmem).2
  · rw [after_of_take_eq_concat ListingObject.key hM htake, ← hL, ← happ, drop_left]

/-- **Following the cursor ends**, and its pages read the rows after the cursor page by page.  Fuel
for one page per remaining row, and one more, is enough. -/
theorem exists_listPages (hbucket : bucketExists db bucket = true) {maxKeys : ℕ → ℕ}
    (hmax : ∀ i, 1 ≤ maxKeys i) (cursor : Option Text) :
    ∃ pages splits, (∀ fuel, (after ListingObject.key cursor
          (listingRows keyStartsWith db bucket pfx)).length < fuel →
        listPages keyStartsWith db bucket pfx delimiter fuel maxKeys cursor = some (.ok pages)) ∧
      Paginates (rowLabel pfx delimiter) maxKeys
        (after ListingObject.key cursor (listingRows keyStartsWith db bucket pfx)) splits ∧
      pages.map (fun page => page.entries.map ListingEntry.toLabel) =
        splits.map (labels (rowLabel pfx delimiter)) ∧
      PagesBounded cursor maxKeys pages := by
  induction hn : (after ListingObject.key cursor
      (listingRows keyStartsWith db bucket pfx)).length using Nat.strongRecOn
    generalizing cursor maxKeys with
  | ind n ih =>
    have hasc : Ascending ListingObject.key (listingRows keyStartsWith db bucket pfx) :=
      ascending_matching
    obtain ⟨page, hbuild, hpage⟩ : ∃ page, _ ∧ PageOf pfx delimiter (maxKeys 0) _ page :=
      buildListingPage_eq hbucket cursor (maxKeys 0)
    set L := after ListingObject.key cursor (listingRows keyStartsWith db bucket pfx)
    have hle : page.entries.length ≤ maxKeys 0 := by
      rw [← length_map ListingEntry.toLabel, hpage.entries_eq]
      exact length_labels_pageSplit_le _ _ (Nat.zero_le _)
    cases hrest : (pageSplit (rowLabel pfx delimiter) (maxKeys 0) [] L).2 with
    | nil =>
      have htrunc : page.isTruncated = false := by
        rw [← Bool.not_eq_true, hpage.isTruncated_iff, hrest, not_not]
      have hnext : page.nextCursor = none := by rw [hpage.nextCursor_eq, htrunc]; rfl
      refine ⟨[page], _, fun fuel hfuel => ?_, Paginates.last hrest, ?_, fun i page' hpage' => ?_⟩
      · obtain ⟨fuel, rfl⟩ := Nat.exists_eq_add_of_lt hfuel
        rw [listPages, hbuild _ (by omega)]
        simp only [hnext]
      · rw [map_singleton, map_singleton, hpage.entries_eq]
      · obtain ⟨rfl, rfl⟩ : i = 0 ∧ page = page' := by
          cases i with
          | zero => simpa using hpage'
          | succ i => simp at hpage'
        exact ⟨hle, by simp [htrunc], fun h => absurd h (by simp [htrunc])⟩
    | cons r R =>
      obtain ⟨htrunc, hne, next, hnext, hlt, hafter⟩ := hpage.exists_next hasc (hmax 0) hrest
      have happ := congrArg length (pageSplit_append (rowLabel pfx delimiter) (maxKeys 0) [] L)
      have hpos : 0 < (pageSplit (rowLabel pfx delimiter) (maxKeys 0) [] L).1.length := by
        refine length_pos_of_ne_nil fun hnil => hne ?_
        rw [← map_eq_nil_iff, hpage.entries_eq, hnil, labels_nil]
      rw [hrest, ← hafter, length_append, nil_append, hn] at happ
      obtain ⟨pages, splits, hpages, hsplits, hmap, hbounded⟩ :=
        ih _ (by omega) (fun i => hmax (i + 1)) (some next) rfl
      have hpages_ne : pages ≠ [] := by
        rintro rfl
        cases hsplits <;> simp at hmap
      refine ⟨page :: pages, _, fun fuel hfuel => ?_, Paginates.more hrest (hafter ▸ hsplits), ?_,
        PagesBounded.cons hnext hle htrunc hne hlt hpages_ne hbounded⟩
      · obtain ⟨fuel, rfl⟩ := Nat.exists_eq_add_of_lt hfuel
        rw [listPages, hbuild _ (by omega)]
        simp only [hnext, hpages _ (show _ < n + fuel by omega), Option.map_some]
        rfl
      · rw [map_cons, map_cons, hpage.entries_eq, hmap]

end Page

/-! ## Exactness -/

def ListingEntry.name : ListingEntry → Text
  | .object row => row.key
  | .commonPrefix cp _ => cp

/-- An entry accounts for a key: it is the object with that key or a common prefix of it. -/
def ListingEntry.accountsFor (key : Text) : ListingEntry → Bool
  | .object row => row.key == key
  | .commonPrefix cp _ => Text.startsWith key cp

/-- An entry is the common prefix `cp`. -/
def ListingEntry.isCommonPrefix (cp : Text) : ListingEntry → Bool
  | .object _ => false
  | .commonPrefix cp' _ => cp' == cp

/-- The key continues the prefix with a text that contains the delimiter. -/
def DelimiterAfter (pfx : Text) (delimiter : Option Text) (key : Text) : Prop :=
  ∃ d, delimiter = some d ∧ d ≠ [] ∧ ∃ rest, key = pfx ++ rest ∧ d <:+: rest

/-- The entries list the `expected` rows exactly. -/
structure ExactListing (expected : ListingObject → Prop) (pfx : Text) (delimiter : Option Text)
    (entries : List ListingEntry) : Prop where
  accounted_once : ∀ row, expected row →
    entries.countP (ListingEntry.accountsFor row.key) = 1
  object_iff : ∀ row, ListingEntry.object row ∈ entries ↔
    expected row ∧ ¬DelimiterAfter pfx delimiter row.key
  commonPrefix_once : ∀ cp, entries.countP (ListingEntry.isCommonPrefix cp) ≤ 1
  commonPrefix_iff : ∀ cp, (∃ k, ListingEntry.commonPrefix cp k ∈ entries) ↔
    ∃ row, expected row ∧ DelimiterAfter pfx delimiter row.key ∧
      commonPrefixForKey row.key pfx delimiter = some cp
  ascending : entries.Pairwise fun a b => a.name < b.name

variable {row : ListingObject}

section Exact

variable {L : List ListingObject} {pfx : Text} {delimiter : Option Text}
  {entries : List ListingEntry}

theorem countP_entries {q : Label ListingObject → Bool} {p : ListingEntry → Bool}
    (hpq : ∀ entry, p entry = q entry.toLabel)
    (h : entries.map ListingEntry.toLabel = labels (rowLabel pfx delimiter) L) :
    entries.countP p = (labels (rowLabel pfx delimiter) L).countP q := by
  rw [← h, countP_map]
  exact congrArg (fun f => entries.countP f) (funext hpq)

theorem countP_labels_le_one {q : Label ListingObject → Bool} {l : Label ListingObject}
    (hq : ∀ b ∈ labels (rowLabel pfx delimiter) L, q b = true → b = l) :
    (labels (rowLabel pfx delimiter) L).countP q ≤ 1 :=
  calc (labels (rowLabel pfx delimiter) L).countP q
      ≤ (labels (rowLabel pfx delimiter) L).count l :=
        countP_mono_left fun b hb hqb => by simp [hq b hb hqb]
    _ ≤ 1 := nodup_iff_count_le_one.mp (nodup_labels _ L) l

theorem label_accountsFor (hL : Ascending ListingObject.key L) (hrow : row ∈ L)
    {entry : ListingEntry} (hentry : entry.toLabel ∈ labels (rowLabel pfx delimiter) L) :
    entry.accountsFor row.key = true ↔ entry.toLabel = rowLabel pfx delimiter row := by
  obtain ⟨r, hr, hlabel⟩ := (mem_labels _).mp hentry
  cases entry with
  | object o =>
    obtain ⟨hnone, rfl⟩ := label_eq_own_iff.mp hlabel
    have hkey : r.key = row.key ↔ r = row :=
      ⟨fun heq => hL.eq_of_key_eq _ hr hrow heq, fun heq => heq ▸ rfl⟩
    constructor
    · intro h
      obtain rfl := hkey.mp (by simpa [ListingEntry.accountsFor] using h)
      exact hlabel.symm
    · intro h
      simpa [ListingEntry.accountsFor] using hkey.mpr (label_eq_own_iff.mp h.symm).2.symm
  | commonPrefix cp k =>
    have hcp := label_eq_group_iff.mp hlabel
    rw [ListingEntry.accountsFor, Text.startsWith_iff]
    exact ⟨fun h => (label_eq_group_iff.mpr (commonPrefixForKey_of_isPrefix hcp h)).symm,
      fun h => commonPrefix_isPrefix (label_eq_group_iff.mp h.symm)⟩

theorem mem_entries_object
    (h : entries.map ListingEntry.toLabel = labels (rowLabel pfx delimiter) L) :
    ListingEntry.object row ∈ entries ↔ row ∈ L ∧ ¬DelimiterAfter pfx delimiter row.key := by
  have hmem : ListingEntry.object row ∈ entries ↔
      Label.own row ∈ entries.map ListingEntry.toLabel := by
    rw [mem_map]
    constructor
    · exact fun hrow => ⟨_, hrow, rfl⟩
    · rintro ⟨entry, hentry, hlabel⟩
      cases entry with
      | object o => exact (Label.own.inj hlabel) ▸ hentry
      | commonPrefix cp k => exact absurd hlabel (by simp [ListingEntry.toLabel])
  rw [hmem, h, mem_labels, DelimiterAfter, ← commonPrefixForKey_isSome_iff,
    Option.not_isSome_iff_eq_none]
  constructor
  · rintro ⟨r, hr, hlabel⟩
    obtain ⟨hnone, rfl⟩ := label_eq_own_iff.mp hlabel
    exact ⟨hr, hnone⟩
  · exact fun ⟨hrow, hnone⟩ => ⟨row, hrow, label_eq_own_iff.mpr ⟨hnone, rfl⟩⟩

theorem mem_entries_commonPrefix (h : entries.map ListingEntry.toLabel =
    labels (rowLabel pfx delimiter) L) {cp : Text} :
    (∃ k, ListingEntry.commonPrefix cp k ∈ entries) ↔
      ∃ row ∈ L, commonPrefixForKey row.key pfx delimiter = some cp := by
  have hmem : (∃ k, ListingEntry.commonPrefix cp k ∈ entries) ↔
      Label.group cp ∈ entries.map ListingEntry.toLabel := by
    rw [mem_map]
    constructor
    · exact fun ⟨k, hk⟩ => ⟨_, hk, rfl⟩
    · rintro ⟨entry, hentry, hlabel⟩
      cases entry with
      | object o => exact absurd hlabel (by simp [ListingEntry.toLabel])
      | commonPrefix cp' k => exact ⟨k, (Label.group.inj hlabel) ▸ hentry⟩
  rw [hmem, h, mem_labels]
  simp only [label_eq_group_iff]

/-- **Entries that show the labels of ascending rows list these rows exactly.** -/
theorem exactListing_of_labels (hL : Ascending ListingObject.key L)
    (h : entries.map ListingEntry.toLabel = labels (rowLabel pfx delimiter) L) :
    ExactListing (· ∈ L) pfx delimiter entries where
  accounted_once row hrow := by
    have hcount : entries.countP (ListingEntry.accountsFor row.key) =
        entries.countP fun entry => entry.toLabel == rowLabel pfx delimiter row := by
      refine countP_congr fun entry hentry => ?_
      rw [beq_iff_eq]
      exact label_accountsFor hL hrow (h ▸ mem_map_of_mem hentry)
    rw [hcount, countP_entries (q := (· == rowLabel pfx delimiter row)) (fun _ => rfl) h]
    exact count_eq_one_of_mem (nodup_labels _ L) ((mem_labels _).mpr ⟨row, hrow, rfl⟩)
  object_iff _ := mem_entries_object h
  commonPrefix_once cp := by
    rw [countP_entries (q := (· == Label.group cp)) _ h]
    · exact countP_labels_le_one fun b _ hb => by simpa using hb
    · intro entry
      cases entry <;> simp [ListingEntry.isCommonPrefix, ListingEntry.toLabel]
  commonPrefix_iff cp := by
    rw [mem_entries_commonPrefix h]
    constructor
    · rintro ⟨row, hrow, hcp⟩
      exact ⟨row, hrow, commonPrefixForKey_isSome_iff.mp (by rw [hcp]; rfl), hcp⟩
    · rintro ⟨row, hrow, -, hcp⟩
      exact ⟨row, hrow, hcp⟩
  ascending := by
    have hname : ∀ entry : ListingEntry, entry.name = entry.toLabel.name ListingObject.key :=
      fun entry => by cases entry <;> rfl
    simp only [hname]
    rw [← pairwise_map (f := ListingEntry.toLabel)
      (R := fun a b => a.name ListingObject.key < b.name ListingObject.key), h]
    refine pairwise_eraseDups ?_
    rw [pairwise_map]
    refine hL.imp fun {a b} hab => ?_
    by_cases heq : rowLabel pfx delimiter a = rowLabel pfx delimiter b
    · exact Or.inl heq
    · exact Or.inr (name_label_lt hab heq)

end Exact

section Listing

variable (keyStartsWith : Text → Text → Bool) (db : Catalog) (bucket pfx : Text)
  (delimiter cursor : Option Text) {maxKeys : ℕ → ℕ}

/-- **Following the cursor lists the rows after the start exactly**, whatever the store takes for a
matching key. -/
theorem listPages_exact (hbucket : bucketExists db bucket = true) (hmax : ∀ i, 1 ≤ maxKeys i) :
    ∃ pages, (∀ fuel, db.objects.length < fuel →
        listPages keyStartsWith db bucket pfx delimiter fuel maxKeys cursor = some (.ok pages)) ∧
      ExactListing (· ∈ after ListingObject.key cursor (listingRows keyStartsWith db bucket pfx))
        pfx delimiter (pages.flatMap ListingPage.entries) ∧
      PagesBounded cursor maxKeys pages := by
  set L := after ListingObject.key cursor (listingRows keyStartsWith db bucket pfx)
  have hasc : Ascending ListingObject.key L := ascending_matching.after _ _
  obtain ⟨pages, splits, hpages, hsplits, hmap, hbounded⟩ :
      ∃ pages splits, _ ∧ Paginates (rowLabel pfx delimiter) maxKeys L splits ∧ _ :=
    exists_listPages hbucket hmax cursor
  refine ⟨pages, fun fuel hfuel => hpages fuel ?_, exactListing_of_labels hasc ?_, hbounded⟩
  · exact ((length_filter_le _ _).trans length_matching_le).trans_lt hfuel
  · have hcontiguous : Contiguous (rowLabel pfx delimiter) L :=
      contiguous_label (hasc.imp le_of_lt) hasc.nodup
    rw [map_flatMap, flatMap_def, hmap]
    exact hsplits.labels_flatten hcontiguous

/-- A row that a listing from `cursor` has to show: a latest object of the bucket whose key starts
with the prefix and comes after the cursor. -/
def ExpectedRow (row : ListingObject) : Prop :=
  ∃ o ∈ db.objects, o.bucket = bucket ∧ o.isLatest = true ∧ pfx <+: o.key ∧
    (∀ c, cursor = some c → c < o.key) ∧ o.listing = row

theorem mem_after_listingRows_iff :
    row ∈ after ListingObject.key cursor (listingRows Text.startsWith db bucket pfx) ↔
      ExpectedRow db bucket pfx cursor row := by
  have hpre (key : Text) :
      (if pfx.isEmpty then none else some pfx).all (Text.startsWith key) = true ↔ pfx <+: key := by
    cases pfx with
    | nil => simp
    | cons c pfx => simp
  rw [mem_after, mem_matching, ExpectedRow]
  constructor
  · rintro ⟨⟨o, ho, hbucket, hlatest, hpfx, rfl⟩, hafter⟩
    exact ⟨o, ho, hbucket, hlatest, (hpre _).mp hpfx, hafter, rfl⟩
  · rintro ⟨o, ho, hbucket, hlatest, hpfx, hafter, rfl⟩
    exact ⟨⟨o, ho, hbucket, hlatest, (hpre _).mpr hpfx, rfl⟩, hafter⟩

/-- **Pagination of `ListObjects` is exact.**  With a store that compares prefixes literally, the
pages from any cursor end, list every matching key after the cursor once, on its own or inside one
common prefix, in ascending order, and each page stays within its bounds. -/
theorem listObjects_exact (hbucket : bucketExists db bucket = true)
    (hmax : ∀ i, 1 ≤ maxKeys i) :
    ∃ pages, (∀ fuel, db.objects.length < fuel →
        listPages Text.startsWith db bucket pfx delimiter fuel maxKeys cursor = some (.ok pages)) ∧
      ExactListing (ExpectedRow db bucket pfx cursor) pfx delimiter
        (pages.flatMap ListingPage.entries) ∧
      PagesBounded cursor maxKeys pages := by
  have hrows : (· ∈ after ListingObject.key cursor (listingRows Text.startsWith db bucket pfx)) =
      ExpectedRow db bucket pfx cursor :=
    funext fun row => propext (mem_after_listingRows_iff db bucket pfx cursor)
  have hexact := listPages_exact Text.startsWith db bucket pfx delimiter cursor hbucket hmax
  rw [hrows] at hexact
  exact hexact

end Listing

/-- A bucket with two keys in one folder and one key next to it. -/
def folderCatalog : Catalog where
  buckets := [[98]]
  objects := [⟨[1], [98], [97, 47, 49], [], 0, [], 0, true⟩,
    ⟨[2], [98], [97, 47, 50], [], 0, [], 0, true⟩, ⟨[3], [98], [99], [], 0, [], 0, true⟩]
  latest_unique := by decide
  key_ne_nil := by decide

/-- The folder is listed one entry a page. -/
theorem listObjects_exact_folder :
    ∃ pages, (∀ fuel, folderCatalog.objects.length < fuel →
        listPages Text.startsWith folderCatalog [98] [] (some [47]) fuel (fun _ => 1) none =
          some (.ok pages)) ∧
      ExactListing (ExpectedRow folderCatalog [98] [] none) [] (some [47])
        (pages.flatMap ListingPage.entries) ∧
      PagesBounded none (fun _ => 1) pages :=
  listObjects_exact folderCatalog [98] [] (some [47]) none (by decide) fun _ => le_refl 1

example : (listPages Text.startsWith folderCatalog [98] [] (some [47]) 4 (fun _ => 1) none).map
      (Except.map (map fun page => page.entries.map ListingEntry.name)) =
    some (.ok [[[97, 47]], [[99]]]) := by decide

end IpfS3.Listing
