import IpfS3.Store.Objects
import IpfS3.Listing.CommonPrefix

/-!
# The page builder

`ListingPageBuilder` of `s3/ops/object.rs` turns rows into the entries of one page: `push_row`
appends an object, opens a common prefix, or folds the row into a prefix that is already open, and
reports a full page instead of a further entry.

The builder is followed by the rows it has consumed: `Consumed b seen` says that its entries are the
labels of `seen`, each once and in order.  A push either consumes its row (`pushRow_consumed`) or
finds the page full (`pushRow_full`), so a batch does exactly what `pageSplit` does
(`pushRows_spec`).
-/

namespace IpfS3.Listing

open Store GroupedPages List

inductive ListingEntry where
  | object (row : ListingObject)
  | commonPrefix (pfx continuationKey : Text)
  deriving DecidableEq

structure ListingPage where
  entries : List ListingEntry
  isTruncated : Bool
  nextCursor : Option Text
  deriving DecidableEq

inductive PushListEntryResult where
  | continue'
  | pageComplete
  deriving DecidableEq

/-- `ListingPageBuilder`; the positions of open prefixes are an association list. -/
structure ListingPageBuilder where
  pfx : Text
  delimiter : Option Text
  maxKeys : ℕ
  entries : List ListingEntry
  commonPrefixPositions : List (Text × ℕ)
  lastConsumedKey : Option Text
  isTruncated : Bool

def ListingEntry.setContinuationKey (key : Text) : ListingEntry → ListingEntry
  | .object row => .object row
  | .commonPrefix pfx _ => .commonPrefix pfx key

namespace ListingPageBuilder

def new (pfx : Text) (delimiter : Option Text) (maxKeys : ℕ) : ListingPageBuilder :=
  ⟨pfx, delimiter, maxKeys, [], [], none, false⟩

def pushRow (self : ListingPageBuilder) (row : ListingObject) :
    ListingPageBuilder × PushListEntryResult :=
  let key := row.key
  match commonPrefixForKey key self.pfx self.delimiter with
  | some commonPrefix =>
    match self.commonPrefixPositions.lookup commonPrefix with
    | some position =>
      ({ self with
          entries := self.entries.modify position (ListingEntry.setContinuationKey key)
          lastConsumedKey := some key }, .continue')
    | none =>
      if self.maxKeys ≤ self.entries.length then
        ({ self with isTruncated := true }, .pageComplete)
      else
        ({ self with
            entries := self.entries ++ [.commonPrefix commonPrefix key]
            commonPrefixPositions :=
              (commonPrefix, self.entries.length) :: self.commonPrefixPositions
            lastConsumedKey := some key }, .continue')
  | none =>
    if self.maxKeys ≤ self.entries.length then
      ({ self with isTruncated := true }, .pageComplete)
    else
      ({ self with
          entries := self.entries ++ [.object row]
          lastConsumedKey := some key }, .continue')

def finish (self : ListingPageBuilder) : ListingPage :=
  ⟨self.entries, self.isTruncated, if self.isTruncated then self.lastConsumedKey else none⟩

/-- The inner loop over one batch, with the cursor it moves. -/
def pushRows (self : ListingPageBuilder) (cursor : Option Text) :
    List ListingObject → ListingPageBuilder × Option Text × PushListEntryResult
  | [] => (self, cursor, .continue')
  | row :: rows =>
    match self.pushRow row with
    | (self, .pageComplete) => (self, cursor, .pageComplete)
    | (self, .continue') => pushRows self (some row.key) rows

end ListingPageBuilder

/-! ## Entries and labels -/

def ListingEntry.toLabel : ListingEntry → Label ListingObject
  | .object row => .own row
  | .commonPrefix cp _ => .group cp

@[simp] theorem toLabel_setContinuationKey (key : Text) (entry : ListingEntry) :
    (entry.setContinuationKey key).toLabel = entry.toLabel := by
  cases entry <;> rfl

theorem map_toLabel_modify (entries : List ListingEntry) (position : ℕ) (key : Text) :
    (entries.modify position (ListingEntry.setContinuationKey key)).map ListingEntry.toLabel =
      entries.map ListingEntry.toLabel := by
  induction entries generalizing position with
  | nil => simp
  | cons entry entries ih =>
    cases position with
    | zero => simp
    | succ position => simp [ih]

abbrev rowLabel (pfx : Text) (delimiter : Option Text) : ListingObject → Label ListingObject :=
  label ListingObject.key pfx delimiter

namespace ListingPageBuilder

/-- `Consumed b seen`: the builder has consumed exactly the rows `seen`. -/
structure Consumed (b : ListingPageBuilder) (seen : List ListingObject) : Prop where
  entries_eq : b.entries.map ListingEntry.toLabel = labels (rowLabel b.pfx b.delimiter) seen
  lookup_isSome_iff : ∀ cp, (b.commonPrefixPositions.lookup cp).isSome ↔
    Label.group cp ∈ labels (rowLabel b.pfx b.delimiter) seen
  lastConsumedKey_eq : b.lastConsumedKey = seen.getLast?.map ListingObject.key

theorem consumed_new (pfx : Text) (delimiter : Option Text) (maxKeys : ℕ) :
    (new pfx delimiter maxKeys).Consumed [] where
  entries_eq := rfl
  lookup_isSome_iff cp := by simp [new]
  lastConsumedKey_eq := rfl

structure SameRequest (b b' : ListingPageBuilder) : Prop where
  pfx_eq : b'.pfx = b.pfx
  delimiter_eq : b'.delimiter = b.delimiter
  maxKeys_eq : b'.maxKeys = b.maxKeys

theorem SameRequest.trans {b b' b'' : ListingPageBuilder} (h : SameRequest b b')
    (h' : SameRequest b' b'') : SameRequest b b'' :=
  ⟨h'.1.trans h.1, h'.2.trans h.2, h'.3.trans h.3⟩

variable {b : ListingPageBuilder} {seen : List ListingObject} {row : ListingObject}

theorem Consumed.length_entries (h : b.Consumed seen) :
    b.entries.length = (labels (rowLabel b.pfx b.delimiter) seen).length := by
  rw [← h.entries_eq, length_map]

theorem own_not_mem_labels (pfx : Text) (delimiter : Option Text) (hrow : row ∉ seen) :
    Label.own row ∉ labels (rowLabel pfx delimiter) seen := by
  rw [mem_labels]
  rintro ⟨r, hr, hlabel⟩
  exact hrow ((label_eq_own_iff.mp hlabel).2 ▸ hr)

/-- **A push with room for its label consumes the row.** -/
theorem pushRow_consumed (h : b.Consumed seen) (hrow : row ∉ seen)
    (hroom : rowLabel b.pfx b.delimiter row ∈ labels (rowLabel b.pfx b.delimiter) seen ∨
      (labels (rowLabel b.pfx b.delimiter) seen).length < b.maxKeys) :
    ∃ b', b.pushRow row = (b', .continue') ∧ b'.Consumed (seen ++ [row]) ∧ SameRequest b b' ∧
      b'.isTruncated = b.isTruncated := by
  have hlast : (seen ++ [row]).getLast?.map ListingObject.key = some row.key := by simp
  have hlabels := labels_concat (rowLabel b.pfx b.delimiter) seen row
  rw [← h.length_entries] at hroom
  cases hcp : commonPrefixForKey row.key b.pfx b.delimiter with
  | none =>
    have hlabel : rowLabel b.pfx b.delimiter row = .own row := label_eq_own_iff.mpr ⟨hcp, rfl⟩
    have hnew := own_not_mem_labels b.pfx b.delimiter hrow
    rw [hlabel] at hroom hlabels
    rw [if_neg hnew] at hlabels
    have hlen := hroom.resolve_left hnew
    refine ⟨{ b with
        entries := b.entries ++ [.object row]
        lastConsumedKey := some row.key }, ?_, ⟨?_, fun cp => ?_, hlast.symm⟩, ⟨rfl, rfl, rfl⟩, rfl⟩
    · rw [pushRow, hcp]
      simp only [if_neg hlen.not_ge]
    · rw [hlabels, map_append, h.entries_eq]
      rfl
    · rw [hlabels, mem_append, ← h.lookup_isSome_iff cp]
      simp
  | some cp =>
    have hlabel : rowLabel b.pfx b.delimiter row = .group cp := label_eq_group_iff.mpr hcp
    rw [hlabel] at hroom hlabels
    cases hpos : b.commonPrefixPositions.lookup cp with
    | some position =>
      have hold := (h.lookup_isSome_iff cp).mp (by rw [hpos]; rfl)
      rw [if_pos hold] at hlabels
      refine ⟨{ b with
          entries := b.entries.modify position (ListingEntry.setContinuationKey row.key)
          lastConsumedKey := some row.key }, ?_, ⟨?_, fun cp' => ?_, hlast.symm⟩,
        ⟨rfl, rfl, rfl⟩, rfl⟩
      · rw [pushRow, hcp]
        simp only [hpos]
      · rw [hlabels, map_toLabel_modify, h.entries_eq]
      · rw [hlabels]
        exact h.lookup_isSome_iff cp'
    | none =>
      have hnew : Label.group cp ∉ labels (rowLabel b.pfx b.delimiter) seen := by
        rw [← h.lookup_isSome_iff cp, hpos]
        simp
      rw [if_neg hnew] at hlabels
      have hlen := hroom.resolve_left hnew
      refine ⟨{ b with
          entries := b.entries ++ [.commonPrefix cp row.key]
          commonPrefixPositions := (cp, b.entries.length) :: b.commonPrefixPositions
          lastConsumedKey := some row.key }, ?_, ⟨?_, fun cp' => ?_, hlast.symm⟩,
        ⟨rfl, rfl, rfl⟩, rfl⟩
      · rw [pushRow, hcp]
        simp only [hpos, if_neg hlen.not_ge]
      · rw [hlabels, map_append, h.entries_eq]
        rfl
      · rw [hlabels, mem_append, ← h.lookup_isSome_iff cp', lookup_cons]
        by_cases hcp' : cp' = cp
        · simp [hcp']
        · simp only [beq_eq_false_iff_ne.mpr hcp', mem_singleton, Label.group.injEq, hcp',
            or_false]

/-- **A push without room reports a full page** and consumes nothing. -/
theorem pushRow_full (h : b.Consumed seen)
    (hnew : rowLabel b.pfx b.delimiter row ∉ labels (rowLabel b.pfx b.delimiter) seen)
    (hfull : b.maxKeys ≤ (labels (rowLabel b.pfx b.delimiter) seen).length) :
    b.pushRow row = ({ b with isTruncated := true }, .pageComplete) := by
  rw [← h.length_entries] at hfull
  cases hcp : commonPrefixForKey row.key b.pfx b.delimiter with
  | none =>
    rw [pushRow, hcp]
    simp only [if_pos hfull]
  | some cp =>
    have hlabel : rowLabel b.pfx b.delimiter row = .group cp := label_eq_group_iff.mpr hcp
    have hpos : b.commonPrefixPositions.lookup cp = none := by
      rw [hlabel, ← h.lookup_isSome_iff cp] at hnew
      exact Option.not_isSome_iff_eq_none.mp hnew
    rw [pushRow, hcp]
    simp only [hpos, if_pos hfull]

/-! ## One batch -/

/-- **A batch is consumed as far as it fits.**  If all of it fits, the cursor moves to its last key;
if not, the page is complete. -/
theorem pushRows_spec {rows : List ListingObject} (cursor : Option Text) (h : b.Consumed seen)
    (hnodup : (seen ++ rows).Nodup) :
    ∃ b' cursor', b'.Consumed (pageSplit (rowLabel b.pfx b.delimiter) b.maxKeys seen rows).1 ∧
      SameRequest b b' ∧
      if (pageSplit (rowLabel b.pfx b.delimiter) b.maxKeys seen rows).2 = [] then
        b.pushRows cursor rows =
            (b', (rows.getLast?.map ListingObject.key).or cursor, .continue') ∧
          b'.isTruncated = b.isTruncated
      else b.pushRows cursor rows = (b', cursor', .pageComplete) ∧ b'.isTruncated = true := by
  induction rows generalizing b seen cursor with
  | nil => exact ⟨b, cursor, h, ⟨rfl, rfl, rfl⟩, rfl, rfl⟩
  | cons row rows ih =>
    have hrow : row ∉ seen := fun hmem =>
      disjoint_of_nodup_append hnodup hmem mem_cons_self
    rw [append_cons] at hnodup
    by_cases hroom : rowLabel b.pfx b.delimiter row ∈ labels (rowLabel b.pfx b.delimiter) seen ∨
        (labels (rowLabel b.pfx b.delimiter) seen).length < b.maxKeys
    · rw [pageSplit_cons_of_room _ hroom]
      obtain ⟨b₁, hpush, h₁, hreq₁, htrunc₁⟩ := pushRow_consumed h hrow hroom
      rw [← hreq₁.pfx_eq, ← hreq₁.delimiter_eq, ← hreq₁.maxKeys_eq]
      obtain ⟨b', cursor', h', hreq, hrows⟩ := ih (some row.key) h₁ hnodup
      refine ⟨b', cursor', h', hreq₁.trans hreq, ?_⟩
      rw [pushRows, hpush]
      split_ifs at hrows ⊢
      · refine ⟨?_, hrows.2.trans htrunc₁⟩
        simp only [hrows.1, getLast?_cons]
        cases rows.getLast? <;> rfl
      · exact hrows
    · rw [pageSplit_cons_of_full _ hroom]
      rw [not_or, not_lt] at hroom
      refine ⟨{ b with isTruncated := true }, cursor, ⟨h.1, h.2, h.3⟩, ⟨rfl, rfl, rfl⟩, ?_⟩
      rw [if_neg (cons_ne_nil row rows), pushRows, pushRow_full h hroom.1 hroom.2]
      exact ⟨rfl, rfl⟩

end ListingPageBuilder
end IpfS3.Listing
