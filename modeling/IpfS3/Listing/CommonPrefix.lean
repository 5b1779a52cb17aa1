import IpfS3.Text
import IpfS3.Foundations.GroupedPages
import IpfS3.Foundations.Keyset

/-!
# Common prefixes of a listing

`common_prefix_for_key` of `s3/ops/object.rs`, which `s3/ops/versioning.rs` repeats word for word.
A key below the requested prefix is folded into the text up to the end of the first delimiter
after that prefix; every other key stands for itself.

The listing code relies on one fact about this folding: keys with one common prefix are contiguous
in byte order, so a group of them is never interrupted (`contiguous_label`).  The delimiter may be
longer than a byte and may overlap itself.
-/

namespace IpfS3.Listing

open PrefixOrder GroupedPages List Option

def commonPrefixForKey (key pfx : Text) (delimiter : Option Text) : Option Text := do
  let delimiter ← delimiter.filter fun value => !value.isEmpty
  let rest ← Text.stripPrefix key pfx
  let index ← Text.find rest delimiter
  some (pfx ++ rest.take (index + delimiter.length))

section Fold

variable {key key' pfx cp : Text} {delimiter : Option Text}

theorem commonPrefixForKey_eq_some_iff :
    commonPrefixForKey key pfx delimiter = some cp ↔
      ∃ d rest index, delimiter = some d ∧ d ≠ [] ∧ key = pfx ++ rest ∧
        firstOccurrence d rest = some index ∧ cp = pfx ++ rest.take (index + d.length) := by
  constructor
  · intro h
    obtain ⟨d, hd, h⟩ := bind_eq_some_iff.mp h
    obtain ⟨rest, hrest, h⟩ := bind_eq_some_iff.mp h
    obtain ⟨index, hindex, h⟩ := bind_eq_some_iff.mp h
    rw [filter_eq_some_iff] at hd
    exact ⟨d, rest, index, hd.1, by simpa using hd.2, Text.stripPrefix_eq_some_iff.mp hrest, hindex,
      (some.inj h).symm⟩
  · rintro ⟨d, rest, index, rfl, hd, hkey, hindex, rfl⟩
    have hfilter : (some d).filter (fun value => !value.isEmpty) = some d :=
      filter_eq_some_iff.mpr ⟨rfl, by simpa using hd⟩
    refine bind_eq_some_iff.mpr ⟨d, hfilter, ?_⟩
    refine bind_eq_some_iff.mpr ⟨rest, Text.stripPrefix_eq_some_iff.mpr hkey, ?_⟩
    exact bind_eq_some_iff.mpr ⟨index, hindex, rfl⟩

section

variable (h : commonPrefixForKey key pfx delimiter = some cp)

include h

theorem commonPrefix_isPrefix : cp <+: key := by
  obtain ⟨d, rest, index, -, -, rfl, -, rfl⟩ := commonPrefixForKey_eq_some_iff.mp h
  exact (prefix_append_right_inj pfx).mpr (List.take_prefix _ _)

/-- **Every key below a common prefix folds into it.** -/
theorem commonPrefixForKey_of_isPrefix (hcp : cp <+: key') :
    commonPrefixForKey key' pfx delimiter = some cp := by
  obtain ⟨d, rest, index, hdel, hd, hkey, hindex, rfl⟩ := commonPrefixForKey_eq_some_iff.mp h
  obtain ⟨t, rfl⟩ := hcp
  have hlen := add_length_le_of_firstOccurrence hd hindex
  refine commonPrefixForKey_eq_some_iff.mpr
    ⟨d, rest.take (index + d.length) ++ t, index, hdel, hd, append_assoc _ _ _, ?_, ?_⟩
  · exact firstOccurrence_of_take_isPrefix hd hindex (prefix_append _ _)
  · rw [take_append_of_le_length (by rw [length_take]; omega), take_take,
      Nat.min_self]

end

theorem commonPrefixForKey_isSome_iff :
    (commonPrefixForKey key pfx delimiter).isSome ↔
      ∃ d, delimiter = some d ∧ d ≠ [] ∧ ∃ rest, key = pfx ++ rest ∧ d <:+: rest := by
  rw [isSome_iff_exists]
  constructor
  · rintro ⟨cp, h⟩
    obtain ⟨d, rest, index, hdel, hd, hkey, hindex, -⟩ := commonPrefixForKey_eq_some_iff.mp h
    refine ⟨d, hdel, hd, rest, hkey, (firstOccurrence_isSome_iff hd).mp ?_⟩
    rw [hindex]
    rfl
  · rintro ⟨d, hdel, hd, rest, hkey, hocc⟩
    obtain ⟨index, hindex⟩ := isSome_iff_exists.mp ((firstOccurrence_isSome_iff hd).mpr hocc)
    exact ⟨_, commonPrefixForKey_eq_some_iff.mpr ⟨d, rest, index, hdel, hd, hkey, hindex, rfl⟩⟩

end Fold

/-! ## What a row stands for -/

/-- A row is listed on its own or inside a common prefix. -/
inductive Label (ρ : Type*) where
  | own (row : ρ)
  | group (cp : Text)
  deriving DecidableEq

variable {ρ : Type*} (keyOf : ρ → Text) (pfx : Text) (delimiter : Option Text)

def label (row : ρ) : Label ρ :=
  match commonPrefixForKey (keyOf row) pfx delimiter with
  | some cp => .group cp
  | none => .own row

def Label.name : Label ρ → Text
  | .own row => keyOf row
  | .group cp => cp

variable {keyOf pfx delimiter}

theorem label_eq_group_iff {row : ρ} {cp : Text} :
    label keyOf pfx delimiter row = .group cp ↔
      commonPrefixForKey (keyOf row) pfx delimiter = some cp := by
  rw [label]
  cases commonPrefixForKey (keyOf row) pfx delimiter <;> simp

theorem label_eq_own_iff {row row' : ρ} :
    label keyOf pfx delimiter row = .own row' ↔
      commonPrefixForKey (keyOf row) pfx delimiter = none ∧ row = row' := by
  rw [label]
  cases commonPrefixForKey (keyOf row) pfx delimiter <;> simp

theorem name_label_isPrefix (row : ρ) :
    (label keyOf pfx delimiter row).name keyOf <+: keyOf row := by
  rw [label]
  cases h : commonPrefixForKey (keyOf row) pfx delimiter with
  | none => exact prefix_rfl
  | some cp => exact commonPrefix_isPrefix h

/-- **Labels appear in the order of their keys.**  Of two rows in key order that are listed
differently, the first is listed under the smaller text. -/
theorem name_label_lt {a b : ρ} (hab : keyOf a < keyOf b)
    (hne : label keyOf pfx delimiter a ≠ label keyOf pfx delimiter b) :
    (label keyOf pfx delimiter a).name keyOf < (label keyOf pfx delimiter b).name keyOf := by
  have ha : (label keyOf pfx delimiter a).name keyOf ≤ keyOf a :=
    le_of_isPrefix (name_label_isPrefix a)
  cases hb : label keyOf pfx delimiter b with
  | own row =>
    obtain ⟨-, rfl⟩ := label_eq_own_iff.mp hb
    exact ha.trans_lt hab
  | group cp =>
    have hcp := label_eq_group_iff.mp hb
    refine ha.trans_lt (lt_of_lt_of_not_isPrefix (commonPrefix_isPrefix hcp) hab fun hpre => hne ?_)
    rw [hb, label_eq_group_iff]
    exact commonPrefixForKey_of_isPrefix hcp hpre

/-- **Keys with one common prefix are contiguous.** -/
theorem contiguous_label [DecidableEq ρ] {L : List ρ}
    (hsorted : L.Pairwise fun a b => keyOf a ≤ keyOf b) (hnodup : L.Nodup) :
    Contiguous (label keyOf pfx delimiter) L := by
  refine contiguous_of_between _ fun a r x hsub hax => ?_
  have hle := hsorted.sublist hsub
  have hne := hnodup.sublist hsub
  simp only [pairwise_cons, mem_cons, not_mem_nil, or_false, forall_eq_or_imp,
    forall_eq, nodup_cons, not_or] at hle hne
  cases hx : label keyOf pfx delimiter x with
  | own row =>
    -- a row listed on its own shares its label with no other row
    rw [hx] at hax
    exact absurd ((label_eq_own_iff.mp hax).2.trans (label_eq_own_iff.mp hx).2.symm) hne.1.2
  | group cp =>
    rw [hx] at hax
    have hcpa := label_eq_group_iff.mp hax
    rw [hax, label_eq_group_iff]
    exact commonPrefixForKey_of_isPrefix hcpa (isPrefix_of_between (commonPrefix_isPrefix hcpa)
      (commonPrefix_isPrefix (label_eq_group_iff.mp hx)) hle.1.1 hle.2.1)

theorem commonPrefixForKey_getLast_iff [DecidableEq ρ] {seen : List ρ} {row : ρ} {cp : Text}
    (hsorted : (seen ++ [row]).Pairwise fun a b => keyOf a ≤ keyOf b)
    (hcp : commonPrefixForKey (keyOf row) pfx delimiter = some cp) :
    (seen.getLast?.bind fun r => commonPrefixForKey (keyOf r) pfx delimiter) = some cp ↔
      Label.group cp ∈ labels (label keyOf pfx delimiter) seen := by
  rw [mem_labels]
  constructor
  · intro h
    obtain ⟨r, hr, hrcp⟩ := bind_eq_some_iff.mp h
    exact ⟨r, mem_of_getLast? hr, label_eq_group_iff.mpr hrcp⟩
  · rintro ⟨a, ha, hlabel⟩
    have hacp := label_eq_group_iff.mp hlabel
    have hne : seen ≠ [] := ne_nil_of_mem ha
    obtain ⟨S, s, rfl⟩ : ∃ S s, seen = S ++ [s] := ⟨_, _, (dropLast_append_getLast hne).symm⟩
    rw [getLast?_concat, bind_some]
    rcases mem_append.mp ha with haS | has
    · rw [append_assoc, pairwise_append] at hsorted
      have has := hsorted.2.2 a haS s (by simp)
      have hsrow : keyOf s ≤ keyOf row := by
        have htail := hsorted.2.1
        rw [singleton_append, pairwise_cons] at htail
        exact htail.1 row (by simp)
      exact commonPrefixForKey_of_isPrefix hacp (isPrefix_of_between (commonPrefix_isPrefix hacp)
        (commonPrefix_isPrefix hcp) has hsrow)
    · obtain rfl := mem_singleton.mp has
      exact hacp

end IpfS3.Listing
