import Mathlib

/-!
# Prefixes in the lexicographic order

Words over a linearly ordered alphabet are compared lexicographically, a proper prefix coming
before its extensions.  Two facts about this order are what makes a cursor over sorted words
resumable at a group of words sharing a prefix.

* `isPrefix_of_le_of_le`: the words that extend a fixed word form an interval.  Everything that lies
  between a word and one of its extensions is again an extension.
* `lt_of_lt_of_not_isPrefix`: a word below an extension of `p` that does not itself extend `p` is
  below `p`.

The second half of the file is the first occurrence of a word inside another one
(`firstOccurrence`), for words that may overlap themselves.  `firstOccurrence_of_take_isPrefix`
says that the position of the first occurrence only depends on the letters up to its end.
-/

namespace IpfS3.PrefixOrder

open List Option

variable {α : Type*}

/-! ## The interval of extensions -/

section Order

variable [LinearOrder α]

theorem cons_le_cons_iff {a b : α} {l m : List α} :
    a :: l ≤ b :: m ↔ a < b ∨ a = b ∧ l ≤ m := by
  rw [← not_lt, cons_lt_cons_iff, not_or, not_and, not_lt]
  constructor
  · rintro ⟨hab, h⟩
    rcases hab.lt_or_eq with hlt | rfl
    · exact Or.inl hlt
    · exact Or.inr ⟨rfl, not_lt.mp (h rfl)⟩
  · rintro (hlt | ⟨rfl, h⟩)
    · exact ⟨hlt.le, fun hba => absurd hlt (hba ▸ lt_irrefl _)⟩
    · exact ⟨le_rfl, fun _ => not_lt.mpr h⟩

theorem le_of_isPrefix {p x : List α} (h : p <+: x) : p ≤ x := by
  obtain ⟨t, rfl⟩ := h
  induction p with
  | nil => exact not_lt.mp (not_lt_nil t)
  | cons a p ih => exact cons_le_cons_iff.mpr (Or.inr ⟨rfl, ih⟩)

/-- **Extensions form an interval.**  A word between `p` and an extension of `p` extends `p`. -/
theorem isPrefix_of_le_of_le {p x k : List α} (hx : p <+: x) (hpk : p ≤ k) (hkx : k ≤ x) :
    p <+: k := by
  induction p generalizing x k with
  | nil => exact nil_prefix
  | cons a p ih =>
    obtain ⟨t, rfl⟩ := hx
    rcases k with _ | ⟨b, k⟩
    · exact absurd (nil_lt_cons a p) (not_lt.mpr hpk)
    · rw [cons_append] at hkx
      -- the first letters are squeezed, and then so are the tails
      rcases cons_le_cons_iff.mp hpk with hab | ⟨rfl, hpk'⟩
      · rcases cons_le_cons_iff.mp hkx with hba | ⟨rfl, -⟩
        · exact absurd (hab.trans hba) (lt_irrefl a)
        · exact absurd hab (lt_irrefl _)
      · rcases cons_le_cons_iff.mp hkx with hba | ⟨-, hkx'⟩
        · exact absurd hba (lt_irrefl _)
        · exact cons_prefix_cons.mpr ⟨rfl, ih (prefix_append p t) hpk' hkx'⟩

theorem isPrefix_of_between {p x y k : List α} (hx : p <+: x) (hy : p <+: y) (hxk : x ≤ k)
    (hky : k ≤ y) : p <+: k :=
  isPrefix_of_le_of_le hy ((le_of_isPrefix hx).trans hxk) hky

theorem lt_of_lt_of_not_isPrefix {p x k : List α} (hx : p <+: x) (hkx : k < x) (hk : ¬p <+: k) :
    k < p := by
  by_contra h
  exact hk (isPrefix_of_le_of_le hx (not_lt.mp h) hkx.le)

end Order

/-! ## The first occurrence of a word -/

section Occurrence

variable [DecidableEq α]

/-- The least position at which `d` starts inside the word, if there is one. -/
def firstOccurrence (d : List α) : List α → Option ℕ
  | [] => if d = [] then some 0 else none
  | a :: l => if d <+: a :: l then some 0 else (firstOccurrence d l).map (· + 1)

variable {i : ℕ}

theorem isPrefix_drop_of_firstOccurrence {d l : List α} (h : firstOccurrence d l = some i) :
    d <+: l.drop i := by
  induction l generalizing i with
  | nil =>
    rw [firstOccurrence] at h
    split_ifs at h with hd
    rw [hd]
    exact nil_prefix
  | cons a l ih =>
    rw [firstOccurrence] at h
    split_ifs at h with hd
    · rw [← some.inj h]
      exact hd
    · obtain ⟨j, hj, rfl⟩ := map_eq_some_iff.mp h
      exact ih hj

theorem not_isPrefix_drop_of_lt_firstOccurrence {d l : List α} {j : ℕ}
    (h : firstOccurrence d l = some i) (hj : j < i) : ¬d <+: l.drop j := by
  induction l generalizing i j with
  | nil =>
    rw [firstOccurrence] at h
    split_ifs at h
    rw [← some.inj h] at hj
    exact absurd hj (Nat.not_lt_zero j)
  | cons a l ih =>
    rw [firstOccurrence] at h
    split_ifs at h with hd
    · rw [← some.inj h] at hj
      exact absurd hj (Nat.not_lt_zero j)
    · obtain ⟨i', hi', rfl⟩ := map_eq_some_iff.mp h
      cases j with
      | zero => exact hd
      | succ j => exact ih hi' (Nat.lt_of_succ_lt_succ hj)

theorem firstOccurrence_eq_some {d l : List α} (hi : d <+: l.drop i)
    (hlt : ∀ j < i, ¬d <+: l.drop j) (hd : d ≠ []) : firstOccurrence d l = some i := by
  induction l generalizing i with
  | nil =>
    rw [drop_nil, prefix_nil] at hi
    exact absurd hi hd
  | cons a l ih =>
    rw [firstOccurrence]
    cases i with
    | zero => exact if_pos hi
    | succ i =>
      have h0 : ¬d <+: a :: l := hlt 0 (Nat.succ_pos i)
      rw [if_neg h0, ih hi fun j hj => hlt (j + 1) (Nat.succ_lt_succ hj)]
      rfl

theorem firstOccurrence_isSome_iff {d l : List α} (hd : d ≠ []) :
    (firstOccurrence d l).isSome ↔ d <:+: l := by
  induction l with
  | nil => simp [firstOccurrence, hd]
  | cons a l ih =>
    rw [firstOccurrence, infix_cons_iff, ← ih]
    split_ifs with h
    · simp [h]
    · simp [h]

theorem add_length_le_of_firstOccurrence {d l : List α} (hd : d ≠ [])
    (h : firstOccurrence d l = some i) : i + d.length ≤ l.length := by
  have hle := (isPrefix_drop_of_firstOccurrence h).length_le
  have hpos := length_pos_of_ne_nil hd
  rw [length_drop] at hle
  omega

/-- **The first occurrence is decided by the letters up to its end.**  A word that starts with
those letters has its first occurrence at the same position, also when `d` overlaps itself: an
earlier occurrence would end before that end. -/
theorem firstOccurrence_of_take_isPrefix {d l l' : List α} (hd : d ≠ [])
    (h : firstOccurrence d l = some i) (hl : l.take (i + d.length) <+: l') :
    firstOccurrence d l' = some i := by
  have hlen := add_length_le_of_firstOccurrence hd h
  obtain ⟨t, rfl⟩ := hl
  -- up to `i` both words drop to the same letters, as far as `d` reaches
  have hdrop : ∀ j ≤ i, ((l.take (i + d.length) ++ t).drop j).take d.length =
      (l.drop j).take d.length := by
    intro j hj
    rw [drop_append_of_le_length (by rw [length_take]; omega),
      take_append_of_le_length (by rw [length_drop, length_take]; omega),
      drop_take, take_take]
    congr 1
    omega
  have hiff : ∀ j ≤ i, (d <+: (l.take (i + d.length) ++ t).drop j ↔ d <+: l.drop j) := by
    intro j hj
    rw [prefix_iff_eq_take, prefix_iff_eq_take, hdrop j hj]
  refine firstOccurrence_eq_some ((hiff i le_rfl).mpr (isPrefix_drop_of_firstOccurrence h))
    (fun j hj hpre => ?_) hd
  exact not_isPrefix_drop_of_lt_firstOccurrence h hj ((hiff j hj.le).mp hpre)

end Occurrence

end IpfS3.PrefixOrder
