import Mathlib

/-!
# Names by position

Two ways to name the entries of a list.

* A map from keys to positions in which the later position wins (`put`): it holds exactly the last
  position of every key (`LastIndices`).
* A search among candidates for a name that is not in use: with more candidates than names in use, it
  finds one (`exists_find?_unused`).
-/

namespace IpfS3.Naming

open List

variable {α κ : Type*}

/-! ## The last position of a key -/

theorem getElem?_concat_eq_some_iff {l : List α} {a b : α} {i : ℕ} :
    (l ++ [a])[i]? = some b ↔ l[i]? = some b ∨ i = l.length ∧ b = a := by
  rcases lt_trichotomy i l.length with hlt | rfl | hgt
  · rw [getElem?_append_left hlt]
    exact ⟨Or.inl, fun h => h.elim id fun h => absurd h.1 (by omega)⟩
  · rw [getElem?_concat_length, getElem?_eq_none le_rfl]
    simp [eq_comm]
  · have hlast : (l ++ [a]).length ≤ i := by
      rw [length_append, length_singleton]
      omega
    rw [getElem?_eq_none hlast, getElem?_eq_none (by omega)]
    simp
    omega

variable {key : α → κ} {l : List α} {k : κ} {i : ℕ}

/-- The last position of a key in a list. -/
structure IsLast (key : α → κ) (l : List α) (k : κ) (i : ℕ) : Prop where
  here : ∃ a, l[i]? = some a ∧ key a = k
  later : ∀ j a, i < j → l[j]? = some a → key a ≠ k

theorem isLast_concat_iff {a : α} : IsLast key (l ++ [a]) k i ↔
    (IsLast key l k i ∧ k ≠ key a) ∨ (k = key a ∧ i = l.length) := by
  constructor
  · rintro ⟨⟨b, hb, rfl⟩, hlater⟩
    rcases getElem?_concat_eq_some_iff.mp hb with hb | ⟨rfl, rfl⟩
    · have hi : i < l.length := (List.getElem?_eq_some_iff.mp hb).1
      refine Or.inl ⟨⟨⟨b, hb, rfl⟩, fun j c hj hc => hlater j c hj ?_⟩, fun heq => ?_⟩
      · exact getElem?_concat_eq_some_iff.mpr (Or.inl hc)
      · exact hlater l.length a hi getElem?_concat_length heq.symm
    · exact Or.inr ⟨rfl, rfl⟩
  · rintro (⟨⟨⟨b, hb, rfl⟩, hlater⟩, hne⟩ | ⟨rfl, rfl⟩)
    · refine ⟨⟨b, getElem?_concat_eq_some_iff.mpr (Or.inl hb), rfl⟩, fun j c hj hc => ?_⟩
      rcases getElem?_concat_eq_some_iff.mp hc with hc | ⟨-, rfl⟩
      · exact hlater j c hj hc
      · exact hne.symm
    · refine ⟨⟨a, getElem?_concat_length, rfl⟩, fun j c hj hc => ?_⟩
      rcases getElem?_concat_eq_some_iff.mp hc with hc | ⟨rfl, -⟩
      · have hlt := (List.getElem?_eq_some_iff.mp hc).1
        omega
      · exact absurd hj (lt_irrefl _)

theorem exists_isLast (key : α → κ) {a : α} (ha : a ∈ l) : ∃ i, IsLast key l (key a) i := by
  induction l using reverseRecOn with
  | nil => cases ha
  | append_singleton l b ih =>
    by_cases hkey : key a = key b
    · exact ⟨l.length, isLast_concat_iff.mpr (Or.inr ⟨hkey, rfl⟩)⟩
    · have hmem : a ∈ l := by
        rcases mem_append.mp ha with hl | hb
        · exact hl
        · exact absurd (congrArg key (mem_singleton.mp hb)) hkey
      obtain ⟨i, hi⟩ := ih hmem
      exact ⟨i, isLast_concat_iff.mpr (Or.inl ⟨hi, hkey⟩)⟩

/-- The map from the keys of a list to their last positions. -/
structure LastIndices (key : α → κ) (l : List α) (positions : List (κ × ℕ)) : Prop where
  nodup : (positions.map Prod.fst).Nodup
  mem_iff : ∀ k i, (k, i) ∈ positions ↔ IsLast key l k i

theorem lastIndices_nil : LastIndices key [] [] :=
  ⟨nodup_nil, fun _ _ => ⟨fun h => absurd h not_mem_nil, fun h => by simpa using h.here⟩⟩

variable {positions : List (κ × ℕ)}

theorem LastIndices.indices_ne (h : LastIndices key l positions) :
    positions.Pairwise fun e e' => e.2 ≠ e'.2 := by
  have hkeys : positions.Pairwise fun e e' => e.1 ≠ e'.1 := pairwise_map.mp h.nodup
  refine hkeys.imp_of_mem fun {e e'} he he' hne heq => hne ?_
  obtain ⟨⟨a, ha, hka⟩, -⟩ := (h.mem_iff e.1 e.2).mp he
  obtain ⟨⟨b, hb, hkb⟩, -⟩ := (h.mem_iff e'.1 e'.2).mp he'
  rw [heq, hb] at ha
  rw [← hka, ← hkb, Option.some.inj ha]

variable [BEq κ] [LawfulBEq κ]

/-- A key gets a position, instead of the one that it had. -/
def put (positions : List (κ × ℕ)) (k : κ) (i : ℕ) : List (κ × ℕ) :=
  positions.filter (fun entry => entry.1 != k) ++ [(k, i)]

/-- **One more entry**: its key is at the last position. -/
theorem LastIndices.put (h : LastIndices key l positions) (a : α) :
    LastIndices key (l ++ [a]) (put positions (key a) l.length) where
  nodup := by
    rw [Naming.put, map_append, nodup_append]
    refine ⟨h.nodup.sublist (filter_sublist.map _), nodup_singleton _, ?_⟩
    rintro k hk k' hk' rfl
    obtain ⟨entry, hentry, rfl⟩ := mem_map.mp hk
    have hne := (mem_filter.mp hentry).2
    rw [map_singleton, mem_singleton] at hk'
    exact absurd hk' (by simpa using hne)
  mem_iff := by
    intro k i
    rw [Naming.put, mem_append, mem_filter, mem_singleton, h.mem_iff, Prod.mk.injEq,
      bne_iff_ne, isLast_concat_iff]

/-! ## Names that are not in use -/

/-- **More candidates than names in use**: one of the candidates is not in use. -/
theorem exists_find?_unused {candidates used : List κ} (hnodup : candidates.Nodup)
    (hlength : used.length < candidates.length) :
    ∃ name, candidates.find? (fun name => !used.contains name) = some name ∧ name ∉ used := by
  cases hfind : candidates.find? fun name => !used.contains name with
  | some name =>
    refine ⟨name, rfl, ?_⟩
    simpa using find?_some hfind
  | none =>
    have hsubset : candidates ⊆ used := fun name hname => by
      simpa using find?_eq_none.mp hfind name hname
    exact absurd (hnodup.length_le_of_subset hsubset) (by omega)

end IpfS3.Naming
