import IpfS3.Foundations.Keyset

/-!
# Merging sorted streams into a bounded map

A sorted map with room for `n` entries, which drops its greatest entry when it overflows, keeps the
`n` smallest keys of all that were inserted.  When the keys come from streams that are cut after
their own first `n` entries, it still keeps the `n` smallest keys of the whole streams
(`Smallest.insertAll_take`).
-/

namespace IpfS3.BoundedMerge

open Keyset List

variable {κ β : Type*} [LinearOrder κ]

/-- Insertion into a sorted map, which joins the values of equal keys. -/
def insertWith (f : β → β → β) (k : κ) (v : β) : List (κ × β) → List (κ × β)
  | [] => [(k, v)]
  | entry :: entries =>
    if k = entry.1 then (entry.1, f entry.2 v) :: entries
    else if k < entry.1 then (k, v) :: entry :: entries
    else entry :: insertWith f k v entries

/-- Insertion into a map with room for `n` entries. -/
def insertCapped (n : ℕ) (f : β → β → β) (k : κ) (v : β) (M : List (κ × β)) : List (κ × β) :=
  if n < (insertWith f k v M).length then (insertWith f k v M).dropLast else insertWith f k v M

section Insert

variable {f : β → β → β} {k : κ} {v : β} {M : List (κ × β)}

theorem mem_keys_insertWith {k' : κ} :
    k' ∈ (insertWith f k v M).map Prod.fst ↔ k' = k ∨ k' ∈ M.map Prod.fst := by
  induction M with
  | nil => simp [insertWith]
  | cons entry M ih =>
    rw [insertWith]
    split_ifs with heq hlt
    · simp only [map_cons, mem_cons, heq]
      tauto
    · simp only [map_cons, mem_cons]
    · simp only [map_cons, mem_cons, ih]
      tauto

theorem forall_insertCapped {V : β → Prop} {n : ℕ} (hf : ∀ a b, V a → V b → V (f a b)) (hv : V v)
    (hM : ∀ entry ∈ M, V entry.2) : ∀ entry ∈ insertCapped n f k v M, V entry.2 := by
  have hinsert : ∀ entry ∈ insertWith f k v M, V entry.2 := by
    induction M with
    | nil => simpa [insertWith] using hv
    | cons entry M ih =>
      obtain ⟨hentry, hM⟩ := forall_mem_cons.mp hM
      rw [insertWith]
      split_ifs with heq hlt
      · exact forall_mem_cons.mpr ⟨hf _ _ hentry hv, hM⟩
      · exact forall_mem_cons.mpr ⟨hv, forall_mem_cons.mpr ⟨hentry, hM⟩⟩
      · exact forall_mem_cons.mpr ⟨hentry, ih hM⟩
  intro entry hentry
  rw [insertCapped] at hentry
  split_ifs at hentry
  · exact hinsert entry (dropLast_subset _ hentry)
  · exact hinsert entry hentry

theorem ascending_insertWith (h : Ascending Prod.fst M) :
    Ascending Prod.fst (insertWith f k v M) := by
  induction M with
  | nil => exact pairwise_singleton _ _
  | cons entry M ih =>
    obtain ⟨hentry, hM⟩ := pairwise_cons.mp h
    rw [insertWith]
    split_ifs with heq hlt
    · exact pairwise_cons.mpr ⟨hentry, hM⟩
    · refine pairwise_cons.mpr ⟨fun e he => ?_, h⟩
      rcases mem_cons.mp he with rfl | he
      · exact hlt
      · exact hlt.trans (hentry e he)
    · refine pairwise_cons.mpr ⟨fun e he => ?_, ih hM⟩
      rcases mem_keys_insertWith.mp (mem_map_of_mem he) with hk | hk
      · exact hk ▸ lt_of_le_of_ne (not_lt.mp hlt) (Ne.symm heq)
      · obtain ⟨e', he', heq'⟩ := mem_map.mp hk
        exact heq' ▸ hentry e' he'

theorem length_insertWith_le : (insertWith f k v M).length ≤ M.length + 1 := by
  induction M with
  | nil => exact le_rfl
  | cons entry M ih =>
    rw [insertWith]
    split_ifs
    · exact Nat.le_succ _
    · exact le_rfl
    · exact Nat.succ_le_succ ih

theorem length_insertWith_of_notMem (h : k ∉ M.map Prod.fst) :
    (insertWith f k v M).length = M.length + 1 := by
  induction M with
  | nil => rfl
  | cons entry M ih =>
    rw [map_cons, mem_cons, not_or] at h
    rw [insertWith, if_neg h.1]
    split_ifs
    · rfl
    · rw [length_cons, length_cons, ih h.2]

theorem length_le_length_insertWith : M.length ≤ (insertWith f k v M).length := by
  induction M with
  | nil => exact Nat.zero_le _
  | cons entry M ih =>
    rw [insertWith]
    split_ifs
    · exact le_rfl
    · exact Nat.le_succ _
    · exact Nat.succ_le_succ ih

theorem lookup_eq_none_of_lt [BEq κ] [LawfulBEq κ] {entry : κ × β} (h : Ascending Prod.fst (entry :: M))
    (hlt : k < entry.1) : (entry :: M).lookup k = none := by
  rw [lookup_eq_none_iff]
  intro e he
  rw [bne_iff_ne]
  rcases mem_cons.mp he with rfl | he
  · exact hlt.ne
  · exact (hlt.trans ((pairwise_cons.mp h).1 e he)).ne

theorem mem_iff_lookup [BEq κ] [LawfulBEq κ] (h : Ascending Prod.fst M) :
    (k, v) ∈ M ↔ M.lookup k = some v := by
  induction M with
  | nil => simp
  | cons entry M ih =>
    obtain ⟨hentry, hM⟩ := pairwise_cons.mp h
    rw [mem_cons, lookup_cons]
    rcases eq_or_ne k entry.1 with rfl | hne
    · rw [beq_self_eq_true]
      constructor
      · rintro (heq | hmem)
        · rw [← heq]
        · exact absurd (hentry _ hmem) (lt_irrefl _)
      · intro hv
        rw [← Option.some.inj hv]
        exact Or.inl rfl
    · rw [beq_false_of_ne hne]
      constructor
      · rintro (rfl | hmem)
        · exact absurd rfl hne
        · exact (ih hM).mp hmem
      · exact fun hlookup => Or.inr ((ih hM).mpr hlookup)

theorem lookup_insertWith_self [BEq κ] [LawfulBEq κ] (h : Ascending Prod.fst M) :
    (insertWith f k v M).lookup k = some ((M.lookup k).elim v fun old => f old v) := by
  induction M with
  | nil => rw [insertWith, lookup_cons_self, lookup_nil, Option.elim_none]
  | cons entry M ih =>
    rw [insertWith]
    split_ifs with heq hlt
    · rw [heq, lookup_cons_self, lookup_cons_self, Option.elim_some]
    · rw [lookup_cons_self, lookup_eq_none_of_lt h hlt, Option.elim_none]
    · rw [lookup_cons, lookup_cons, beq_false_of_ne heq]
      exact ih (pairwise_cons.mp h).2

theorem lookup_insertWith_of_ne [BEq κ] [LawfulBEq κ] {k' : κ} (hne : k' ≠ k) :
    (insertWith f k v M).lookup k' = M.lookup k' := by
  induction M with
  | nil => rw [insertWith, lookup_cons, beq_false_of_ne hne]
  | cons entry M ih =>
    rw [insertWith]
    split_ifs with heq hlt
    · rw [lookup_cons, lookup_cons, beq_false_of_ne (heq ▸ hne)]
    · rw [lookup_cons, beq_false_of_ne hne]
    · rw [lookup_cons, lookup_cons, ih]

end Insert

/-- The map holds the `n` smallest keys of `A`. -/
structure Smallest (n : ℕ) (M : List (κ × β)) (A : κ → Prop) : Prop where
  ascending : Ascending Prod.fst M
  length_le : M.length ≤ n
  of_mem : ∀ k ∈ M.map Prod.fst, A k
  least : ∀ k, A k → k ∈ M.map Prod.fst ∨ M.length = n ∧ ∀ k' ∈ M.map Prod.fst, k' < k

namespace Smallest

variable {n : ℕ} {M : List (κ × β)} {A B : κ → Prop} {f : β → β → β} {k : κ} {v : β}

theorem empty : Smallest n ([] : List (κ × β)) fun _ => False where
  ascending := List.Pairwise.nil
  length_le := Nat.zero_le n
  of_mem := fun _ hk => absurd hk not_mem_nil
  least := fun _ hk => hk.elim

section

variable (h : Smallest n M A)

include h

theorem congr (hAB : ∀ k, A k ↔ B k) : Smallest n M B :=
  ⟨h.ascending, h.length_le, fun k hk => (hAB k).mp (h.of_mem k hk),
    fun k hk => h.least k ((hAB k).mpr hk)⟩

theorem insertCapped :
    Smallest n (insertCapped n f k v M) fun x => A x ∨ x = k := by
  rw [BoundedMerge.insertCapped]
  have hasc := ascending_insertWith (f := f) (k := k) (v := v) h.ascending
  have hlen : (insertWith f k v M).length ≤ M.length + 1 := length_insertWith_le
  have hge : M.length ≤ (insertWith f k v M).length := length_le_length_insertWith
  have hnew : k ∉ M.map Prod.fst → (insertWith f k v M).length = M.length + 1 :=
    length_insertWith_of_notMem
  have hle := h.length_le
  split_ifs with hover
  · -- the map overflows and its greatest entry is dropped
    obtain ⟨front, last, hfront⟩ : ∃ front last, insertWith f k v M = front ++ [last] :=
      ⟨_, _, (dropLast_concat_getLast (ne_nil_of_length_pos
        (Nat.zero_lt_of_lt hover))).symm⟩
    have hkeys : ∀ x, x ∈ front.map Prod.fst ∨ x = last.1 ↔ x = k ∨ x ∈ M.map Prod.fst := by
      intro x
      rw [← mem_keys_insertWith (f := f) (v := v), hfront]
      simp only [map_append, map_cons, map_nil, mem_append,
        mem_singleton]
    rw [hfront, length_append, length_singleton] at hlen hover
    rw [hfront] at hasc ⊢
    rw [dropLast_concat]
    obtain ⟨hfrontAsc, -, hlast⟩ := pairwise_append.mp hasc
    have hbelow : ∀ x ∈ front.map Prod.fst, x < last.1 := by
      intro x hx
      obtain ⟨e, he, rfl⟩ := mem_map.mp hx
      exact hlast e he last (mem_singleton_self last)
    have hn : front.length = n := by omega
    refine ⟨hfrontAsc, hn.le, fun x hx => ?_, fun x hx => ?_⟩
    · rcases (hkeys x).mp (Or.inl hx) with rfl | hx
      · exact Or.inr rfl
      · exact Or.inl (h.of_mem x hx)
    · have hin : x ∈ front.map Prod.fst ∨ x = last.1 →
          x ∈ front.map Prod.fst ∨ front.length = n ∧ ∀ k' ∈ front.map Prod.fst, k' < x := by
        rintro (hx | rfl)
        · exact Or.inl hx
        · exact Or.inr ⟨hn, hbelow⟩
      rcases hx with hx | rfl
      · rcases h.least x hx with hx | ⟨-, hall⟩
        · exact hin ((hkeys x).mpr (Or.inr hx))
        · refine Or.inr ⟨hn, fun e he => ?_⟩
          rcases (hkeys e).mp (Or.inl he) with rfl | heM
          · -- the new key is below the dropped one, which was in the map
            rcases (hkeys last.1).mp (Or.inr rfl) with heq | hlastM
            · exact absurd (hbelow e he) (heq ▸ lt_irrefl _)
            · exact (hbelow e he).trans (hall last.1 hlastM)
          · exact hall e heM
      · exact hin ((hkeys x).mpr (Or.inl rfl))
  · refine ⟨hasc, not_lt.mp hover, fun x hx => ?_, fun x hx => ?_⟩
    · rcases mem_keys_insertWith.mp hx with rfl | hx
      · exact Or.inr rfl
      · exact Or.inl (h.of_mem x hx)
    · rcases hx with hx | rfl
      · rcases h.least x hx with hx | ⟨hn, hall⟩
        · exact Or.inl (mem_keys_insertWith.mpr (Or.inr hx))
        · -- a full map that does not overflow already had the key
          have hold : k ∈ M.map Prod.fst := by
            by_contra hk
            have := hnew hk
            omega
          refine Or.inr ⟨by omega, fun e he => ?_⟩
          rcases mem_keys_insertWith.mp he with rfl | he
          · exact hall e hold
          · exact hall e he
      · exact Or.inl (mem_keys_insertWith.mpr (Or.inl rfl))

theorem insertAll (ids : List κ) :
    Smallest n (ids.foldl (fun M k => BoundedMerge.insertCapped n f k v M) M)
      fun x => A x ∨ x ∈ ids := by
  induction ids generalizing M A with
  | nil => exact h.congr fun x => by simp
  | cons k ids ih =>
    refine (ih (h.insertCapped (f := f) (k := k) (v := v))).congr fun x => ?_
    rw [mem_cons, or_assoc]

theorem absorb {L : List κ} (hL : L.Pairwise (· < ·)) (htake : ∀ x ∈ L.take n, A x) :
    ∀ x ∈ L, x ∈ M.map Prod.fst ∨
      M.length = n ∧ ∀ k' ∈ M.map Prod.fst, k' < x := by
  intro x hx
  by_cases hxt : x ∈ L.take n
  · exact h.least x (htake x hxt)
  · have hsplit : x ∈ L.drop n := by
      rw [← take_append_drop n L, mem_append] at hx
      exact hx.resolve_left hxt
    have hlt : ∀ y ∈ L.take n, y < x := by
      intro y hy
      rw [← take_append_drop n L] at hL
      exact (pairwise_append.mp hL).2.2 y hy x hsplit
    have hlen : (L.take n).length = n := by
      rw [length_take, Nat.min_eq_left]
      have := length_pos_of_mem hsplit
      rw [length_drop] at this
      omega
    right
    by_contra hnot
    have hsub : L.take n ⊆ M.map Prod.fst := by
      intro y hy
      refine (h.least y (htake y hy)).resolve_right fun hall => hnot ⟨hall.1, fun e he => ?_⟩
      exact (hall.2 e he).trans (hlt y hy)
    have hnodup : (L.take n).Nodup := (hL.imp ne_of_lt).sublist (take_sublist n L)
    have hsubperm := hnodup.subperm hsub
    have hMlen : (M.map Prod.fst).length ≤ (L.take n).length := by
      rw [length_map, hlen]
      exact h.length_le
    have hperm := hsubperm.perm_of_length_le hMlen
    refine hnot ⟨?_, fun e he => hlt e (hperm.mem_iff.mpr he)⟩
    rw [← length_map (f := Prod.fst), ← hperm.length_eq, hlen]

/-- **Inserting the first `n` keys of a sorted stream** keeps the smallest keys of all of it. -/
theorem insertAll_take {L : List κ} (hL : L.Pairwise (· < ·)) :
    Smallest n ((L.take n).foldl (fun M k => BoundedMerge.insertCapped n f k v M) M)
      fun x => A x ∨ x ∈ L := by
  have hall := h.insertAll (f := f) (v := v) (L.take n)
  refine ⟨hall.ascending, hall.length_le, fun k hk => ?_, fun k hk => ?_⟩
  · exact (hall.of_mem k hk).imp_right mem_of_mem_take
  · rcases hk with hk | hk
    · exact hall.least k (Or.inl hk)
    · exact hall.absorb hL (fun x hx => Or.inr hx) k hk

end

end Smallest

end IpfS3.BoundedMerge
