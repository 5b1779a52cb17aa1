import Mathlib

/-!
# Keyset pagination

Rows sorted strictly by a key are read in batches: the rows after a key, at most `n` of them, and
then the rows after the last key that was read.  `after` is the set of rows still to be read, and
`after_of_take_eq_concat` says that one batch moves it exactly past that batch.

A table is not sorted; a query sorts what its filter keeps (`sortBy`).  When the keys are distinct,
filtering commutes with sorting (`sortBy_filter`), so every batch is a batch of one fixed list.
-/

namespace IpfS3.Keyset

open List

variable {ρ κ : Type*} [LinearOrder κ] (key : ρ → κ)

/-- Rows in strictly ascending key order. -/
def Ascending (L : List ρ) : Prop := L.Pairwise fun a b => key a < key b

/-- Rows in key order, as a query with an ascending order clause returns them. -/
def sortBy (L : List ρ) : List ρ := L.insertionSort fun a b => key a ≤ key b

theorem sortBy_perm (L : List ρ) : (sortBy key L).Perm L := perm_insertionSort _ L

variable {L : List ρ} {r : ρ} {c : Option κ}

@[simp] theorem mem_sortBy : r ∈ sortBy key L ↔ r ∈ L :=
  (sortBy_perm key L).mem_iff

theorem pairwise_sortBy (L : List ρ) : (sortBy key L).Pairwise fun a b => key a ≤ key b :=
  haveI : Std.Total (α := ρ) (fun a b => key a ≤ key b) := ⟨fun a b => le_total (key a) (key b)⟩
  haveI : IsTrans ρ (fun a b => key a ≤ key b) := ⟨fun _ _ _ => le_trans⟩
  pairwise_insertionSort _ L

theorem head?_sortBy_eq_some {a : ρ} (h : (sortBy key L).head? = some a) :
    a ∈ L ∧ ∀ b ∈ L, key a ≤ key b := by
  obtain ⟨rest, hsorted⟩ := head?_eq_some_iff.mp h
  have hmem : ∀ b, b ∈ L ↔ b ∈ a :: rest := fun b => by rw [← hsorted, mem_sortBy]
  have hle := pairwise_sortBy key L
  rw [hsorted, pairwise_cons] at hle
  refine ⟨(hmem a).mpr mem_cons_self, fun b hb => ?_⟩
  rcases mem_cons.mp ((hmem b).mp hb) with rfl | hb
  · exact le_rfl
  · exact hle.1 b hb

theorem head?_sortBy_eq_none_iff : (sortBy key L).head? = none ↔ L = [] := by
  rw [head?_eq_none_iff]
  exact ⟨fun h => ((sortBy_perm key L).symm.trans (h ▸ List.Perm.refl _)).eq_nil,
    fun h => by rw [h]; rfl⟩

theorem ascending_sortBy (h : L.Pairwise fun a b => key a ≠ key b) :
    Ascending key (sortBy key L) := by
  have hle := pairwise_sortBy key L
  have hne : (sortBy key L).Pairwise fun a b => key a ≠ key b :=
    ((sortBy_perm key L).pairwise_iff fun hab => Ne.symm hab).mpr h
  exact hle.imp₂ (fun _ _ hab hne => lt_of_le_of_ne hab hne) hne

theorem Ascending.eq_of_perm {L' : List ρ} (h : Ascending key L) (h' : Ascending key L')
    (hp : L.Perm L') : L = L' :=
  haveI : Std.Antisymm (α := ρ) (fun a b => key a < key b) :=
    ⟨fun _ _ hab hba => absurd (hab.trans hba) (lt_irrefl _)⟩
  hp.eq_of_pairwise' h h'

theorem sortBy_of_pairwise (h : L.Pairwise fun a b => key a ≤ key b) :
    sortBy key L = L :=
  h.insertionSort_eq

theorem sortBy_eq_of_perm (hkey : Function.Injective key) {L' : List ρ} (hp : L.Perm L') :
    sortBy key L = sortBy key L' := by
  have hperm : (sortBy key L).Perm (sortBy key L') :=
    (sortBy_perm key L).trans (hp.trans (sortBy_perm key L').symm)
  refine hperm.eq_of_pairwise (fun a b _ _ hab hba => ?_) (pairwise_sortBy key L)
    (pairwise_sortBy key L')
  exact hkey (le_antisymm hab hba)

/-- **Filtering before or after sorting is the same.** -/
theorem sortBy_filter (h : L.Pairwise fun a b => key a ≠ key b) (p : ρ → Bool) :
    sortBy key (L.filter p) = (sortBy key L).filter p :=
  (ascending_sortBy key (h.filter p)).eq_of_perm key ((ascending_sortBy key h).filter p)
    ((sortBy_perm key _).trans ((sortBy_perm key L).filter p).symm)

/-- The rows strictly after a key; without a key, all rows. -/
def after (c : Option κ) (L : List ρ) : List ρ :=
  L.filter fun r => c.all fun k => decide (k < key r)

@[simp] theorem after_none (L : List ρ) : after key none L = L := by
  simp [after]

theorem sortBy_after (h : L.Pairwise fun a b => key a ≠ key b) (c : Option κ) :
    sortBy key (after key c L) = after key c (sortBy key L) :=
  sortBy_filter key h _

theorem forall₂_after {ρ' : Type*} (key' : ρ' → κ) {R : ρ → ρ' → Prop} {L' : List ρ'}
    (h : List.Forall₂ R L L') (hkey : ∀ a b, R a b → key' b = key a) (c : Option κ) :
    List.Forall₂ R (after key c L) (after key' c L') := by
  refine rel_filter (fun a b hab => ?_) h
  dsimp only
  rw [hkey a b hab]

theorem mem_after :
    r ∈ after key c L ↔ r ∈ L ∧ ∀ k, c = some k → k < key r := by
  cases c <;> simp [after]

theorem mem_after_some {c : κ} :
    r ∈ after key (some c) L ↔ r ∈ L ∧ c < key r := by
  simp [after]

theorem mem_of_mem_after (h : r ∈ after key c L) : r ∈ L :=
  mem_of_mem_filter h

theorem Ascending.after (h : Ascending key L) (c : Option κ) :
    Ascending key (after key c L) :=
  List.Pairwise.filter _ h

theorem Ascending.nodup (h : Ascending key L) : L.Nodup :=
  List.Pairwise.imp (fun hab => fun heq => absurd (heq ▸ hab) (lt_irrefl _)) h

theorem Ascending.eq_of_key_eq (h : Ascending key L) {a b : ρ} (ha : a ∈ L) (hb : b ∈ L)
    (hab : key a = key b) : a = b := by
  by_contra hne
  have hsym : Std.Symm fun a b : ρ => key a ≠ key b := ⟨fun _ _ hne => hne.symm⟩
  have hkeys : L.Pairwise fun a b => key a ≠ key b := List.Pairwise.imp ne_of_lt h
  exact hkeys.forall ha hb hne hab

theorem after_append_cons {A B : List ρ} (h : Ascending key (A ++ r :: B)) :
    after key (some (key r)) (A ++ r :: B) = B := by
  rw [Ascending, pairwise_append, pairwise_cons] at h
  obtain ⟨-, ⟨hB, -⟩, hA⟩ := h
  rw [after, filter_append, filter_cons, filter_eq_nil_iff.mpr,
    filter_eq_self.mpr]
  · simp
  · intro b hb
    simpa using hB b hb
  · intro a ha
    simpa using (hA a ha r (mem_cons_self ..)).le

theorem after_after {k : κ} (h : c.all fun x => decide (x < k)) :
    after key (some k) (after key c L) = after key (some k) L := by
  rw [after, after, filter_filter, after]
  refine filter_congr fun r _ => ?_
  cases c with
  | none => simp
  | some x =>
    simp only [Option.all_some, decide_eq_true_eq] at h
    by_cases hk : k < key r
    · simp [hk, h.trans hk]
    · simp [hk]

/-- **One batch moves the cursor past itself.**  When the batch of `n` rows ends with `r`, the rows
after `r` are the ones the batch left. -/
theorem after_of_take_eq_concat {A : List ρ} {n : ℕ} (h : Ascending key L)
    (hA : (after key c L).take n = A ++ [r]) :
    after key (some (key r)) L = (after key c L).drop n := by
  have hmem : r ∈ after key c L := mem_of_mem_take (hA ▸ mem_append_right A (by simp))
  have hc : c.all fun x => decide (x < key r) := (mem_filter.mp hmem).2
  have hsplit : after key c L = A ++ r :: (after key c L).drop n := by
    rw [append_cons, ← hA, take_append_drop]
  have hasc := h.after key c
  rw [hsplit] at hasc
  rw [← after_after key hc]
  nth_rewrite 1 [hsplit]
  exact after_append_cons key hasc

end IpfS3.Keyset
