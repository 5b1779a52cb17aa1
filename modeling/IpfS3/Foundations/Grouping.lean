import IpfS3.Foundations.BoundedMerge

/-!
# Grouping by a key

A sorted map from keys to lists, into which elements are pushed one after another under their keys,
holds for every key the elements with that key in their order (`mem_group_iff`).  The groups
together are the list again, up to order, and what is unique within every group is unique in the
list (`nodup_map_of_group`) when it determines the key.
-/

namespace IpfS3.Grouping

open Keyset BoundedMerge List

variable {α κ : Type*} [LinearOrder κ] (key : α → κ)

/-- Pushes an element to the list of its key. -/
def push (M : List (κ × List α)) (a : α) : List (κ × List α) :=
  insertWith (fun old new => old ++ new) (key a) [a] M

/-- The elements of a list under their keys. -/
def group (l : List α) : List (κ × List α) := l.foldl (push key) []

/-- The elements with one key. -/
def fiber (k : κ) (l : List α) : List α := l.filter fun a => key a = k

variable {key}

variable {l : List α}

theorem mem_fiber {k : κ} {a : α} : a ∈ fiber key k l ↔ a ∈ l ∧ key a = k := by
  rw [fiber, mem_filter, decide_eq_true_iff]

theorem group_concat (l : List α) (a : α) : group key (l ++ [a]) = push key (group key l) a := by
  rw [group, foldl_append]
  rfl

theorem ascending_group (l : List α) : Ascending Prod.fst (group key l) := by
  induction l using reverseRecOn with
  | nil => exact List.Pairwise.nil
  | append_singleton l a ih =>
    rw [group_concat]
    exact ascending_insertWith ih

theorem keys_nodup_group (l : List α) : ((group key l).map Prod.fst).Nodup :=
  pairwise_map.mpr ((ascending_group l).imp fun h => h.ne)

theorem lookup_group (k : κ) (l : List α) : (group key l).lookup k =
    if fiber key k l = [] then none else some (fiber key k l) := by
  induction l using reverseRecOn with
  | nil => rfl
  | append_singleton l a ih =>
    rw [group_concat, push]
    rcases eq_or_ne k (key a) with rfl | hne
    · have hfiber : fiber key (key a) (l ++ [a]) = fiber key (key a) l ++ [a] := by
        simp [fiber]
      rw [lookup_insertWith_self (ascending_group l), ih, hfiber]
      split_ifs with hnil hnil'
      · exact absurd hnil' (append_ne_nil_of_right_ne_nil _ (cons_ne_nil a []))
      · rw [hnil]
        rfl
      · exact absurd ‹_› (append_ne_nil_of_right_ne_nil _ (cons_ne_nil a []))
      · rfl
    · have hfiber : fiber key k (l ++ [a]) = fiber key k l := by
        simp [fiber, hne.symm]
      rw [lookup_insertWith_of_ne hne, ih, hfiber]

/-- **The groups** are the non-empty fibers. -/
theorem mem_group_iff {k : κ} {g : List α} :
    (k, g) ∈ group key l ↔ g = fiber key k l ∧ g ≠ [] := by
  rw [mem_iff_lookup (ascending_group l), lookup_group]
  split_ifs with hnil
  · rw [hnil]
    constructor
    · intro h
      cases h
    · exact fun h => absurd h.1 h.2
  · rw [Option.some_inj]
    constructor
    · rintro rfl
      exact ⟨rfl, hnil⟩
    · exact fun h => h.1.symm

theorem mem_keys_group_iff {k : κ} :
    k ∈ (group key l).map Prod.fst ↔ ∃ a ∈ l, key a = k := by
  constructor
  · intro h
    obtain ⟨⟨k', g⟩, hmem, rfl⟩ := mem_map.mp h
    obtain ⟨rfl, hne⟩ := mem_group_iff.mp hmem
    obtain ⟨a, ha⟩ := exists_mem_of_ne_nil _ hne
    exact ⟨a, mem_fiber.mp ha⟩
  · rintro ⟨a, ha, rfl⟩
    have hmem : a ∈ fiber key (key a) l := mem_fiber.mpr ⟨ha, rfl⟩
    exact mem_map_of_mem (f := Prod.fst)
      (mem_group_iff.mpr ⟨rfl, ne_nil_of_mem hmem⟩ : (key a, fiber key (key a) l) ∈ _)

theorem flatMap_push_perm {M : List (κ × List α)} (a : α) :
    ((push key M a).flatMap Prod.snd).Perm (M.flatMap Prod.snd ++ [a]) := by
  rw [push]
  induction M with
  | nil => exact List.Perm.refl _
  | cons entry M ih =>
    rw [insertWith]
    split_ifs
    · rw [flatMap_cons, flatMap_cons, append_assoc, append_assoc]
      exact perm_append_comm.append_left _
    · rw [flatMap_cons]
      exact perm_append_comm
    · rw [flatMap_cons, flatMap_cons, append_assoc]
      exact ih.append_left _

/-- **The groups together** are the list. -/
theorem flatMap_group_perm (key : α → κ) (l : List α) : ((group key l).flatMap Prod.snd).Perm l := by
  induction l using reverseRecOn with
  | nil => exact List.Perm.refl _
  | append_singleton l a ih =>
    rw [group_concat]
    exact (flatMap_push_perm a).trans (ih.append_right [a])

theorem nodup_map_of_group {β : Type*} [DecidableEq β] {f : α → β}
    (hkey : ∀ a ∈ l, ∀ b ∈ l, f a = f b → key a = key b)
    (h : ∀ entry ∈ group key l, (entry.2.map f).Nodup) : (l.map f).Nodup := by
  rw [nodup_iff_count_le_one]
  intro b
  rw [count_eq_countP, countP_map]
  by_cases hb : ∃ a ∈ l, f a = b
  · obtain ⟨a, ha, rfl⟩ := hb
    have hfiber : l.countP ((· == f a) ∘ f) = (fiber key (key a) l).countP ((· == f a) ∘ f) := by
      rw [fiber, countP_filter]
      refine countP_congr fun c hc => ?_
      rw [Bool.and_eq_true, Function.comp_apply, beq_iff_eq, decide_eq_true_iff]
      exact ⟨fun heq => ⟨heq, hkey c hc a ha heq⟩, And.left⟩
    have hmem : (key a, fiber key (key a) l) ∈ group key l :=
      mem_group_iff.mpr ⟨rfl, ne_nil_of_mem (mem_fiber.mpr ⟨ha, rfl⟩)⟩
    have hcount := nodup_iff_count_le_one.mp (h _ hmem) (f a)
    rw [count_eq_countP, countP_map] at hcount
    rw [hfiber]
    exact hcount
  · rw [countP_eq_zero.mpr fun a ha => ?_]
    · exact Nat.zero_le 1
    · rw [Function.comp_apply, beq_iff_eq]
      exact fun heq => hb ⟨a, ha, heq⟩

end IpfS3.Grouping
