import Mathlib

/-!
# Splitting lists

A list is split at the first separator (`splitOnce`).
-/

namespace IpfS3.Splitting

variable {α : Type*} [DecidableEq α] {l p q : List α} {c : α}

/-- The parts before and after the first separator. -/
def splitOnce (c : α) : List α → Option (List α × List α)
  | [] => none
  | a :: l => if a = c then some ([], l) else (splitOnce c l).map (Prod.map (a :: ·) id)

theorem splitOnce_eq_some_iff : splitOnce c l = some (p, q) ↔ l = p ++ c :: q ∧ c ∉ p := by
  induction l generalizing p with
  | nil => simp [splitOnce]
  | cons a l ih =>
    by_cases ha : a = c
    · subst ha
      cases p with
      | nil => simp [splitOnce]
      | cons b p =>
        -- the separator stands first, so nothing may stand before it
        refine iff_of_false (by simp [splitOnce]) ?_
        rintro ⟨hl, hnot⟩
        exact hnot (List.mem_cons.mpr (Or.inl (List.cons.inj hl).1))
    · cases p with
      | nil => simp [splitOnce, ha]
      | cons b p =>
        rw [splitOnce, if_neg ha, Option.map_eq_some_iff]
        constructor
        · rintro ⟨⟨p', q'⟩, hsplit, heq⟩
          cases heq
          obtain ⟨rfl, hnot⟩ := ih.mp hsplit
          exact ⟨rfl, fun h => (List.mem_cons.mp h).elim (fun h => ha h.symm) hnot⟩
        · rintro ⟨hl, hnot⟩
          obtain ⟨rfl, rfl⟩ := List.cons.inj hl
          exact ⟨(p, q), ih.mpr ⟨rfl, fun h => hnot (List.mem_cons_of_mem _ h)⟩, rfl⟩

end IpfS3.Splitting
