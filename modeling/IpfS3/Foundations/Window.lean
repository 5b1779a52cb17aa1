import Mathlib

/-!
# The last elements of a list

A reader that keeps the last elements of what it has seen keeps `List.rtake`, whether what arrives is
longer than the window or not.  A search for a suffix that fits into the window finds in it what a
search through everything finds.
-/

namespace IpfS3.Window

open List

variable {α : Type*} {l m : List α} {n : ℕ}

theorem length_rtake : (l.rtake n).length = min n l.length := by
  rw [rtake, length_drop]
  omega

theorem rtake_append_of_le (h : n ≤ m.length) : (l ++ m).rtake n = m.rtake n := by
  have hoffset : l.length + m.length - n = l.length + (m.length - n) := by omega
  rw [rtake, rtake, length_append, hoffset, ← drop_drop, drop_left]

theorem rtake_append_of_ge (h : m.length ≤ n) :
    (l ++ m).rtake n = (l.rtake n).drop ((l.rtake n).length + m.length - n) ++ m := by
  rw [length_rtake, rtake, rtake, length_append,
    drop_append_of_le_length (by omega), drop_drop]
  congr 2
  omega

/-- **A suffix that fits into the window** is in it. -/
theorem exists_drop_rtake_iff {P : List α → Prop} (hP : ∀ suffix, P suffix → suffix.length ≤ n) :
    (∃ k, P ((l.rtake n).drop k)) ↔ ∃ k, P (l.drop k) := by
  constructor
  · rintro ⟨k, hk⟩
    rw [rtake, drop_drop] at hk
    exact ⟨_, hk⟩
  · rintro ⟨k, hk⟩
    have hlength := hP _ hk
    rw [length_drop] at hlength
    refine ⟨k - (l.length - n), ?_⟩
    rw [rtake, drop_drop]
    have hoffset : l.length - n + (k - (l.length - n)) = k := by omega
    rwa [hoffset]

end IpfS3.Window
