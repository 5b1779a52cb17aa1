import Mathlib

/-!
# Exclusive holders of scopes

Holders hold scopes, some scopes overlap, and no two holders may hold overlapping scopes.

* `Exclusive.mono`: giving scopes up keeps exclusion.
* `Exclusive.grant`: a holder may be given a scope that is clear of every other holder.

Scopes of a name space are single names and literal prefixes (`Scope`); `Scope.Overlaps` compares
two of them.
-/

namespace IpfS3.Exclusion

variable {η : Type*} {ς : Type*} {overlaps : ς → ς → Prop}

/-- No two holders hold overlapping scopes. -/
def Exclusive (overlaps : ς → ς → Prop) (holds : η → ς → Prop) : Prop :=
  ∀ h h' s s', h ≠ h' → holds h s → holds h' s' → ¬overlaps s s'

/-- No holder but `h` holds a scope that overlaps `s`. -/
def ClearFor (overlaps : ς → ς → Prop) (holds : η → ς → Prop) (h : η) (s : ς) : Prop :=
  ∀ h' s', h' ≠ h → holds h' s' → ¬overlaps s' s

variable {holds holds' : η → ς → Prop}

theorem Exclusive.mono (h : Exclusive overlaps holds) (hle : ∀ a s, holds' a s → holds a s) :
    Exclusive overlaps holds' :=
  fun a a' s s' hne ha ha' => h a a' s s' hne (hle a s ha) (hle a' s' ha')

/-- **Granting scopes** that are clear of all other holders keeps exclusion. -/
theorem Exclusive.grant (hsymm : ∀ s s', overlaps s s' → overlaps s' s)
    (h : Exclusive overlaps holds) {a : η} {G : ς → Prop}
    (hclear : ∀ s, G s → ClearFor overlaps holds a s)
    (hle : ∀ b s, holds' b s → holds b s ∨ b = a ∧ G s) : Exclusive overlaps holds' := by
  intro b b' s s' hne hb hb' hover
  rcases hle b s hb with hold | ⟨rfl, hs⟩
  · rcases hle b' s' hb' with hold' | ⟨rfl, hs'⟩
    · exact h b b' s s' hne hold hold' hover
    · exact hclear s' hs' b s hne hold hover
  · rcases hle b' s' hb' with hold' | ⟨rfl, hs'⟩
    · exact hclear s hs b' s' (Ne.symm hne) hold' (hsymm s s' hover)
    · exact hne rfl

/-! ## Names and prefixes -/

variable {α : Type*}

/-- A name, or all names with a literal prefix. -/
inductive Scope (α : Type*) where
  | exact (name : List α)
  | under (pfx : List α)
  deriving DecidableEq

namespace Scope

/-- Two scopes overlap. -/
def Overlaps : Scope α → Scope α → Prop
  | exact name, exact name' => name = name'
  | exact name, under pfx => pfx <+: name
  | under pfx, exact name => pfx <+: name
  | under pfx, under pfx' => pfx <+: pfx' ∨ pfx' <+: pfx

theorem Overlaps.symm {s s' : Scope α} (h : Overlaps s s') : Overlaps s' s := by
  cases s with
  | exact name =>
    cases s' with
    | exact name' => exact Eq.symm h
    | under pfx => exact h
  | under pfx =>
    cases s' with
    | exact name' => exact h
    | under pfx' => exact Or.symm h

end Scope

end IpfS3.Exclusion
