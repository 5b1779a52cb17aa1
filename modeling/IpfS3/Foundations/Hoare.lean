import Mathlib

/-!
# Triples for computations with state and errors

A computation in `EStateM` returns a value or an error, and a state in both cases: what it did before
an error stays done.  A triple says what holds of the state and the value, and of the state and the
error, whenever a precondition holds of the state at the start.  The rules below take a computation
apart along its `do` notation; `Triple.zoom` is the rule for a computation on a part of the state.
-/

namespace IpfS3.Hoare

variable {ε σ τ α β : Type}

/-- A condition on a result. -/
def Post (Q : α → σ → Prop) (E : ε → σ → Prop) : EStateM.Result ε σ α → Prop
  | .ok a s => Q a s
  | .error e s => E e s

instance instDecidablePost {Q : α → σ → Prop} {E : ε → σ → Prop} [∀ a s, Decidable (Q a s)]
    [∀ e s, Decidable (E e s)] (r : EStateM.Result ε σ α) : Decidable (Post Q E r) :=
  match r with
  | .ok a s => inferInstanceAs (Decidable (Q a s))
  | .error e s => inferInstanceAs (Decidable (E e s))

theorem exists_of_post {Q : α → σ → Prop} {r : EStateM.Result ε σ α}
    (h : Post Q (fun _ _ => False) r) : ∃ a s, r = .ok a s ∧ Q a s := by
  cases r with
  | ok a s => exact ⟨a, s, rfl, h⟩
  | error e s => exact h.elim

/-- From every state that meets `P`, the computation ends in a value that meets `Q` or in an error
that meets `E`. -/
def Triple (P : σ → Prop) (m : EStateM ε σ α) (Q : α → σ → Prop) (E : ε → σ → Prop) : Prop :=
  ∀ s, P s → Post Q E (m s)

/-- A computation on a part of the state. -/
def zoom (part : τ → σ) (replace : τ → σ → τ) (m : EStateM ε σ α) : EStateM ε τ α := fun t =>
  match m (part t) with
  | .ok a s => .ok a (replace t s)
  | .error e s => .error e (replace t s)

/-- What holds if the computation returns. -/
abbrev Returns (P : σ → Prop) (m : EStateM ε σ α) (Q : α → σ → Prop) : Prop :=
  Triple P m Q fun _ _ => True

namespace Triple

variable {P P' : σ → Prop} {Q Q' : α → σ → Prop} {R : β → σ → Prop} {E E' : ε → σ → Prop}
  {m : EStateM ε σ α} {f : α → EStateM ε σ β}

theorem pure {a : α} (h : ∀ s, P s → Q a s) : Triple P (pure a : EStateM ε σ α) Q E :=
  fun s hs => h s hs

theorem throw {e : ε} (h : ∀ s, P s → E e s) : Triple P (throw e : EStateM ε σ α) Q E :=
  fun s hs => h s hs

theorem modify {g : σ → σ} {Q : PUnit → σ → Prop} (h : ∀ s, P s → Q ⟨⟩ (g s)) :
    Triple P (modify g : EStateM ε σ PUnit) Q E :=
  fun s hs => h s hs

theorem set {s' : σ} {Q : PUnit → σ → Prop} (h : Q ⟨⟩ s') :
    Triple P (set s' : EStateM ε σ PUnit) Q E :=
  fun _ _ => h

theorem of_eq (h : ∀ s, P s → Triple (fun s' => s' = s) m Q E) : Triple P m Q E :=
  fun s hs => h s hs s rfl

theorem get_bind {f : σ → EStateM ε σ β} (h : ∀ s, P s → Triple (fun s' => s' = s) (f s) R E) :
    Triple P (MonadState.get >>= f) R E :=
  fun s hs => h s hs s rfl

/-- **Sequencing.** -/
theorem bind (hm : Triple P m Q E) (hf : ∀ a, Triple (Q a) (f a) R E) :
    Triple P (m >>= f) R E := by
  intro s hs
  have hpost := hm s hs
  show Post R E (EStateM.bind m f s)
  unfold EStateM.bind
  cases h : m s with
  | ok a s' =>
    rw [h] at hpost
    exact hf a s' hpost
  | error e s' =>
    rw [h] at hpost
    exact hpost

theorem bind_pure {b : β} (hm : Triple P m (fun _ => R b) E) :
    Triple P (m >>= fun _ => Pure.pure b) R E :=
  hm.bind fun _ => pure fun _ hs => hs

/-- **Consequence.** -/
theorem conseq (h : Triple P m Q E) (hpre : ∀ s, P' s → P s) (hpost : ∀ a s, Q a s → Q' a s)
    (herror : ∀ e s, E e s → E' e s) : Triple P' m Q' E' := by
  intro s hs
  have hm := h s (hpre s hs)
  cases hresult : m s with
  | ok a s' =>
    rw [hresult] at hm
    exact hpost a s' hm
  | error e s' =>
    rw [hresult] at hm
    exact herror e s' hm

theorem post (h : Triple P m Q E) (hpost : ∀ a s, Q a s → Q' a s) : Triple P m Q' E :=
  h.conseq (fun _ hs => hs) hpost fun _ _ he => he

theorem and (h : Triple P m Q E) (h' : Returns P' m Q') :
    Triple (fun s => P s ∧ P' s) m (fun a s => Q a s ∧ Q' a s) E := by
  intro s hs
  have hm := h s hs.1
  have hm' := h' s hs.2
  cases hresult : m s with
  | ok a s' =>
    rw [hresult] at hm hm'
    exact ⟨hm, hm'⟩
  | error e s' =>
    rw [hresult] at hm
    exact hm

theorem run (s : σ) : Returns (fun s' => s' = s) m fun a s' => m s = .ok a s' := by
  intro s' heq
  rw [heq]
  cases m s with
  | ok a s' => exact rfl
  | error e s' => exact True.intro

theorem trivial : Returns P m fun _ _ => True := by
  intro s _
  cases m s with
  | ok a s' => exact True.intro
  | error e s' => exact True.intro

theorem throws {e : ε} : Returns P (MonadExcept.throw e : EStateM ε σ α) Q :=
  throw fun _ _ => True.intro

theorem pre (h : Triple P m Q E) (hpre : ∀ s, P' s → P s) : Triple P' m Q E :=
  fun s hs => h s (hpre s hs)

theorem ite {c : Prop} [Decidable c] {m' : EStateM ε σ α} (hthen : c → Triple P m Q E)
    (helse : ¬c → Triple P m' Q E) : Triple P (if c then m else m') Q E := by
  split_ifs with hc
  · exact hthen hc
  · exact helse hc

/-- **A computation on a part of the state** leaves the rest alone. -/
theorem zoom {part : τ → σ} {replace : τ → σ → τ} {P : τ → Prop} {Q : α → τ → Prop}
    {E : ε → τ → Prop} (h : ∀ t, P t → Triple (fun s => s = part t) m
      (fun a s => Q a (replace t s)) fun e s => E e (replace t s)) :
    Triple P (zoom part replace m) Q E := by
  intro t ht
  have hpost := h t ht (part t) rfl
  unfold Hoare.zoom
  cases hm : m (part t) with
  | ok a s =>
    rw [hm] at hpost
    exact hpost
  | error e s =>
    rw [hm] at hpost
    exact hpost

end Triple

/-! ## Invariants -/

/-- The state that a result leaves. -/
def finalState : EStateM.Result ε σ α → σ
  | .ok _ s => s
  | .error _ s => s

/-- A computation keeps an invariant, whatever comes of it, and ends in none but the allowed errors. -/
def Preserves (I : σ → Prop) (A : ε → Prop) (m : EStateM ε σ α) : Prop :=
  Triple I m (fun _ => I) fun e s => A e ∧ I s

namespace Preserves

variable {I : σ → Prop} {A : ε → Prop} {m : EStateM ε σ α} {f : α → EStateM ε σ β}

theorem pure {a : α} : Preserves I A (pure a : EStateM ε σ α) := Triple.pure fun _ h => h

theorem throw {e : ε} (h : A e) : Preserves I A (throw e : EStateM ε σ α) :=
  Triple.throw fun _ hs => ⟨h, hs⟩

theorem modify {g : σ → σ} (h : ∀ s, I s → I (g s)) :
    Preserves I A (modify g : EStateM ε σ PUnit) :=
  Triple.modify h

theorem bind (hm : Preserves I A m) (hf : ∀ a, Preserves I A (f a)) : Preserves I A (m >>= f) :=
  Triple.bind hm hf

theorem finalState (h : Preserves I A m) {s : σ} (hs : I s) : I (finalState (m s)) := by
  have hpost := h s hs
  cases hm : m s with
  | ok a s' =>
    rw [hm] at hpost
    exact hpost
  | error e s' =>
    rw [hm] at hpost
    exact hpost.2

theorem allowed (h : Preserves I A m) {s s' : σ} {e : ε} (hs : I s) (hm : m s = .error e s') :
    A e := by
  have hpost := h s hs
  rw [hm] at hpost
  exact hpost.1

end Preserves
end IpfS3.Hoare
