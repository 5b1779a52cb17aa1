import Mathlib

/-!
# Frames of a stream

A stream is cut into frames of a fixed size, the last of which may be shorter.  There is only one
way to do so (`Framed.eq_of_flatten_eq`), so two framings of the same stream agree however each of
them received its input.

* `Framed`: the frames are full except perhaps for the last one, and none is empty.
* `Framed.length_eq`: the number of frames.
* `Framed.forall₂_of_length`: lengthening each frame by a constant keeps the framing.
-/

namespace IpfS3.Framing

open List

variable {α : Type*}

/-- Frames of size `n`, the last one perhaps shorter. -/
def Framed (n : ℕ) : List (List α) → Prop
  | [] => True
  | f :: fs => 0 < f.length ∧ f.length ≤ n ∧ (fs ≠ [] → f.length = n) ∧ Framed n fs

variable {n : ℕ}

variable {fs : List (List α)}

theorem Framed.tail {f : List α} (h : Framed n (f :: fs)) : Framed n fs :=
  h.2.2.2

theorem Framed.append_full {gs : List (List α)} (hn : 0 < n) (hfs : ∀ f ∈ fs, f.length = n)
    (hgs : Framed n gs) : Framed n (fs ++ gs) := by
  induction fs with
  | nil => exact hgs
  | cons f fs ih =>
    have hf := hfs f mem_cons_self
    exact ⟨by omega, by omega, fun _ => hf, ih fun g hg => hfs g (mem_cons_of_mem f hg)⟩

theorem framed_singleton {f : List α} (hne : f ≠ []) (hle : f.length ≤ n) : Framed n [f] :=
  ⟨length_pos_of_ne_nil hne, hle, fun h => absurd rfl h, trivial⟩

theorem Framed.eq_nil_of_flatten_eq_nil (h : Framed n fs) (hnil : fs.flatten = []) : fs = [] := by
  cases fs with
  | nil => rfl
  | cons f fs =>
    have hlen := congrArg length hnil
    rw [flatten_cons, length_append, length_nil] at hlen
    have := h.1
    omega

theorem Framed.head_eq {f : List α} (h : Framed n (f :: fs)) :
    f = (f :: fs).flatten.take n := by
  by_cases hfs : fs = []
  · subst hfs
    rw [flatten_cons, flatten_nil, append_nil, take_of_length_le h.2.1]
  · rw [flatten_cons, ← h.2.2.1 hfs, take_left]

/-- **A stream has one framing.** -/
theorem Framed.eq_of_flatten_eq {gs : List (List α)} (hfs : Framed n fs) (hgs : Framed n gs)
    (h : fs.flatten = gs.flatten) : fs = gs := by
  induction fs generalizing gs with
  | nil => exact (hgs.eq_nil_of_flatten_eq_nil h.symm).symm
  | cons f fs ih =>
    cases gs with
    | nil => exact hfs.eq_nil_of_flatten_eq_nil h
    | cons g gs =>
      have hfg : f = g := by
        rw [hfs.head_eq, hgs.head_eq, h]
      subst hfg
      rw [flatten_cons, flatten_cons, append_cancel_left_eq] at h
      rw [ih hfs.tail hgs.tail h]

/-- **The number of frames** is the length divided by the size, rounded up. -/
theorem Framed.length_eq (hn : 0 < n) (h : Framed n fs) :
    fs.length = (fs.flatten.length + n - 1) / n := by
  induction fs with
  | nil =>
    simp only [flatten_nil, length_nil]
    exact (Nat.div_eq_of_lt (by omega)).symm
  | cons f fs ih =>
    have ih := ih h.tail
    obtain ⟨hpos, hle, hfull, -⟩ := h
    rw [length_cons, flatten_cons, length_append]
    by_cases hfs : fs = []
    · subst hfs
      have hrest : f.length + 0 + n - 1 = f.length - 1 + n := by omega
      simp only [flatten_nil, length_nil]
      rw [hrest, Nat.add_div_right _ hn, Nat.div_eq_of_lt (by omega)]
    · rw [ih, hfull hfs]
      have hrest : n + fs.flatten.length + n - 1 = fs.flatten.length + n - 1 + n := by omega
      rw [hrest, Nat.add_div_right _ hn]

theorem Framed.forall₂_of_length {β : Type*} {k : ℕ} {gs : List (List β)} (h : Framed n fs)
    (hlen : List.Forall₂ (fun f g => g.length = f.length + k) fs gs) :
    Framed (n + k) gs := by
  induction hlen with
  | nil => trivial
  | @cons f g fs gs hfg hall ih =>
    obtain ⟨hpos, hle, hfull, htail⟩ := h
    refine ⟨by omega, by omega, fun hgs => ?_, ih htail⟩
    have hfs : fs ≠ [] := by
      rintro rfl
      exact hgs (forall₂_nil_left_iff.mp hall)
    rw [hfg, hfull hfs]

theorem length_flatten_of_forall₂ {β : Type*} {k : ℕ} {gs : List (List β)}
    (hlen : List.Forall₂ (fun f g => g.length = f.length + k) fs gs) :
    gs.flatten.length = fs.flatten.length + k * fs.length := by
  induction hlen with
  | nil => rfl
  | @cons f g fs gs hfg _ ih =>
    rw [flatten_cons, flatten_cons, length_append, length_append, ih, hfg,
      length_cons, Nat.mul_succ]
    omega

end IpfS3.Framing
