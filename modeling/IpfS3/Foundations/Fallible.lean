import Mathlib

/-!
# Fallible computations

A computation that returns a value or an error is taken apart one step at a time: a bind that
returns a value ran both halves (`of_bind`), a passed check holds (`of_ensure`), and a list of
computations that all succeed is a list of related inputs and outputs (`mapM_eq_ok_iff`).
-/

namespace IpfS3.Fallible

open List Option

universe u v

variable {ε : Type u} {α β : Type v}

@[simp] theorem ok_bind (a : α) (f : α → Except ε β) : (Except.ok a >>= f) = f a := rfl

@[simp] theorem error_bind (e : ε) (f : α → Except ε β) :
    ((Except.error e : Except ε α) >>= f) = .error e := rfl

variable {f : α → Except ε β} {c : Prop} {l : List α} {l' : List β} {o : Option α}
  {R : α → β → Prop}

theorem bind_eq_ok_iff {x : Except ε α} {b : β} :
    (x >>= f) = .ok b ↔ ∃ a, x = .ok a ∧ f a = .ok b := by
  cases x <;> simp

theorem of_bind {x : Except ε α} {b : β} (h : (x >>= f) = .ok b) :
    ∃ a, x = .ok a ∧ f a = .ok b := bind_eq_ok_iff.mp h

/-- Go on when a condition holds, and fail with an error otherwise. -/
def ensure (c : Prop) [Decidable c] (e : ε) : Except ε Unit := if c then .ok () else .error e

theorem ensure_eq_ok_iff [Decidable c] {e : ε} : ensure c e = .ok () ↔ c := by
  simp [ensure]

theorem ensure_of [Decidable c] {e : ε} (hc : c) : ensure c e = .ok () := if_pos hc

theorem ensure_of_not [Decidable c] {e : ε} (hc : ¬c) : ensure c e = .error e :=
  if_neg hc

theorem ensure_bind_eq_ok_iff [Decidable c] {e : ε} {β : Type} {f : Unit → Except ε β} {b : β} :
    (ensure c e >>= f) = .ok b ↔ c ∧ f () = .ok b := by
  by_cases hc : c <;> simp [ensure, hc]

theorem of_ensure [Decidable c] {e : ε} {β : Type} {f : Unit → Except ε β} {b : β}
    (h : (ensure c e >>= f) = .ok b) : c ∧ f () = .ok b := ensure_bind_eq_ok_iff.mp h

theorem mapM_eq_ok_iff :
    l.mapM f = .ok l' ↔ List.Forall₂ (fun a b => f a = .ok b) l l' := by
  induction l generalizing l' with
  | nil =>
    rw [mapM_nil, forall₂_nil_left_iff]
    exact ⟨fun h => (Except.ok.inj h).symm, fun h => h ▸ rfl⟩
  | cons a l ih =>
    rw [mapM_cons, bind_eq_ok_iff, forall₂_cons_left_iff]
    constructor
    · rintro ⟨b, hb, h⟩
      obtain ⟨bs, hbs, h⟩ := of_bind h
      exact ⟨b, bs, hb, ih.mp hbs, (Except.ok.inj h).symm⟩
    · rintro ⟨b, bs, hb, hbs, rfl⟩
      exact ⟨b, hb, bind_eq_ok_iff.mpr ⟨bs, ih.mpr hbs, rfl⟩⟩

theorem mapM_isOk_iff :
    (∃ l', l.mapM f = .ok l') ↔ ∀ a ∈ l, ∃ b, f a = .ok b := by
  induction l with
  | nil => exact iff_of_true ⟨[], rfl⟩ fun a ha => absurd ha not_mem_nil
  | cons a l ih =>
    rw [forall_mem_cons, ← ih, mapM_cons]
    constructor
    · rintro ⟨l', h⟩
      obtain ⟨b, hb, h⟩ := of_bind h
      obtain ⟨bs, hbs, -⟩ := of_bind h
      exact ⟨⟨b, hb⟩, bs, hbs⟩
    · rintro ⟨⟨b, hb⟩, bs, hbs⟩
      exact ⟨b :: bs, bind_eq_ok_iff.mpr ⟨b, hb, bind_eq_ok_iff.mpr ⟨bs, hbs, rfl⟩⟩⟩

theorem mapM_congr {γ : Type v} {f : α → Except ε γ} {g : β → Except ε γ}
    (h : List.Forall₂ (fun a b => f a = g b) l l') : l.mapM f = l'.mapM g := by
  induction h with
  | nil => rfl
  | cons hab _ ih => rw [mapM_cons, mapM_cons, hab, ih]

theorem mem_flatten_of_mapM {f : α → Except ε (List β)} {ls : List (List β)}
    (h : l.mapM f = .ok ls) {b : β} :
    b ∈ ls.flatten ↔ ∃ a ∈ l, ∃ bs, f a = .ok bs ∧ b ∈ bs := by
  have hall := mapM_eq_ok_iff.mp h
  clear h
  induction hall with
  | nil => simp
  | @cons a bs l ls hab _ ih =>
    rw [flatten_cons, mem_append]
    refine (or_congr_right ih).trans ⟨?_, ?_⟩
    · rintro (hb | ⟨a', ha', bs', hbs', hb⟩)
      · exact ⟨a, mem_cons_self, bs, hab, hb⟩
      · exact ⟨a', mem_cons_of_mem a ha', bs', hbs', hb⟩
    · rintro ⟨a', ha', bs', hbs', hb⟩
      rcases mem_cons.mp ha' with rfl | ha'
      · cases hab.symm.trans hbs'
        exact Or.inl hb
      · exact Or.inr ⟨a', ha', bs', hbs', hb⟩

theorem mapM_zipIdx_modify {γ : Type v} {f : α × ℕ → Except ε γ} {i : ℕ} {g : α → α}
    (h : ∀ a, l[i]? = some a → f (g a, i) = f (a, i)) :
    (l.modify i g).zipIdx.mapM f = l.zipIdx.mapM f := by
  refine mapM_congr (forall₂_iff_get.mpr ⟨by simp, fun j hj hj' => ?_⟩)
  have hlt : j < l.length := by simpa using hj'
  simp only [get_eq_getElem, getElem_zipIdx, getElem_modify, Nat.zero_add]
  split_ifs with hij
  · subst hij
    exact h _ (getElem?_eq_getElem hlt)
  · rfl

theorem mapM_inverse {g : β → Except ε α} (h : ∀ a ∈ l, ∃ b, f a = .ok b ∧ g b = .ok a) :
    ∃ l', l.mapM f = .ok l' ∧ l'.mapM g = .ok l := by
  induction l with
  | nil => exact ⟨[], rfl, rfl⟩
  | cons a l ih =>
    obtain ⟨⟨b, hb, hback⟩, hl⟩ := forall_mem_cons.mp h
    obtain ⟨l', hl', hlback⟩ := ih hl
    exact ⟨b :: l', mapM_eq_ok_iff.mpr (.cons hb (mapM_eq_ok_iff.mp hl')),
      mapM_eq_ok_iff.mpr (.cons hback (mapM_eq_ok_iff.mp hlback))⟩

theorem mapM_perm {l' : List α} {r : List β} (h : l.mapM f = .ok r) (hperm : l.Perm l') :
    ∃ r', l'.mapM f = .ok r' ∧ r'.Perm r := by
  obtain ⟨r', hr', hperm'⟩ := perm_comp_forall₂ hperm.symm (mapM_eq_ok_iff.mp h)
  exact ⟨r', mapM_eq_ok_iff.mpr hr', hperm'⟩

theorem optionMapM_eq_ok_iff {o' : Option β} :
    o.mapM f = .ok o' ↔ Option.Rel (fun a b => f a = .ok b) o o' := by
  cases o with
  | none =>
    constructor
    · intro h
      cases h
      exact Option.Rel.none
    · intro h
      cases h
      rfl
  | some a =>
    constructor
    · intro h
      cases hfa : f a with
      | error e => simp [hfa] at h
      | ok b =>
        simp only [Option.mapM, hfa] at h
        cases h
        exact Option.Rel.some hfa
    · intro h
      obtain ⟨hfa⟩ := h
      simp only [Option.mapM, hfa]
      rfl

theorem exists_of_optionMapM {b : β} (h : o.mapM f = .ok (some b)) : ∃ a ∈ o, f a = .ok b := by
  cases o with
  | none => cases Except.ok.inj h
  | some a =>
    obtain ⟨hb⟩ := optionMapM_eq_ok_iff.mp h
    exact ⟨a, rfl, hb⟩

theorem optionMapM_inverse {g : β → Except ε α} (h : ∀ a ∈ o, ∃ b, f a = .ok b ∧ g b = .ok a) :
    ∃ o', o.mapM f = .ok o' ∧ o'.mapM g = .ok o := by
  cases o with
  | none => exact ⟨none, rfl, rfl⟩
  | some a =>
    obtain ⟨b, hb, hback⟩ := h a rfl
    exact ⟨some b, optionMapM_eq_ok_iff.mpr (Option.Rel.some hb),
      optionMapM_eq_ok_iff.mpr (Option.Rel.some hback)⟩

theorem optionForM_eq_ok_iff {f : α → Except ε Unit} :
    o.forM f = .ok () ↔ ∀ a ∈ o, f a = .ok () := by
  cases o with
  | none => exact iff_of_true rfl fun a ha => absurd ha (not_mem_none a)
  | some a => exact ⟨fun h b hb => mem_some_iff.mp hb ▸ h, fun h => h a rfl⟩

theorem forall₂_filterMap_toOption (h : ∀ a ∈ l, ∃ b, f a = .ok b) :
    List.Forall₂ (fun a b => f a = .ok b) l (l.filterMap fun a => (f a).toOption) := by
  induction l with
  | nil => exact List.Forall₂.nil
  | cons a l ih =>
    obtain ⟨⟨b, hb⟩, hl⟩ := forall_mem_cons.mp h
    have hsome : (f a).toOption = some b := by
      rw [hb]
      rfl
    simp only [filterMap_cons, hsome]
    exact List.Forall₂.cons hb (ih hl)

theorem exists_of_forall₂ (h : List.Forall₂ R l l') {b : β} (hb : b ∈ l') : ∃ a ∈ l, R a b := by
  induction h with
  | nil => cases hb
  | @cons a b' l l' hab hl ih =>
    rcases mem_cons.mp hb with rfl | hb
    · exact ⟨a, mem_cons_self, hab⟩
    · obtain ⟨a', ha', hR⟩ := ih hb
      exact ⟨a', mem_cons_of_mem a ha', hR⟩

theorem forall₂_trans {R : α → α → Prop} (hR : ∀ a b c, R a b → R b c → R a c) {l' l'' : List α}
    (h : List.Forall₂ R l l') (h' : List.Forall₂ R l' l'') : List.Forall₂ R l l'' := by
  induction h generalizing l'' with
  | nil => exact h'
  | cons hab _ ih =>
    obtain ⟨c, m, hbc, hm, rfl⟩ := forall₂_cons_left_iff.mp h'
    exact List.Forall₂.cons (hR _ _ _ hab hbc) (ih hm)

theorem map_eq_of_forall₂ {γ : Type*} {f : α → γ} {g : β → γ} (h : List.Forall₂ R l l')
    (hR : ∀ a b, R a b → g b = f a) :
    l'.map g = l.map f := by
  induction h with
  | nil => rfl
  | cons hab _ ih => rw [map_cons, map_cons, ih, hR _ _ hab]

theorem pairwise_of_forall₂ {S : α → α → Prop} {T : β → β → Prop} (h : List.Forall₂ R l l')
    (hS : l.Pairwise S) (hT : ∀ a a' b b', R a b → R a' b' → S a a' → T b b') : l'.Pairwise T := by
  induction h with
  | nil => exact List.Pairwise.nil
  | @cons a b l l' hab hl ih =>
    rw [pairwise_cons] at hS ⊢
    refine ⟨fun b' hb' => ?_, ih hS.2⟩
    obtain ⟨a', ha', hR⟩ := exists_of_forall₂ hl hb'
    exact hT a a' b b' hab hR (hS.1 a' ha')

theorem find?_of_forall₂ {p : α → Bool} {q : β → Bool} (h : List.Forall₂ R l l')
    (hpq : ∀ a b, R a b → p a = q b) :
    (l.find? p = none ∧ l'.find? q = none) ∨
      ∃ a b, l.find? p = some a ∧ l'.find? q = some b ∧ R a b := by
  induction h with
  | nil => exact Or.inl ⟨rfl, rfl⟩
  | @cons a b l l' hab hl ih =>
    cases hp : p a with
    | true =>
      have hq := (hpq a b hab).symm.trans hp
      exact Or.inr ⟨a, b, find?_cons_of_pos hp, find?_cons_of_pos hq, hab⟩
    | false =>
      have hq := (hpq a b hab).symm.trans hp
      rw [find?_cons_of_neg (Bool.eq_false_iff.mp hp),
        find?_cons_of_neg (Bool.eq_false_iff.mp hq)]
      exact ih

end IpfS3.Fallible
