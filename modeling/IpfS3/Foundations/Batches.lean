import IpfS3.Foundations.Fallible
import IpfS3.Foundations.Keyset
import IpfS3.Foundations.Table

/-!
# Loops over bounded batches

A statement that touches many rows is run in turns: read a bounded batch of rows after the last key
that was handled, stop when there is none, and otherwise handle the rows one by one and go on after
the last of them.  `batchLoop` is that loop; it is given fuel, and `batchLoop_rule` is its proof
rule: an invariant that every turn keeps, a measure that every turn decreases and that the fuel
exceeds, and what the invariant says once a batch is empty.

* `foldlM_forall`: what handling a row establishes and later rows keep, holds for every row.
* `foldlM_invariant`: what every row keeps, a batch keeps.

The usual batch is a `page`: the first rows, in key order, of a table that satisfy a condition and
come after a key.  A loop over pages whose handler changes no row but the one it is given sweeps the
whole table (`sweep`).
-/

namespace IpfS3.Batches

open Fallible List

variable {σ α κ : Type} {ε : Type*}

section Fold

variable {f : σ → α → Except ε σ} {st st' : σ} {l : List α}

theorem foldlM_forall {J : σ → Prop} {D : α → σ → Prop}
    (hstep : ∀ a ∈ l, ∀ st st', J st → f st a = .ok st' →
      J st' ∧ D a st' ∧ ∀ b, D b st → D b st')
    (hst : J st) (h : l.foldlM f st = .ok st') : J st' ∧ ∀ a ∈ l, D a st' := by
  suffices hall : J st' ∧ (∀ a ∈ l, D a st') ∧ ∀ b, D b st → D b st' from ⟨hall.1, hall.2.1⟩
  induction l generalizing st with
  | nil =>
    cases h
    exact ⟨hst, fun a ha => absurd ha not_mem_nil, fun _ hb => hb⟩
  | cons a l ih =>
    obtain ⟨st₁, ha, h⟩ := of_bind h
    obtain ⟨hst₁, hdone, hkeep⟩ := hstep a mem_cons_self st st₁ hst ha
    obtain ⟨hst', hl, hkeep'⟩ := ih (fun b hb => hstep b (mem_cons_of_mem a hb)) hst₁ h
    refine ⟨hst', fun b hb => ?_, fun b hb => hkeep' b (hkeep b hb)⟩
    rcases mem_cons.mp hb with rfl | hb
    · exact hkeep' b hdone
    · exact hl b hb

theorem foldlM_isOk {J : σ → Prop} (hstep : ∀ a ∈ l, ∀ st, J st → ∃ st', f st a = .ok st' ∧ J st')
    (hst : J st) : ∃ st', l.foldlM f st = .ok st' ∧ J st' := by
  induction l generalizing st with
  | nil => exact ⟨st, rfl, hst⟩
  | cons a l ih =>
    obtain ⟨st₁, hst₁, hJ⟩ := hstep a mem_cons_self st hst
    rw [foldlM_cons, hst₁, ok_bind]
    exact ih (fun b hb => hstep b (mem_cons_of_mem a hb)) hJ

theorem foldlM_invariant {J : σ → Prop}
    (hstep : ∀ a ∈ l, ∀ st st', J st → f st a = .ok st' → J st') (hst : J st)
    (h : l.foldlM f st = .ok st') : J st' :=
  (foldlM_forall (D := fun _ _ => True) (fun a ha st st' hst h =>
    ⟨hstep a ha st st' hst h, trivial, fun _ _ => trivial⟩) hst h).1

theorem exists_of_foldlM_error {J : σ → Prop} {e : ε}
    (hstep : ∀ a ∈ l, ∀ st st', J st → f st a = .ok st' → J st') (hst : J st)
    (h : l.foldlM f st = .error e) : ∃ a ∈ l, ∃ st₁, J st₁ ∧ f st₁ a = .error e := by
  induction l generalizing st with
  | nil => cases h
  | cons a l ih =>
    rw [foldlM_cons] at h
    cases ha : f st a with
    | error e' =>
      rw [ha] at h
      obtain rfl := Except.error.inj h
      exact ⟨a, mem_cons_self, st, hst, ha⟩
    | ok st₁ =>
      rw [ha, ok_bind] at h
      obtain ⟨b, hb, hfail⟩ := ih (fun b hb => hstep b (mem_cons_of_mem a hb))
        (hstep a mem_cons_self st st₁ hst ha) h
      exact ⟨b, mem_cons_of_mem a hb, hfail⟩

end Fold

/-- The loop: a batch after the last handled key, row by row, until a batch is empty. -/
def batchLoop (fetch : σ → Option κ → List α) (keyOf : α → κ) (handle : σ → α → Except ε σ) :
    ℕ → Option κ → σ → Except ε σ
  | 0, _, st => .ok st
  | fuel + 1, after, st =>
    match (fetch st after).getLast? with
    | none => .ok st
    | some last => do
      let st ← (fetch st after).foldlM handle st
      batchLoop fetch keyOf handle fuel (some (keyOf last)) st

variable {fetch : σ → Option κ → List α} {keyOf : α → κ} {handle : σ → α → Except ε σ}

/-- **The rule of the loop.** -/
theorem batchLoop_rule {I : Option κ → σ → Prop} {Q : σ → Prop} (μ : Option κ → σ → ℕ)
    (hexit : ∀ after st, I after st → fetch st after = [] → Q st)
    (hturn : ∀ after st st' last, I after st → (fetch st after).getLast? = some last →
      (fetch st after).foldlM handle st = .ok st' →
        I (some (keyOf last)) st' ∧ μ (some (keyOf last)) st' < μ after st)
    {fuel : ℕ} {after : Option κ} {st st' : σ} (hfuel : μ after st < fuel) (hI : I after st)
    (h : batchLoop fetch keyOf handle fuel after st = .ok st') : Q st' := by
  induction fuel generalizing after st with
  | zero => exact absurd hfuel (Nat.not_lt_zero _)
  | succ fuel ih =>
    rw [batchLoop] at h
    cases hlast : (fetch st after).getLast? with
    | none =>
      rw [hlast] at h
      obtain rfl := Except.ok.inj h
      exact hexit after st hI (getLast?_eq_none_iff.mp hlast)
    | some last =>
      rw [hlast] at h
      obtain ⟨st₁, hbatch, h⟩ := of_bind h
      obtain ⟨hI₁, hlt⟩ := hturn after st st₁ last hI hlast hbatch
      exact ih (by omega) hI₁ h

theorem batchLoop_fetched {J : σ → Prop} {P : α → Prop}
    (hfetch : ∀ after st, J st → ∀ a ∈ fetch st after, P a)
    (hstep : ∀ a st st', P a → J st → handle st a = .ok st' → J st')
    {fuel : ℕ} {after : Option κ} {st st' : σ} (hst : J st)
    (h : batchLoop fetch keyOf handle fuel after st = .ok st') : J st' := by
  induction fuel generalizing after st with
  | zero => exact Except.ok.inj h ▸ hst
  | succ fuel ih =>
    rw [batchLoop] at h
    split at h
    · exact Except.ok.inj h ▸ hst
    · obtain ⟨st₁, hbatch, h⟩ := of_bind h
      exact ih (foldlM_invariant (fun a ha st st' => hstep a st st' (hfetch after _ hst a ha)) hst
        hbatch) h

theorem batchLoop_invariant {J : σ → Prop}
    (hstep : ∀ a st st', J st → handle st a = .ok st' → J st')
    {fuel : ℕ} {after : Option κ} {st st' : σ} (hst : J st)
    (h : batchLoop fetch keyOf handle fuel after st = .ok st') : J st' :=
  batchLoop_fetched (P := fun _ => True) (fun _ _ _ _ _ => trivial)
    (fun a st st' _ => hstep a st st') hst h

theorem batchLoop_isOk {J : σ → Prop}
    (hbatch : ∀ after st, J st → ∃ st', (fetch st after).foldlM handle st = .ok st' ∧ J st')
    (fuel : ℕ) (after : Option κ) {st : σ} (hst : J st) :
    ∃ st', batchLoop fetch keyOf handle fuel after st = .ok st' ∧ J st' := by
  induction fuel generalizing after st with
  | zero => exact ⟨st, rfl, hst⟩
  | succ fuel ih =>
    rw [batchLoop]
    cases (fetch st after).getLast? with
    | none => exact ⟨st, rfl, hst⟩
    | some last =>
      obtain ⟨st₁, hst₁, hJ⟩ := hbatch after st hst
      dsimp only
      rw [hst₁, ok_bind]
      exact ih (some (keyOf last)) hJ

/-! ## Sweeping a table -/

section Sweep

open Keyset

variable [LinearOrder κ]

/-- The first `n` rows with the condition, in key order, after a key. -/
def page (key : α → κ) (p : α → Bool) (n : ℕ) (rows : List α) (after : Option κ) : List α :=
  (sortBy key (rows.filter fun r => p r && after.all fun k => decide (k < key r))).take n

variable {key : α → κ} {p : α → Bool} {n : ℕ} {rows : List α} {after : Option κ}

theorem exists_page_eq_take (key : α → κ) (p : α → Bool) (n : ℕ) (rows : List α)
    (after : Option κ) : ∃ L, page key p n rows after = L.take n ∧
      (∀ r, r ∈ L ↔ r ∈ rows ∧ p r = true ∧ ∀ k, after = some k → k < key r) ∧
      ((rows.map key).Nodup → Ascending key L) := by
  refine ⟨_, rfl, fun r => ?_, fun hkeys => ?_⟩
  · rw [mem_sortBy, mem_filter, Bool.and_eq_true]
    cases after with
    | none => simp
    | some k => simp
  · have hne : rows.Pairwise fun a b => key a ≠ key b := pairwise_map.mp hkeys
    exact ascending_sortBy key (hne.filter _)

theorem mem_of_mem_page {r : α} (h : r ∈ page key p n rows after) :
    r ∈ rows ∧ p r = true ∧ ∀ k, after = some k → k < key r := by
  obtain ⟨L, hL, hmem, -⟩ := exists_page_eq_take key p n rows after
  exact (hmem r).mp (mem_of_mem_take (hL ▸ h))

theorem ascending_page (hkeys : (rows.map key).Nodup) : Ascending key (page key p n rows after) := by
  obtain ⟨L, hL, -, hasc⟩ := exists_page_eq_take key p n rows after
  rw [hL]
  exact (hasc hkeys).sublist (take_sublist n L)

theorem lt_of_notMem_page (hkeys : (rows.map key).Nodup) {last r : α}
    (hlast : (page key p n rows after).getLast? = some last) (hr : r ∈ rows) (hp : p r = true)
    (hafter : ∀ k, after = some k → k < key r) (hout : r ∉ page key p n rows after) :
    key last < key r := by
  obtain ⟨L, hL, hmem, hasc⟩ := exists_page_eq_take key p n rows after
  have hrL := (hmem r).mpr ⟨hr, hp, hafter⟩
  have hascL := hasc hkeys
  rw [hL] at hlast hout
  rw [← take_append_drop n L] at hrL hascL
  exact (pairwise_append.mp hascL).2.2 last (mem_of_getLast? hlast) r
    ((mem_append.mp hrL).resolve_left hout)

theorem notMem_of_page_eq_nil (hn : 0 < n) (h : page key p n rows after = []) {r : α}
    (hr : r ∈ rows) (hp : p r = true) : ¬∀ k, after = some k → k < key r := by
  intro hafter
  obtain ⟨L, hL, hmem, -⟩ := exists_page_eq_take key p n rows after
  have hnil := (take_eq_nil_iff.mp (hL.symm.trans h)).resolve_left (Nat.pos_iff_ne_zero.mp hn)
  exact not_mem_nil (hnil ▸ (hmem r).mpr ⟨hr, hp, hafter⟩)

/-- The keys after a key. -/
def countAfter (keys : List κ) (after : Option κ) : ℕ :=
  keys.countP fun k => after.all fun a => decide (a < k)

theorem countAfter_lt {keys : List κ} {k : κ} (hk : k ∈ keys)
    (hafter : ∀ a, after = some a → a < k) : countAfter keys (some k) < countAfter keys after := by
  have hkP : after.all (fun a => decide (a < k)) = true := by
    cases after with
    | none => rfl
    | some a => exact decide_eq_true (hafter a rfl)
  induction keys with
  | nil => cases hk
  | cons x keys ih =>
    have hmono : ∀ l : List κ, countAfter l (some k) ≤ countAfter l after := by
      intro l
      refine countP_mono_left fun y _ hy => ?_
      cases after with
      | none => rfl
      | some a => exact decide_eq_true ((hafter a rfl).trans (of_decide_eq_true hy))
    rw [countAfter, countAfter, countP_cons, countP_cons]
    rcases mem_cons.mp hk with rfl | hk
    · have hself : (some k).all (fun a => decide (a < k)) = false := decide_eq_false (lt_irrefl k)
      rw [hself, hkP, if_neg Bool.false_ne_true, if_pos rfl]
      exact Nat.lt_succ_of_le (hmono keys)
    · have hx := hmono [x]
      rw [countAfter, countAfter, countP_singleton, countP_singleton] at hx
      have := ih hk
      rw [countAfter, countAfter] at this
      omega

theorem countAfter_le_length {keys : List κ} : countAfter keys after ≤ keys.length :=
  countP_le_length

/-- Handling a row changes no other row, and afterwards the row is not both selected and bad. -/
def Settles (key : α → κ) (p : α → Bool) (q : α → Prop) (rows rows' : List α) (a : α) : Prop :=
  rows'.map key = rows.map key ∧
    ∀ d ∈ rows', d ∈ rows ∧ key d ≠ key a ∨ key d = key a ∧ (p d = true → ¬q d)

omit [LinearOrder κ] in
theorem settles_updateWhere {q : α → Prop} {a : α} {c : α → Bool} {f : α → α}
    (hc : ∀ r ∈ rows, c r = true → key r = key a)
    (hf : ∀ r ∈ rows, c r = true → key (f r) = key r ∧ (p (f r) = true → ¬q (f r)))
    (hrest : ∀ r ∈ rows, c r = false → key r = key a → p r = true → ¬q r) :
    Settles key p q rows (Table.updateWhere c f rows) a := by
  constructor
  · rw [Table.updateWhere, map_map]
    refine map_congr_left fun r hr => ?_
    by_cases hcr : c r = true
    · rw [Function.comp_apply, if_pos hcr, (hf r hr hcr).1]
    · rw [Function.comp_apply, if_neg hcr]
  · intro d hd
    obtain ⟨r, hr, rfl⟩ := Table.mem_updateWhere.mp hd
    split_ifs with hcr
    · exact Or.inr ⟨(hf r hr hcr).1.trans (hc r hr hcr), (hf r hr hcr).2⟩
    · by_cases hkey : key r = key a
      · exact Or.inr ⟨hkey, hrest r hr (Bool.not_eq_true _ ▸ hcr) hkey⟩
      · exact Or.inl ⟨hr, hkey⟩

omit [LinearOrder κ] in
theorem mem_of_settles {q : α → Prop} {rows' : List α} {a b : α} (hkeys : (rows.map key).Nodup)
    (h : Settles key p q rows rows' a) (hb : b ∈ rows) (hne : key b ≠ key a) : b ∈ rows' := by
  have hkey : key b ∈ rows'.map key := h.1 ▸ mem_map_of_mem hb
  obtain ⟨d, hd, hdb⟩ := mem_map.mp hkey
  rcases h.2 d hd with ⟨hold, -⟩ | ⟨hda, -⟩
  · exact inj_on_of_nodup_map hkeys hold hb hdb ▸ hd
  · exact absurd (hdb.symm.trans hda) hne

variable {q : α → Prop} (rowsOf : σ → List α)

section Relation

variable {R : σ → σ → Prop} (hrefl : ∀ st, R st st)
  (htrans : ∀ {st st' st''}, R st st' → R st' st'' → R st st'')
  (hstep : ∀ st a st', ((rowsOf st).map key).Nodup → a ∈ rowsOf st → p a = true →
    handle st a = .ok st' → R st st' ∧ Settles key p q (rowsOf st) (rowsOf st') a)

include hrefl htrans hstep

omit [LinearOrder κ] in
theorem foldlM_settles {l : List α} {st st' : σ} (hkeys : ((rowsOf st).map key).Nodup)
    (hl : l.Pairwise fun a b => key a ≠ key b) (hmem : ∀ a ∈ l, a ∈ rowsOf st ∧ p a = true)
    (h : l.foldlM handle st = .ok st') :
    R st st' ∧ (rowsOf st').map key = (rowsOf st).map key ∧
      ∀ d ∈ rowsOf st', p d = true → q d → d ∈ rowsOf st ∧ d ∉ l := by
  induction l generalizing st with
  | nil =>
    cases h
    exact ⟨hrefl st', rfl, fun d hd _ _ => ⟨hd, not_mem_nil⟩⟩
  | cons a l ih =>
    obtain ⟨st₁, ha, h⟩ := of_bind h
    obtain ⟨hal, hl⟩ := pairwise_cons.mp hl
    have hamem := hmem a mem_cons_self
    obtain ⟨hR, hkeys₁, htouch⟩ := hstep st a st₁ hkeys hamem.1 hamem.2 ha
    have hmem₁ : ∀ b ∈ l, b ∈ rowsOf st₁ ∧ p b = true := fun b hb =>
      ⟨mem_of_settles hkeys ⟨hkeys₁, htouch⟩ (hmem b (mem_cons_of_mem a hb)).1 (hal b hb).symm,
        (hmem b (mem_cons_of_mem a hb)).2⟩
    obtain ⟨hR', hkeys', hrest⟩ := ih (hkeys₁ ▸ hkeys) hl hmem₁ h
    refine ⟨htrans hR hR', hkeys'.trans hkeys₁, fun d hd hp hq => ?_⟩
    obtain ⟨hd₁, hdl⟩ := hrest d hd hp hq
    rcases htouch d hd₁ with ⟨hold, hne⟩ | ⟨-, hgood⟩
    · refine ⟨hold, fun hdal => ?_⟩
      rcases mem_cons.mp hdal with rfl | hdl'
      · exact hne rfl
      · exact hdl hdl'
    · exact absurd hq (hgood hp)

/-- **A loop over pages sweeps the table**: at its end no selected row is bad. -/
theorem sweep (hn : 0 < n) {st st' : σ} (hkeys : ((rowsOf st).map key).Nodup)
    (h : batchLoop (fun st => page key p n (rowsOf st)) key handle ((rowsOf st).length + 1) none st =
      .ok st') :
    R st st' ∧ (rowsOf st').map key = (rowsOf st).map key ∧ ∀ d ∈ rowsOf st', p d = true → ¬q d := by
  have hfuel : countAfter ((rowsOf st).map key) none < (rowsOf st).length + 1 := by
    have hle : countAfter ((rowsOf st).map key) none ≤ _ := countAfter_le_length
    rw [length_map] at hle
    omega
  refine batchLoop_rule
    (I := fun after st₁ => R st st₁ ∧ (rowsOf st₁).map key = (rowsOf st).map key ∧
      ∀ d ∈ rowsOf st₁, p d = true → q d → ∀ k, after = some k → k < key d)
    (Q := fun st' => R st st' ∧ (rowsOf st').map key = (rowsOf st).map key ∧
      ∀ d ∈ rowsOf st', p d = true → ¬q d)
    (fun after st₁ => countAfter ((rowsOf st₁).map key) after) ?_ ?_ hfuel
    ⟨hrefl st, rfl, fun _ _ _ _ _ hk => absurd hk (Option.some_ne_none _).symm⟩ h
  · rintro after st₁ ⟨hR₁, hkeys₁, hafter⟩ hnil
    exact ⟨hR₁, hkeys₁, fun d hd hp hq => notMem_of_page_eq_nil hn hnil hd hp (hafter d hd hp hq)⟩
  · rintro after st₁ st₂ last ⟨hR₁, hkeys₁, hafter⟩ hlast hbatch
    have hnodup : ((rowsOf st₁).map key).Nodup := hkeys₁ ▸ hkeys
    have hpage : ∀ a ∈ page key p n (rowsOf st₁) after, a ∈ rowsOf st₁ ∧ p a = true :=
      fun a ha => ⟨(mem_of_mem_page ha).1, (mem_of_mem_page ha).2.1⟩
    obtain ⟨hR₂, hkeys₂, hrest⟩ := foldlM_settles rowsOf hrefl htrans hstep hnodup
      ((ascending_page hnodup).imp ne_of_lt) hpage hbatch
    have hlastmem := mem_of_mem_page (mem_of_getLast? hlast)
    refine ⟨⟨htrans hR₁ hR₂, hkeys₂.trans hkeys₁, ?_⟩, ?_⟩
    · rintro d hd hp hq k hk
      cases hk
      obtain ⟨hold, hout⟩ := hrest d hd hp hq
      exact lt_of_notMem_page hnodup hlast hold hp (hafter d hold hp hq) hout
    · simp only [hkeys₂]
      exact countAfter_lt (mem_map_of_mem hlastmem.1) hlastmem.2.2

end Relation

/-- **A sweep returns** when each row of the table is handled. -/
theorem sweep_isOk
    (hstep : ∀ st a, ((rowsOf st).map key).Nodup → a ∈ rowsOf st → p a = true →
      ∃ st', handle st a = .ok st' ∧ Settles key p q (rowsOf st) (rowsOf st') a)
    (fuel : ℕ) {st : σ} (hkeys : ((rowsOf st).map key).Nodup) :
    ∃ st', batchLoop (fun st => page key p n (rowsOf st)) key handle fuel none st = .ok st' := by
  have hrows : ∀ (l : List α) (st : σ), ((rowsOf st).map key).Nodup →
      (l.Pairwise fun a b => key a ≠ key b) → (∀ a ∈ l, a ∈ rowsOf st ∧ p a = true) →
      ∃ st', l.foldlM handle st = .ok st' ∧ ((rowsOf st').map key).Nodup := by
    intro l
    induction l with
    | nil => exact fun st hkeys _ _ => ⟨st, rfl, hkeys⟩
    | cons a l ih =>
      intro st hkeys hl hmem
      obtain ⟨hal, hl⟩ := pairwise_cons.mp hl
      obtain ⟨hamem, hp⟩ := hmem a mem_cons_self
      obtain ⟨st₁, hst₁, hsettles⟩ := hstep st a hkeys hamem hp
      rw [foldlM_cons, hst₁, ok_bind]
      refine ih st₁ (hsettles.1 ▸ hkeys) hl fun b hb => ?_
      obtain ⟨hbmem, hpb⟩ := hmem b (mem_cons_of_mem a hb)
      exact ⟨mem_of_settles hkeys hsettles hbmem (hal b hb).symm, hpb⟩
  obtain ⟨st', hst', -⟩ := batchLoop_isOk (J := fun st => ((rowsOf st).map key).Nodup)
    (fun after st hst => hrows _ st hst ((ascending_page hst).imp ne_of_lt) fun a ha =>
      ⟨(mem_of_mem_page ha).1, (mem_of_mem_page ha).2.1⟩) fuel none hkeys
  exact ⟨st', hst'⟩

end Sweep

end IpfS3.Batches
