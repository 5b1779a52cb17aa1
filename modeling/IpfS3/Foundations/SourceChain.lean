import IpfS3.Foundations.Keyset

/-!
# Chains of sources

Rows are read from several sources, one after the other, and each source is in the order of its
keys.  Tagged with their source, the rows of all sources form one list, which is in the
lexicographic order of the rank of the source and the key of the row.  So a cursor that names a
source and a key is a keyset cursor of the whole chain: the rows after it are those of its source
after its key and all rows of the later sources (`after_chain_cons`, `after_chain_skip`), and what
`Keyset` says of one list holds for the chain.
-/

namespace IpfS3.SourceChain

open Keyset

variable {σ ρ ι κ : Type*} [LinearOrder ι] [LinearOrder κ]

/-- The place of a tagged row in the chain. -/
def position (rank : σ → ι) (key : ρ → κ) (entry : σ × ρ) : ι ×ₗ κ :=
  toLex (rank entry.1, key entry.2)

/-- The rows of the sources, in the order of the sources, each with its source. -/
def chain (rows : σ → List ρ) (sources : List σ) : List (σ × ρ) :=
  sources.flatMap fun s => (rows s).map (Prod.mk s)

variable {rank : σ → ι} {key : ρ → κ} {rows : σ → List ρ}

theorem chain_cons (s : σ) (sources : List σ) :
    chain rows (s :: sources) = (rows s).map (Prod.mk s) ++ chain rows sources :=
  List.flatMap_cons

variable {sources : List σ}

theorem mem_chain {entry : σ × ρ} :
    entry ∈ chain rows sources ↔ entry.1 ∈ sources ∧ entry.2 ∈ rows entry.1 := by
  obtain ⟨s, r⟩ := entry
  rw [chain, List.mem_flatMap]
  constructor
  · rintro ⟨s', hs', hmem⟩
    obtain ⟨r', hr', heq⟩ := List.mem_map.mp hmem
    obtain ⟨rfl, rfl⟩ := Prod.mk.inj heq
    exact ⟨hs', hr'⟩
  · rintro ⟨hs, hr⟩
    exact ⟨s, hs, List.mem_map.mpr ⟨r, hr, rfl⟩⟩

@[simp] theorem map_snd_chain (sources : List σ) :
    (chain rows sources).map Prod.snd = sources.flatMap rows := by
  induction sources with
  | nil => rfl
  | cons s sources ih =>
    rw [chain_cons, List.map_append, ih, List.map_map, List.flatMap_cons]
    congr 1
    exact List.map_id (rows s)

theorem chain_isEmpty (sources : List σ) :
    (chain rows sources).isEmpty = sources.all fun s => (rows s).isEmpty := by
  induction sources with
  | nil => rfl
  | cons s sources ih =>
    rw [List.all_cons, ← ih, chain_cons, Bool.eq_iff_iff]
    simp

theorem position_lt_iff {a b : σ × ρ} : position rank key a < position rank key b ↔
    rank a.1 < rank b.1 ∨ rank a.1 = rank b.1 ∧ key a.2 < key b.2 := by
  rw [position, position, Prod.Lex.toLex_lt_toLex]

/-- **A chain of ascending sources is ascending.** -/
theorem ascending_chain (hsources : sources.Pairwise fun s t => rank s < rank t)
    (hrows : ∀ s ∈ sources, Ascending key (rows s)) :
    Ascending (position rank key) (chain rows sources) := by
  induction sources with
  | nil => exact List.Pairwise.nil
  | cons s sources ih =>
    obtain ⟨hlater, hsources⟩ := List.pairwise_cons.mp hsources
    obtain ⟨hs, hrows⟩ := List.forall_mem_cons.mp hrows
    rw [chain_cons, Ascending, List.pairwise_append]
    refine ⟨List.pairwise_map.mpr (List.Pairwise.imp ?_ hs), ih hsources hrows, ?_⟩
    · intro a b hab
      exact position_lt_iff.mpr (Or.inr ⟨rfl, hab⟩)
    · intro a ha b hb
      obtain ⟨r, -, rfl⟩ := List.mem_map.mp ha
      exact position_lt_iff.mpr (Or.inl (hlater b.1 (mem_chain.mp hb).1))

theorem after_map_mk (rank : σ → ι) (key : ρ → κ) (s : σ) (k : κ) (L : List ρ) :
    after (position rank key) (some (toLex (rank s, k))) (L.map (Prod.mk s)) =
      (after key (some k) L).map (Prod.mk s) := by
  rw [after, after, List.filter_map]
  congr 1
  refine List.filter_congr fun r _ => ?_
  simp [position, Prod.Lex.toLex_lt_toLex]

theorem after_chain_later (key : ρ → κ) (rows : σ → List ρ) {s : σ}
    (hlater : ∀ t ∈ sources, rank s < rank t) (k : κ) :
    after (position rank key) (some (toLex (rank s, k))) (chain rows sources) =
      chain rows sources := by
  refine List.filter_eq_self.mpr fun entry hentry => ?_
  have hlt := hlater entry.1 (mem_chain.mp hentry).1
  simp [position, Prod.Lex.toLex_lt_toLex, hlt]

/-- **A cursor in the first source** leaves the rest of that source and all later ones. -/
theorem after_chain_cons {s : σ} (hlater : ∀ t ∈ sources, rank s < rank t) (k : κ) :
    after (position rank key) (some (toLex (rank s, k))) (chain rows (s :: sources)) =
      (after key (some k) (rows s)).map (Prod.mk s) ++ chain rows sources := by
  have hsource := after_map_mk rank key s k (rows s)
  have hrest := after_chain_later key rows hlater k
  rw [after] at hsource hrest ⊢
  rw [chain_cons, List.filter_append, hsource, hrest]

/-- **A cursor in a later source** leaves nothing of the first one. -/
theorem after_chain_skip {s t : σ} (h : rank s < rank t) (sources : List σ) (k : κ) :
    after (position rank key) (some (toLex (rank t, k))) (chain rows (s :: sources)) =
      after (position rank key) (some (toLex (rank t, k))) (chain rows sources) := by
  have hnone : ((rows s).map (Prod.mk s)).filter
      (fun r => (some (toLex (rank t, k))).all fun x => decide (x < position rank key r)) = [] := by
    refine List.filter_eq_nil_iff.mpr fun entry hentry => ?_
    obtain ⟨r, -, rfl⟩ := List.mem_map.mp hentry
    simp [position, Prod.Lex.toLex_lt_toLex, h.le, h.ne']
  rw [after, chain_cons, List.filter_append, hnone, List.nil_append, after]

end IpfS3.SourceChain
