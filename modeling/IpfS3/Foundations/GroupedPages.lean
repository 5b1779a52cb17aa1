import Mathlib

/-!
# Pages of labelled rows

A list of rows carries labels, and a page of at most `m` labels consumes rows until a row would
need label number `m + 1`.  Rows whose label is already on the page are consumed for free, so a
page may consume many more than `m` rows.  `pageSplit` is one such page: the rows it consumes and
the rows it leaves.

The point of the file is what happens when equal labels are adjacent (`Contiguous`).  Then a page
never cuts through a group of equal labels, and reading the pages one after the other gives exactly
the labels of the whole list, each once and in order (`Paginates.labels_flatten`).  The page sizes
may change from page to page.

* `eraseDups_concat`, `nodup_eraseDups`, `eraseDups_sublist`: the list of distinct labels in order
  of first appearance.
* `pageSplit_append`, `length_labels_pageSplit_le`, `pageSplit_rest`: what one page does.
* `Paginates`: following the pages until nothing is left.
-/

namespace IpfS3.GroupedPages

open List

/-! ## Distinct entries in order of appearance -/

section EraseDups

variable {β : Type*} [BEq β] [LawfulBEq β]

theorem nodup_eraseDups (l : List β) : l.eraseDups.Nodup := by
  induction hn : l.length using Nat.strongRecOn generalizing l with
  | ind n ih =>
    cases l with
    | nil => exact nodup_nil
    | cons b l =>
      rw [eraseDups_cons, nodup_cons, mem_eraseDups, mem_filter]
      refine ⟨by simp, ih _ ?_ _ rfl⟩
      rw [← hn, length_cons]
      exact Nat.lt_succ_of_le (length_filter_le _ _)

omit [LawfulBEq β] in
theorem eraseDups_sublist (l : List β) : l.eraseDups.Sublist l := by
  induction hn : l.length using Nat.strongRecOn generalizing l with
  | ind n ih =>
    cases l with
    | nil => exact List.Sublist.slnil
    | cons b l =>
      rw [eraseDups_cons]
      refine List.Sublist.cons_cons b ((ih _ ?_ _ rfl).trans filter_sublist)
      rw [← hn, length_cons]
      exact Nat.lt_succ_of_le (length_filter_le _ _)

theorem eraseDups_concat (l : List β) (b : β) :
    (l ++ [b]).eraseDups = if b ∈ l then l.eraseDups else l.eraseDups ++ [b] := by
  rw [eraseDups_append]
  split_ifs with h
  · simp [removeAll, h]
  · simp [removeAll, h, eraseDups_cons]

theorem eraseDups_append_of_disjoint {l l' : List β} (h : ∀ b ∈ l', b ∉ l) :
    (l ++ l').eraseDups = l.eraseDups ++ l'.eraseDups := by
  rw [eraseDups_append]
  congr 2
  rw [removeAll, filter_eq_self]
  intro b hb
  simpa using h b hb

theorem eraseDups_of_nodup {l : List β} (h : l.Nodup) : l.eraseDups = l := by
  induction l with
  | nil => rfl
  | cons b l ih =>
    rw [nodup_cons] at h
    rw [eraseDups_cons, filter_eq_self.mpr, ih h.2]
    intro c hc
    simpa using fun hcb : c = b => h.1 (hcb ▸ hc)

theorem pairwise_eraseDups {R : β → β → Prop} {l : List β}
    (h : l.Pairwise fun a b => a = b ∨ R a b) : l.eraseDups.Pairwise R := by
  refine (((h.sublist (eraseDups_sublist l)).and (nodup_eraseDups l))).imp ?_
  rintro a b ⟨hab | hab, hne⟩
  · exact absurd hab hne
  · exact hab

omit [BEq β] [LawfulBEq β] in
theorem filterMap_concat {γ : Type*} (f : β → Option γ) (l : List β) (b : β) :
    (l ++ [b]).filterMap f = l.filterMap f ++ (f b).toList := by
  cases h : f b <;> simp [h]

theorem filterMap_eraseDups {γ : Type*} [BEq γ] [LawfulBEq γ] {f : β → Option γ}
    (hf : ∀ a b c, f a = some c → f b = some c → a = b) (l : List β) :
    l.eraseDups.filterMap f = (l.filterMap f).eraseDups := by
  induction l using reverseRecOn with
  | nil => rfl
  | append_singleton l b ih =>
    rw [eraseDups_concat, filterMap_concat]
    cases hb : f b with
    | none =>
      split_ifs
      · rw [ih, Option.toList_none, append_nil]
      · rw [filterMap_concat, hb, ih]
        simp
    | some c =>
      have hmem : c ∈ l.filterMap f ↔ b ∈ l := by
        rw [mem_filterMap]
        exact ⟨fun ⟨a, ha, hac⟩ => hf a b c hac hb ▸ ha, fun h => ⟨b, h, hb⟩⟩
      rw [Option.toList_some, eraseDups_concat]
      simp only [hmem]
      split_ifs
      · exact ih
      · rw [filterMap_concat, hb, ih, Option.toList_some]

end EraseDups

variable {ρ β : Type*} [DecidableEq β] (label : ρ → β)

/-- The labels of some rows, each once and in order. -/
def labels (L : List ρ) : List β := (L.map label).eraseDups

@[simp] theorem labels_nil : labels label ([] : List ρ) = [] := rfl

variable {L : List ρ} {m : ℕ} {r : ρ}

@[simp] theorem mem_labels {b : β} : b ∈ labels label L ↔ ∃ r ∈ L, label r = b := by
  rw [labels, mem_eraseDups, mem_map]

theorem labels_concat (L : List ρ) (r : ρ) :
    labels label (L ++ [r]) =
      if label r ∈ labels label L then labels label L else labels label L ++ [label r] := by
  simp only [labels, map_append, map_singleton, eraseDups_concat, mem_eraseDups]

theorem nodup_labels (L : List ρ) : (labels label L).Nodup := nodup_eraseDups _

/-! ## One page -/

/-- One page of at most `m` labels: the rows it consumes after `seen`, and the rows it leaves. -/
def pageSplit (m : ℕ) : List ρ → List ρ → List ρ × List ρ
  | seen, [] => (seen, [])
  | seen, r :: L =>
    if label r ∈ labels label seen then pageSplit m (seen ++ [r]) L
    else if m ≤ (labels label seen).length then (seen, r :: L)
    else pageSplit m (seen ++ [r]) L

theorem pageSplit_cons_of_room {seen : List ρ}
    (h : label r ∈ labels label seen ∨ (labels label seen).length < m) :
    pageSplit label m seen (r :: L) = pageSplit label m (seen ++ [r]) L := by
  rw [pageSplit]
  split_ifs with h₁ h₂
  · rfl
  · exact absurd (h.resolve_left h₁) h₂.not_gt
  · rfl

theorem pageSplit_cons_of_full {seen : List ρ}
    (h : ¬(label r ∈ labels label seen ∨ (labels label seen).length < m)) :
    pageSplit label m seen (r :: L) = (seen, r :: L) := by
  rw [not_or, not_lt] at h
  rw [pageSplit, if_neg h.1, if_pos h.2]

/-- **A page read in two batches.**  The second batch continues where the first one ended, unless
the page was full by then. -/
theorem pageSplit_append_list (m : ℕ) (seen L L' : List ρ) :
    pageSplit label m seen (L ++ L') =
      if (pageSplit label m seen L).2 = [] then pageSplit label m (seen ++ L) L'
      else ((pageSplit label m seen L).1, (pageSplit label m seen L).2 ++ L') := by
  induction L generalizing seen with
  | nil => simp [pageSplit]
  | cons r L ih =>
    rw [cons_append]
    by_cases hroom : label r ∈ labels label seen ∨ (labels label seen).length < m
    · rw [pageSplit_cons_of_room label hroom, pageSplit_cons_of_room label hroom, ih,
        append_cons seen r L]
    · rw [pageSplit_cons_of_full label hroom, pageSplit_cons_of_full label hroom,
        if_neg (cons_ne_nil r L), cons_append]

/-- **A page consumes rows in order and leaves the others.** -/
theorem pageSplit_append (m : ℕ) (seen L : List ρ) :
    (pageSplit label m seen L).1 ++ (pageSplit label m seen L).2 = seen ++ L := by
  induction L generalizing seen with
  | nil => rfl
  | cons r L ih =>
    rw [pageSplit]
    split_ifs with h₁ h₂
    · rw [ih, append_assoc, singleton_append]
    · rfl
    · rw [ih, append_assoc, singleton_append]

theorem pageSplit_eq_append {seen : List ρ} (h : (pageSplit label m seen L).2 = []) :
    (pageSplit label m seen L).1 = seen ++ L := by
  rw [← pageSplit_append label m seen L, h, append_nil]

/-- **A page has at most `m` labels.** -/
theorem length_labels_pageSplit_le {seen : List ρ} (L : List ρ)
    (h : (labels label seen).length ≤ m) :
    (labels label (pageSplit label m seen L).1).length ≤ m := by
  induction L generalizing seen with
  | nil => exact h
  | cons r L ih =>
    rw [pageSplit]
    split_ifs with h₁ h₂
    · refine ih ?_
      rw [labels_concat, if_pos h₁]
      exact h
    · exact h
    · refine ih ?_
      rw [labels_concat, if_neg h₁, length_append, length_singleton]
      omega

/-- **A page that leaves rows is full**, and the first row it leaves carries a new label. -/
theorem pageSplit_rest {seen R : List ρ} (h : (pageSplit label m seen L).2 = r :: R) :
    label r ∉ labels label (pageSplit label m seen L).1 ∧
      m ≤ (labels label (pageSplit label m seen L).1).length := by
  induction L generalizing seen with
  | nil => exact absurd h (cons_ne_nil r R).symm
  | cons a L ih =>
    rw [pageSplit] at h ⊢
    split_ifs at h ⊢ with h₁ h₂
    · exact ih h
    · obtain ⟨rfl, rfl⟩ := cons.inj h
      exact ⟨h₁, h₂⟩
    · exact ih h

theorem isPrefix_pageSplit (m : ℕ) (seen L : List ρ) : seen <+: (pageSplit label m seen L).1 := by
  induction L generalizing seen with
  | nil => exact prefix_rfl
  | cons r L ih =>
    rw [pageSplit]
    split_ifs
    · exact (prefix_append seen [r]).trans (ih _)
    · exact prefix_rfl
    · exact (prefix_append seen [r]).trans (ih _)

theorem pageSplit_ne_nil (hm : 1 ≤ m) (r : ρ) (L : List ρ) :
    (pageSplit label m [] (r :: L)).1 ≠ [] := by
  have h : pageSplit label m [] (r :: L) = pageSplit label m [r] L := by
    rw [pageSplit, if_neg (by simp), if_neg (by simp; omega)]
    rfl
  rw [h]
  intro hnil
  have := isPrefix_pageSplit label m [r] L
  rw [hnil, prefix_nil] at this
  exact cons_ne_nil r [] this

/-! ## Contiguous labels -/

/-- Equal labels are adjacent: a row with a new label closes every earlier group. -/
def Contiguous (L : List ρ) : Prop :=
  ∀ A r B, L = A ++ r :: B → label r ∉ labels label A → ∀ x ∈ r :: B, label x ∉ labels label A

theorem contiguous_of_between
    (h : ∀ a r x, List.Sublist [a, r, x] L → label a = label x → label r = label a) :
    Contiguous label L := by
  rintro A r B rfl hr x hx hmem
  obtain ⟨a, ha, hax⟩ := (mem_labels label).mp hmem
  rcases mem_cons.mp hx with rfl | hx
  · exact hr hmem
  · refine hr ((mem_labels label).mpr ⟨a, ha, (h a r x ?_ hax).symm⟩)
    exact (singleton_sublist.mpr ha).append
      ((singleton_sublist.mpr hx).cons_cons r)

theorem Contiguous.of_append_right {A : List ρ} (h : Contiguous label (A ++ L))
    (hA : ∀ r ∈ L, label r ∉ labels label A) : Contiguous label L := by
  rintro B r C rfl hr x hx hmem
  have hnot : label r ∉ labels label (A ++ B) := by
    rw [mem_labels] at hr ⊢
    rintro ⟨y, hy, hyr⟩
    rcases mem_append.mp hy with hy | hy
    · exact hA r (by simp) ((mem_labels label).mpr ⟨y, hy, hyr⟩)
    · exact hr ⟨y, hy, hyr⟩
  obtain ⟨y, hy, hyx⟩ := (mem_labels label).mp hmem
  exact h (A ++ B) r C (by rw [append_assoc]) hnot x hx
    ((mem_labels label).mpr ⟨y, mem_append_right A hy, hyx⟩)

theorem Contiguous.labels_append {A B : List ρ} (h : Contiguous label (A ++ r :: B))
    (hr : label r ∉ labels label A) :
    labels label (A ++ r :: B) = labels label A ++ labels label (r :: B) := by
  rw [labels, map_append, eraseDups_append_of_disjoint]
  · rfl
  · intro b hb hmem
    obtain ⟨x, hx, rfl⟩ := mem_map.mp hb
    exact h A r B rfl hr x hx ((mem_labels label).mpr (mem_map.mp hmem))

/-! ## Following the pages -/

/-- `Paginates label m L pages`: reading `L` page by page, page number `i` having room for `m i`
labels, consumes the rows of `pages` one after the other and leaves nothing. -/
inductive Paginates : (ℕ → ℕ) → List ρ → List (List ρ) → Prop
  | last {m : ℕ → ℕ} {L : List ρ} (h : (pageSplit label (m 0) [] L).2 = []) :
      Paginates m L [(pageSplit label (m 0) [] L).1]
  | more {m : ℕ → ℕ} {L R : List ρ} {r : ρ} {pages : List (List ρ)}
      (h : (pageSplit label (m 0) [] L).2 = r :: R)
      (tail : Paginates (fun i => m (i + 1)) (r :: R) pages) :
      Paginates m L ((pageSplit label (m 0) [] L).1 :: pages)

variable {label}

/-- **The pages together show every label once, in order.** -/
theorem Paginates.labels_flatten {m : ℕ → ℕ} {pages : List (List ρ)}
    (h : Paginates label m L pages) (hL : Contiguous label L) :
    (pages.map (labels label)).flatten = labels label L := by
  induction h with
  | @last m L hrest =>
    have happ := pageSplit_append label (m 0) [] L
    rw [hrest, append_nil, nil_append] at happ
    simp [happ]
  | @more m L R r pages hrest tail ih =>
    have happ := pageSplit_append label (m 0) [] L
    rw [hrest, nil_append] at happ
    have hnew := (pageSplit_rest label hrest).1
    rw [← happ] at hL
    have htail : Contiguous label (r :: R) :=
      hL.of_append_right label fun x hx => hL _ r R rfl hnew x hx
    rw [map_cons, flatten_cons, ih htail, ← hL.labels_append label hnew, happ]

end IpfS3.GroupedPages
