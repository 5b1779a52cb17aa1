import Mathlib

/-!
# Rows of a table

Statements on a table, as functions on the list of its rows: `updateWhere` and `deleteWhere` change
the rows that meet a condition.  A selection by columns that a statement does not write commutes with
it (`filter_updateWhere`, `filter_deleteWhere`), so what a statement does to one group of rows can be
read off that group alone, and it leaves every other group as it was.

* `exists_filter_eq_singleton`: a count of one names its row.
* `greatest`: the row that comes first in descending order of a column.
* `filter_updateWhere_of_disjoint`: rows outside the condition are framed.
-/

namespace IpfS3.Table

open List

variable {α β : Type*}

/-- `UPDATE … WHERE`. -/
def updateWhere (p : α → Bool) (f : α → α) (rows : List α) : List α :=
  rows.map fun r => if p r then f r else r

/-- `DELETE … WHERE`. -/
def deleteWhere (p : α → Bool) (rows : List α) : List α := rows.filter fun r => !p r

variable {p q : α → Bool} {f : α → α} {rows : List α}

theorem mem_updateWhere {b : α} :
    b ∈ updateWhere p f rows ↔ ∃ a ∈ rows, (if p a then f a else a) = b := mem_map

theorem mem_deleteWhere {a : α} : a ∈ deleteWhere p rows ↔ a ∈ rows ∧ p a = false := by
  rw [deleteWhere, mem_filter, Bool.not_eq_true']

theorem forall₂_updateWhere {R : α → α → Prop} (hrefl : ∀ r, R r r)
    (h : ∀ r ∈ rows, p r = true → R r (f r)) : List.Forall₂ R rows (updateWhere p f rows) := by
  refine forall₂_map_right_iff.mpr (forall₂_same.mpr fun r hr => ?_)
  split_ifs with hp
  · exact h r hr hp
  · exact hrefl r

theorem map_updateWhere {g : α → β} (hg : ∀ r, p r = true → g (f r) = g r) :
    (updateWhere p f rows).map g = rows.map g := by
  rw [updateWhere, map_map]
  refine map_congr_left fun r _ => ?_
  by_cases hr : p r = true
  · simp only [Function.comp_apply, if_pos hr, hg r hr]
  · simp only [Function.comp_apply, if_neg hr]

theorem filter_updateWhere (hq : ∀ r ∈ rows, p r = true → q (f r) = q r) :
    (updateWhere p f rows).filter q = updateWhere p f (rows.filter q) := by
  rw [updateWhere, updateWhere, filter_map]
  congr 1
  refine filter_congr fun r hmem => ?_
  by_cases hr : p r = true
  · simp only [Function.comp_apply, if_pos hr, hq r hmem hr]
  · simp only [Function.comp_apply, if_neg hr]

theorem countP_updateWhere (hq : ∀ r ∈ rows, p r = true → q (f r) = q r) :
    (updateWhere p f rows).countP q = rows.countP q := by
  rw [countP_eq_length_filter, countP_eq_length_filter, filter_updateWhere hq,
    updateWhere, length_map]

theorem updateWhere_of_forall_not (h : ∀ r ∈ rows, p r = false) : updateWhere p f rows = rows := by
  refine (map_congr_left fun r hr => ?_).trans (map_id rows)
  simp [h r hr]

theorem not_of_mem_updateWhere (h : ∀ r, p (f r) = false) {b : α} (hb : b ∈ updateWhere p f rows) :
    p b = false := by
  obtain ⟨a, -, rfl⟩ := mem_updateWhere.mp hb
  split_ifs with ha
  · exact h a
  · exact Bool.eq_false_iff.mpr ha

theorem updateWhere_append (rows rows' : List α) :
    updateWhere p f (rows ++ rows') = updateWhere p f rows ++ updateWhere p f rows' :=
  map_append

/-- **Frame**: rows that do not meet the condition, and that no updated row joins. -/
theorem filter_updateWhere_of_disjoint
    (hq : ∀ r ∈ rows, p r = true → q r = false ∧ q (f r) = false) :
    (updateWhere p f rows).filter q = rows.filter q := by
  rw [filter_updateWhere fun r hmem hr => (hq r hmem hr).2.trans (hq r hmem hr).1.symm]
  refine updateWhere_of_forall_not fun r hr => ?_
  obtain ⟨hmem, hqr⟩ := mem_filter.mp hr
  by_contra hp
  have hfalse := (hq r hmem (by simpa using hp)).1
  rw [hqr] at hfalse
  cases hfalse

theorem filter_updateWhere_eq_map (hf : ∀ r ∈ rows, p r = true → q (f r) = true)
    (hq : ∀ r ∈ rows, p r = false → q r = false) :
    (updateWhere p f rows).filter q = (rows.filter p).map f := by
  induction rows with
  | nil => rfl
  | cons r rows ih =>
    have ih := ih (fun a ha => hf a (mem_cons_of_mem r ha))
      fun a ha => hq a (mem_cons_of_mem r ha)
    rw [updateWhere] at ih ⊢
    rw [map_cons]
    by_cases hr : p r = true
    · rw [if_pos hr, filter_cons_of_pos (hf r mem_cons_self hr),
        filter_cons_of_pos hr, map_cons, ih]
    · have hqr := hq r mem_cons_self (by simpa using hr)
      rw [if_neg hr, filter_cons_of_neg (by rw [hqr]; exact Bool.false_ne_true),
        filter_cons_of_neg hr, ih]

theorem filter_deleteWhere :
    (deleteWhere p rows).filter q = deleteWhere p (rows.filter q) := filter_comm _ _ _

theorem deleteWhere_of_forall_not (h : ∀ r ∈ rows, p r = false) : deleteWhere p rows = rows := by
  rw [deleteWhere, filter_eq_self]
  intro r hr
  rw [h r hr, Bool.not_false]

theorem deleteWhere_sublist : (deleteWhere p rows).Sublist rows := filter_sublist

theorem exists_filter_eq_singleton (h : rows.countP p = 1) : ∃ a, rows.filter p = [a] := by
  rw [countP_eq_length_filter] at h
  exact length_eq_one_iff.mp h

theorem eq_of_filter_eq_singleton {a b : α} (h : rows.filter p = [a]) (hb : b ∈ rows)
    (hpb : p b = true) : b = a := by
  have hmem : b ∈ rows.filter p := mem_filter.mpr ⟨hb, hpb⟩
  rw [h] at hmem
  exact mem_singleton.mp hmem

theorem countP_eq_one_of_nodup {key : α → β} (h : (rows.map key).Nodup) {a : α} (ha : a ∈ rows)
    (hpa : p a = true) (hp : ∀ r ∈ rows, p r = true → key r = key a) : rows.countP p = 1 := by
  have hself : rows.filter p ⊆ [a] := by
    intro r hr
    obtain ⟨hmem, hpr⟩ := mem_filter.mp hr
    exact mem_singleton.mpr (inj_on_of_nodup_map h hmem ha (hp r hmem hpr))
  have hnodup : (rows.filter p).Nodup := (List.Nodup.of_map key h).filter p
  have hle : (rows.filter p).length ≤ 1 := (hnodup.subperm hself).length_le
  have hpos : 0 < rows.countP p := countP_pos_iff.mpr ⟨a, ha, hpa⟩
  rw [← countP_eq_length_filter] at hle
  omega

theorem find?_of_nodup [BEq β] [LawfulBEq β] {key : α → β} (h : (rows.map key).Nodup) {a : α}
    (ha : a ∈ rows) : rows.find? (fun r => key r == key a) = some a := by
  cases hfind : rows.find? fun r => key r == key a with
  | none => exact absurd (beq_self_eq_true (key a)) (find?_eq_none.mp hfind a ha)
  | some b =>
    have hkey := find?_some hfind
    rw [inj_on_of_nodup_map h (mem_of_find?_eq_some hfind) ha (beq_iff_eq.mp hkey)]

/-- `ORDER BY key DESC LIMIT 1`. -/
def greatest {κ : Type*} [LinearOrder κ] (key : α → κ) (rows : List α) : Option α := rows.argmax key

section Greatest

variable {κ : Type*} [LinearOrder κ] {key : α → κ} {a : α}

theorem greatest_eq_none_iff : greatest key rows = none ↔ rows = [] := argmax_eq_none

theorem mem_of_greatest (h : greatest key rows = some a) : a ∈ rows := argmax_mem h

theorem le_of_greatest (h : greatest key rows = some a) {b : α} (hb : b ∈ rows) :
    key b ≤ key a := le_of_mem_argmax hb h

theorem greatest_eq_some (ha : a ∈ rows) (h : ∀ b ∈ rows, b ≠ a → key b < key a) :
    greatest key rows = some a := by
  cases hgreatest : greatest key rows with
  | none =>
    rw [greatest_eq_none_iff.mp hgreatest] at ha
    cases ha
  | some b =>
    by_contra hne
    have hlt := h b (mem_of_greatest hgreatest) fun heq => hne (congrArg some heq)
    exact absurd (le_of_greatest hgreatest ha) (not_le.mpr hlt)

end Greatest

end IpfS3.Table
