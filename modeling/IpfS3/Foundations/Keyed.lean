import IpfS3.Foundations.Table

/-!
# Tables with a primary key

A table whose rows have distinct keys.  A statement that does not write the key acts on each row by
itself, so the row of a key after an update is the update of the row of that key (`get_update`).  A
compare-and-set names its row by the key and by what it expects of it; the number of rows it affects
says whether the row was as expected (`affected_eq_one_iff`).
-/

namespace IpfS3.Table

open List Option

/-- Rows with distinct keys. -/
structure Keyed {α κ : Type*} (key : α → κ) where
  rows : List α
  nodup : (rows.map key).Nodup

namespace Keyed

variable {α κ : Type*} {key : α → κ}

/-- The table without rows. -/
def empty : Keyed key := ⟨[], nodup_nil⟩

/-- `UPDATE … WHERE`, of columns outside the key. -/
def update (p : α → Bool) (f : α → α) (hf : ∀ a, key (f a) = key a) (t : Keyed key) : Keyed key where
  rows := updateWhere p f t.rows
  nodup := by
    rw [map_updateWhere fun a _ => hf a]
    exact t.nodup

/-- `DELETE … WHERE`. -/
def delete (p : α → Bool) (t : Keyed key) : Keyed key where
  rows := t.rows.filter fun a => !p a
  nodup := (filter_sublist.map key).nodup t.nodup

/-- The number of rows that a statement with a condition affects. -/
def affected (p : α → Bool) (t : Keyed key) : ℕ := t.rows.countP p

variable [DecidableEq κ]

/-- The row of a key. -/
def get (t : Keyed key) (k : κ) : Option α := t.rows.find? fun a => decide (key a = k)

variable {a : α} {k : κ} {t : Keyed key} {p : α → Bool}

theorem mem_of_get (h : t.get k = some a) : a ∈ t.rows :=
  mem_of_find?_eq_some h

theorem key_of_get (h : t.get k = some a) : key a = k := by
  have hfound := find?_some h
  exact of_decide_eq_true hfound

theorem get_of_mem (h : a ∈ t.rows) : t.get (key a) = some a := by
  cases hget : t.get (key a) with
  | none =>
    exact absurd rfl (of_decide_eq_false (Bool.eq_false_iff.mpr (find?_eq_none.mp hget a h)))
  | some b => rw [inj_on_of_nodup_map t.nodup (mem_of_get hget) h (key_of_get hget)]

theorem get_eq_some_iff :
    t.get k = some a ↔ a ∈ t.rows ∧ key a = k := by
  constructor
  · exact fun h => ⟨mem_of_get h, key_of_get h⟩
  · rintro ⟨h, rfl⟩
    exact get_of_mem h

theorem get_eq_none_iff : t.get k = none ↔ ∀ a ∈ t.rows, key a ≠ k := by
  rw [get, find?_eq_none]
  simp

theorem find?_eq_filter_get (hp : ∀ a, p a = true → key a = k) (t : Keyed key) :
    t.rows.find? p = (t.get k).filter p := by
  cases hfind : t.rows.find? p with
  | some a =>
    have hpa := find?_some hfind
    have hget : t.get k = some a :=
      get_eq_some_iff.mpr ⟨mem_of_find?_eq_some hfind, hp a hpa⟩
    rw [hget, filter_some, if_pos hpa]
  | none =>
    cases hget : t.get k with
    | none => rfl
    | some a =>
      have hpa : ¬p a = true := find?_eq_none.mp hfind a (mem_of_get hget)
      rw [filter_some, if_neg hpa]

/-- **An update acts on each row by itself.** -/
theorem get_update {f : α → α} (hf : ∀ a, key (f a) = key a) (t : Keyed key) (k : κ) :
    (t.update p f hf).get k = (t.get k).map fun a => if p a then f a else a := by
  have hkey : ∀ a, key (if p a then f a else a) = key a := by
    intro a
    split_ifs
    · exact hf a
    · rfl
  cases h : t.get k with
  | none =>
    rw [map_none, get_eq_none_iff]
    intro b hb
    obtain ⟨a, ha, rfl⟩ := mem_updateWhere.mp hb
    rw [hkey]
    exact get_eq_none_iff.mp h a ha
  | some a =>
    obtain ⟨hmem, rfl⟩ := get_eq_some_iff.mp h
    rw [map_some, get_eq_some_iff]
    exact ⟨mem_updateWhere.mpr ⟨a, hmem, rfl⟩, hkey a⟩

/-- **A deletion acts on each row by itself.** -/
theorem get_delete (t : Keyed key) (k : κ) :
    (t.delete p).get k = (t.get k).filter fun a => !p a := by
  cases h : t.get k with
  | none =>
    rw [filter_none, get_eq_none_iff]
    exact fun a ha => get_eq_none_iff.mp h a (mem_of_mem_filter ha)
  | some a =>
    obtain ⟨hmem, rfl⟩ := get_eq_some_iff.mp h
    rw [filter_some]
    split_ifs with hp
    · exact get_of_mem (mem_filter.mpr ⟨hmem, hp⟩)
    · rw [get_eq_none_iff]
      intro b hb hkey
      obtain ⟨hb, hpb⟩ := mem_filter.mp hb
      obtain rfl := inj_on_of_nodup_map t.nodup hb hmem hkey
      exact hp hpb

theorem affected_eq_one_iff (hp : ∀ a, p a = true → key a = k) (t : Keyed key) :
    t.affected p = 1 ↔ ∃ a, t.get k = some a ∧ p a = true := by
  constructor
  · intro h
    obtain ⟨a, ha⟩ := exists_filter_eq_singleton h
    have hmem : a ∈ t.rows.filter p := by
      rw [ha]
      exact mem_singleton_self a
    obtain ⟨hmem, hpa⟩ := mem_filter.mp hmem
    exact ⟨a, get_eq_some_iff.mpr ⟨hmem, hp a hpa⟩, hpa⟩
  · rintro ⟨a, ha, hpa⟩
    obtain ⟨hmem, -⟩ := get_eq_some_iff.mp ha
    have hle : t.affected p ≤ 1 := by
      have hsub : ((t.rows.filter p).map key).Sublist (t.rows.map key) := filter_sublist.map key
      have hnodup : ((t.rows.filter p).map key).Nodup := hsub.nodup t.nodup
      have hreplicate : (t.rows.filter p).map key = replicate (t.rows.filter p).length k :=
        eq_replicate_iff.mpr ⟨length_map key, fun x hx => by
          obtain ⟨b, hb, rfl⟩ := mem_map.mp hx
          exact hp b (mem_filter.mp hb).2⟩
      rw [hreplicate, nodup_replicate] at hnodup
      rwa [affected, countP_eq_length_filter]
    have hpos : 0 < t.affected p := countP_pos_iff.mpr ⟨a, hmem, hpa⟩
    omega

/-- `INSERT` of a row whose key is free. -/
def insert (a : α) (t : Keyed key) (h : t.get (key a) = none) : Keyed key where
  rows := t.rows ++ [a]
  nodup := by
    rw [map_append, map_singleton, nodup_append]
    refine ⟨t.nodup, nodup_singleton _, fun k hk k' hk' => ?_⟩
    obtain ⟨b, hb, rfl⟩ := mem_map.mp hk
    obtain rfl := mem_singleton.mp hk'
    exact get_eq_none_iff.mp h b hb

theorem get_insert (h : t.get (key a) = none) (k : κ) :
    (t.insert a h).get k = if key a = k then some a else t.get k := by
  split_ifs with hk
  · subst hk
    exact get_eq_some_iff.mpr ⟨mem_append_right _ (mem_singleton_self a), rfl⟩
  · have hnone : [a].find? (fun b => decide (key b = k)) = none := by
      rw [find?_eq_none]
      intro b hb
      obtain rfl := mem_singleton.mp hb
      simpa using hk
    rw [get, insert, find?_append, hnone, or_none]
    rfl

end Keyed
end IpfS3.Table
