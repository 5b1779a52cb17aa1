import IpfS3.Foundations.Keyset
import IpfS3.Foundations.Table

/-!
# Retention of the newest rows

Rows are removed one at a time, each when it is due and more than `n` rows are newer.  Such a removal
never changes which of the other rows have more than `n` newer rows
(`lt_newerCount_deleteWhere_iff`): a row that loses a newer row had at least `n + 2` of them.  So the
rows that survive until nothing can be removed do not depend on the order of the removals
(`Trimmed.eq_filter`): they are the `n + 1` newest rows and those that are not due.
-/

namespace IpfS3.Retention

open Keyset Table List

variable {α κ : Type*} [LinearOrder κ] (rank : α → κ)

/-- The number of rows that are newer than a row. -/
def newerCount (rows : List α) (a : α) : ℕ := rows.countP fun b => decide (rank a < rank b)

def newest (count : ℕ) (rows : List α) : List α :=
  (sortBy (fun a => OrderDual.toDual (rank a)) rows).take count

theorem mem_take_iff_of_ascending {key : α → κ} {rows : List α} (h : Ascending key rows) {a : α}
    {count : ℕ} (ha : a ∈ rows) :
    a ∈ rows.take count ↔ rows.countP (fun b => decide (key b < key a)) < count := by
  obtain ⟨before, later, rfl⟩ := append_of_mem ha
  have hnodup := h.nodup
  rw [Ascending, pairwise_append, pairwise_cons] at h
  obtain ⟨-, ⟨hlater, -⟩, hbefore⟩ := h
  have hcount : (before ++ a :: later).countP (fun b => decide (key b < key a)) =
      before.length := by
    rw [countP_append, countP_cons,
      countP_eq_length.mpr fun b hb => decide_eq_true (hbefore b hb a mem_cons_self),
      countP_eq_zero.mpr fun b hb => by simpa using (hlater b hb).le]
    simp
  rw [hcount]
  constructor
  · intro hmem
    by_contra hle
    rw [take_append_of_le_length (not_lt.mp hle)] at hmem
    have hdisjoint := (nodup_append.mp hnodup).2.2
    exact hdisjoint a (mem_of_mem_take hmem) a mem_cons_self rfl
  · intro hlt
    rw [take_append, mem_append]
    obtain ⟨k, hk⟩ : ∃ k, count - before.length = k + 1 := ⟨count - before.length - 1, by omega⟩
    rw [hk, take_succ_cons]
    exact Or.inr mem_cons_self

theorem mem_newest_iff {rows : List α} (h : rows.Pairwise fun a b => rank a ≠ rank b) {count : ℕ}
    {a : α} : a ∈ newest rank count rows ↔ a ∈ rows ∧ newerCount rank rows a < count := by
  have hperm := sortBy_perm (fun a => OrderDual.toDual (rank a)) rows
  have hsorted : Ascending (fun a => OrderDual.toDual (rank a))
      (sortBy (fun a => OrderDual.toDual (rank a)) rows) :=
    ascending_sortBy _ (h.imp fun hne heq => hne (OrderDual.toDual.injective heq))
  unfold newest newerCount
  rw [← hperm.countP_eq]
  constructor
  · intro hmem
    have ha := mem_of_mem_take hmem
    exact ⟨hperm.mem_iff.mp ha, (mem_take_iff_of_ascending hsorted ha).mp hmem⟩
  · rintro ⟨ha, hlt⟩
    exact (mem_take_iff_of_ascending hsorted (hperm.mem_iff.mpr ha)).mpr hlt

variable {rank} {n : ℕ} {rows survivors : List α} {p : α → Bool} {a b : α}

theorem countP_deleteWhere (q : α → Bool) (ha : rows.filter p = [a]) :
    rows.countP q = (deleteWhere p rows).countP q + if q a then 1 else 0 := by
  have hsplit : rows.countP q = (rows.filter p).countP q + (deleteWhere p rows).countP q := by
    rw [deleteWhere, countP_eq_length_filter, countP_eq_length_filter,
      countP_eq_length_filter, filter_filter, filter_filter,
      ← length_append]
    have hperm := filter_append_perm p (rows.filter q)
    rw [filter_filter, filter_filter] at hperm
    rw [← hperm.length_eq]
    simp only [Bool.and_comm]
  rw [hsplit, ha, countP_singleton]
  omega

theorem newerCount_lt (ha : a ∈ rows) (hlt : rank b < rank a) :
    newerCount rank rows a < newerCount rank rows b := by
  obtain ⟨before, later, rfl⟩ := append_of_mem ha
  unfold newerCount
  rw [countP_append, countP_append, countP_cons, countP_cons,
    if_neg (by simp), if_pos (decide_eq_true hlt)]
  have hbefore : before.countP (fun c => decide (rank a < rank c)) ≤
      before.countP fun c => decide (rank b < rank c) :=
    countP_mono_left fun c _ hc => decide_eq_true (hlt.trans (of_decide_eq_true hc))
  have hlater : later.countP (fun c => decide (rank a < rank c)) ≤
      later.countP fun c => decide (rank b < rank c) :=
    countP_mono_left fun c _ hc => decide_eq_true (hlt.trans (of_decide_eq_true hc))
  omega

/-- **A removal keeps who else can be removed.** -/
theorem lt_newerCount_deleteWhere_iff (ha : rows.filter p = [a])
    (hsurplus : n < newerCount rank rows a) :
    n < newerCount rank (deleteWhere p rows) b ↔ n < newerCount rank rows b := by
  have hmem : a ∈ rows := mem_of_mem_filter (ha ▸ mem_singleton_self a)
  have hcount := countP_deleteWhere (fun c => decide (rank b < rank c)) ha
  unfold newerCount
  by_cases hlt : rank b < rank a
  · rw [if_pos (decide_eq_true hlt)] at hcount
    have hless := newerCount_lt hmem hlt
    unfold newerCount at hless hsurplus
    omega
  · rw [if_neg (by simpa using hlt)] at hcount
    omega

/-! ## Runs of removals -/

/-- **The rows left by removals**, each of a row that is due and has more than `n` newer rows. -/
inductive Trimmed (rank : α → κ) (n : ℕ) (due : α → Prop) (rows : List α) : List α → Prop where
  | start : Trimmed rank n due rows rows
  | remove (survivors : List α) (p : α → Bool) (a : α) (h : Trimmed rank n due rows survivors)
      (ha : survivors.filter p = [a]) (hsurplus : n < newerCount rank survivors a) (hdue : due a) :
      Trimmed rank n due rows (deleteWhere p survivors)

variable {due : α → Prop}

section

variable (h : Trimmed rank n due rows survivors)

include h

theorem Trimmed.mono {due' : α → Prop} (hmono : ∀ a, due a → due' a) :
    Trimmed rank n due' rows survivors := by
  induction h with
  | start => exact .start
  | remove survivors p a _ ha hsurplus hdue ih => exact .remove survivors p a ih ha hsurplus (hmono a hdue)

theorem Trimmed.lt_newerCount_iff :
    n < newerCount rank survivors b ↔ n < newerCount rank rows b := by
  induction h with
  | start => exact Iff.rfl
  | remove survivors p a _ ha hsurplus _ ih => rw [lt_newerCount_deleteWhere_iff ha hsurplus, ih]

theorem Trimmed.exists_filter :
    ∃ q : α → Bool, survivors = rows.filter q := by
  induction h with
  | start => exact ⟨fun _ => true, (filter_true rows).symm⟩
  | remove survivors p a _ _ _ _ ih =>
    obtain ⟨q, rfl⟩ := ih
    exact ⟨_, filter_filter ..⟩

/-- **What survives every run**: the newest rows and those that are not due. -/
theorem Trimmed.mem_of_kept (hb : b ∈ rows) (hkept : newerCount rank rows b ≤ n ∨ ¬due b) :
    b ∈ survivors := by
  induction h with
  | start => exact hb
  | remove survivors p a h ha hsurplus hdue ih =>
    rw [mem_deleteWhere]
    refine ⟨ih, ?_⟩
    by_contra hp
    have hmem : b ∈ survivors.filter p := mem_filter.mpr ⟨ih, by simpa using hp⟩
    rw [ha, mem_singleton] at hmem
    subst hmem
    rcases hkept with hle | hnot
    · exact absurd (h.lt_newerCount_iff.mp hsurplus) (not_lt.mpr hle)
    · exact hnot hdue

/-- **Confluence.**  When no survivor can be removed, the survivors are the newest rows and those that
are not due, whatever was removed in which order. -/
theorem Trimmed.eq_filter [DecidablePred due]
    (hsettled : ∀ b ∈ survivors, n < newerCount rank survivors b → ¬due b) :
    survivors = rows.filter fun b => decide (newerCount rank rows b ≤ n) || !decide (due b) := by
  obtain ⟨q, hq⟩ := h.exists_filter
  rw [hq]
  refine filter_congr fun b hb => ?_
  have hmem : b ∈ survivors ↔ q b = true := by rw [hq, mem_filter, and_iff_right hb]
  rw [Bool.eq_iff_iff, ← hmem, Bool.or_eq_true, decide_eq_true_iff, Bool.not_eq_true',
    decide_eq_false_iff_not]
  constructor
  · intro hsurvives
    by_cases hle : newerCount rank rows b ≤ n
    · exact Or.inl hle
    · exact Or.inr (hsettled b hsurvives (h.lt_newerCount_iff.mpr (not_le.mp hle)))
  · exact h.mem_of_kept hb

end

end IpfS3.Retention
