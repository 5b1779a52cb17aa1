import IpfS3.AppError
import IpfS3.Foundations.Fallible
import IpfS3.Foundations.Keyset

/-!
# Provider quota

`pinning/quota.rs`: the decision about one reservation, and the oldest candidates that have to go
before it fits.  A decision that is not an error stays one while the usage shrinks (`Fits.anti`), so
the loop over the candidates fails only where the first decision does.
-/

namespace IpfS3.Pinning

open Fallible Keyset List

structure ProviderUsage where
  reservedBytes : ℤ
  reservedPins : ℤ
  deriving DecidableEq

structure ProviderLimits where
  priority : ℕ
  maxBytes : ℤ
  maxPins : ℤ
  enabled : Bool

inductive CapacityDecision where
  | reserve
  | wait
  | block
  deriving DecidableEq

/-- `EvictionCandidate`; the touch is in nanoseconds. -/
structure EvictionCandidate where
  provider : Text
  cid : Text
  cidSize : ℤ
  lastActiveTouch : ℤ

def invalidQuota (message : String) : AppError := .invalidPinningRequest message

/-- A checked result of `i64` arithmetic. -/
def checkedI64 (n : ℤ) (message : String) : AppResult ℤ := do
  ensure (-2 ^ 63 ≤ n ∧ n < 2 ^ 63) (invalidQuota message)
  pure n

def validateUsage (usage : ProviderUsage) : AppResult Unit :=
  ensure (0 ≤ usage.reservedBytes ∧ 0 ≤ usage.reservedPins)
    (invalidQuota "reserved provider usage cannot be negative")

def reservationDecision (usage : ProviderUsage) (cidSize : ℤ) (limits : ProviderLimits) :
    AppResult CapacityDecision := do
  validateUsage usage
  ensure (0 ≤ cidSize) (invalidQuota "CID size cannot be negative")
  ensure (0 ≤ limits.maxBytes ∧ 0 ≤ limits.maxPins)
    (invalidQuota "provider limits cannot be negative")
  if limits.maxBytes < cidSize then pure .block
  else do
    let nextBytes ← checkedI64 (usage.reservedBytes + cidSize) "reserved byte accounting overflow"
    let nextPins ← checkedI64 (usage.reservedPins + 1) "reserved pin accounting overflow"
    pure (if nextBytes ≤ limits.maxBytes ∧ nextPins ≤ limits.maxPins then .reserve else .wait)

def EvictionCandidate.pair (candidate : EvictionCandidate) : Text × Text :=
  (candidate.provider, candidate.cid)

def EvictionCandidate.order (candidate : EvictionCandidate) : ℤ ×ₗ Text ×ₗ Text :=
  toLex (candidate.lastActiveTouch, toLex (candidate.provider, candidate.cid))

/-- The loop of `select_eviction_candidates`. -/
def selectLoop (cidSize : ℤ) (limits : ProviderLimits) :
    ProviderUsage → List (Text × Text) → List EvictionCandidate → AppResult (List (Text × Text))
  | _, _, [] => .ok []
  | remaining, selected, candidate :: candidates => do
    ensure (0 ≤ candidate.cidSize) (invalidQuota "remote CID size cannot be negative")
    let bytes ← checkedI64 (remaining.reservedBytes - candidate.cidSize)
      "reserved byte accounting underflow"
    let pins ← checkedI64 (remaining.reservedPins - 1) "reserved pin accounting underflow"
    let decision ← reservationDecision ⟨bytes, pins⟩ cidSize limits
    if decision = .reserve then pure (selected ++ [candidate.pair])
    else selectLoop cidSize limits ⟨bytes, pins⟩ (selected ++ [candidate.pair]) candidates

def selectEvictionCandidates (usage : ProviderUsage) (cidSize : ℤ) (limits : ProviderLimits)
    (candidates : List EvictionCandidate) : AppResult (List (Text × Text)) := do
  let decision ← reservationDecision usage cidSize limits
  if decision ≠ .wait then pure []
  else selectLoop cidSize limits usage [] (sortBy EvictionCandidate.order candidates)

/-! ## A decision without an error -/

/-- The usage, size and limits of a decision that neither fails nor blocks. -/
structure Fits (usage : ProviderUsage) (cidSize : ℤ) (limits : ProviderLimits) : Prop where
  usage_nonneg : 0 ≤ usage.reservedBytes ∧ 0 ≤ usage.reservedPins
  size_nonneg : 0 ≤ cidSize
  limits_nonneg : 0 ≤ limits.maxBytes ∧ 0 ≤ limits.maxPins
  size_le : cidSize ≤ limits.maxBytes
  bytes_lt : usage.reservedBytes + cidSize < 2 ^ 63
  pins_lt : usage.reservedPins + 1 < 2 ^ 63

section

variable {usage : ProviderUsage} {cidSize : ℤ} {limits : ProviderLimits}

theorem checkedI64_of {n : ℤ} {message : String} (hle : -2 ^ 63 ≤ n) (hlt : n < 2 ^ 63) :
    checkedI64 n message = .ok n := by
  rw [checkedI64, ensure_of ⟨hle, hlt⟩]
  rfl

theorem checkedI64_eq_ok {n m : ℤ} {message : String} (h : checkedI64 n message = .ok m) :
    (-2 ^ 63 ≤ n ∧ n < 2 ^ 63) ∧ m = n := by
  obtain ⟨hn, h⟩ := of_ensure h
  exact ⟨hn, (Except.ok.inj h).symm⟩

theorem Fits.decision (h : Fits usage cidSize limits) :
    reservationDecision usage cidSize limits = .ok .reserve ∨
      reservationDecision usage cidSize limits = .ok .wait := by
  have hsize := h.size_nonneg
  obtain ⟨hbytes, hpins⟩ := h.usage_nonneg
  rw [reservationDecision, validateUsage, ensure_of h.usage_nonneg, ok_bind, ensure_of hsize, ok_bind,
    ensure_of h.limits_nonneg, ok_bind, if_neg h.size_le.not_gt,
    checkedI64_of (by omega) h.bytes_lt, ok_bind, checkedI64_of (by omega) h.pins_lt, ok_bind]
  split_ifs
  · exact Or.inl rfl
  · exact Or.inr rfl

theorem fits_of_wait (h : reservationDecision usage cidSize limits = .ok .wait) :
    Fits usage cidSize limits := by
  obtain ⟨husage, h⟩ := of_ensure h
  obtain ⟨hsize, h⟩ := of_ensure h
  obtain ⟨hlimits, h⟩ := of_ensure h
  split_ifs at h with hblock
  · cases h
  · obtain ⟨nextBytes, hbytes, h⟩ := of_bind h
    obtain ⟨nextPins, hpins, -⟩ := of_bind h
    exact ⟨husage, hsize, hlimits, not_lt.mp hblock, (checkedI64_eq_ok hbytes).1.2,
      (checkedI64_eq_ok hpins).1.2⟩

theorem Fits.anti (h : Fits usage cidSize limits) {usage' : ProviderUsage}
    (hnonneg : 0 ≤ usage'.reservedBytes ∧ 0 ≤ usage'.reservedPins)
    (hbytes : usage'.reservedBytes ≤ usage.reservedBytes)
    (hpins : usage'.reservedPins ≤ usage.reservedPins) : Fits usage' cidSize limits :=
  { h with
    usage_nonneg := hnonneg
    bytes_lt := by have := h.bytes_lt; omega
    pins_lt := by have := h.pins_lt; omega }

/-! ## The selection -/

def ProviderUsage.without (usage : ProviderUsage) (candidates : List EvictionCandidate) :
    ProviderUsage :=
  ⟨usage.reservedBytes - (candidates.map EvictionCandidate.cidSize).sum,
    usage.reservedPins - candidates.length⟩

theorem ProviderUsage.without_cons (candidate : EvictionCandidate)
    (candidates : List EvictionCandidate) : usage.without (candidate :: candidates) =
      (ProviderUsage.mk (usage.reservedBytes - candidate.cidSize)
        (usage.reservedPins - 1)).without candidates := by
  simp only [without, map_cons, sum_cons, length_cons, ProviderUsage.mk.injEq]
  push_cast
  omega

def LeastPrefix (usage : ProviderUsage) (cidSize : ℤ) (limits : ProviderLimits)
    (sorted : List EvictionCandidate) (n : ℕ) : Prop :=
  n ≤ sorted.length ∧ reservationDecision (usage.without (sorted.take n)) cidSize limits =
      .ok .reserve ∧
    ∀ m < n, reservationDecision (usage.without (sorted.take m)) cidSize limits ≠ .ok .reserve

/-- The selection from sorted candidates, under the decision about the reservation: nothing, when the
reservation does not wait or no prefix makes room, and otherwise the least prefix that does. -/
structure Selects (usage : ProviderUsage) (cidSize : ℤ) (limits : ProviderLimits)
    (sorted : List EvictionCandidate) (decision : CapacityDecision) (selected : List (Text × Text)) :
    Prop where
  eq_nil_iff : selected = [] ↔ decision ≠ .wait ∨ ∀ n ≤ sorted.length,
    reservationDecision (usage.without (sorted.take n)) cidSize limits ≠ .ok .reserve
  least : selected ≠ [] → ∃ n, 0 < n ∧ LeastPrefix usage cidSize limits sorted n ∧
    selected = (sorted.take n).map EvictionCandidate.pair

/-- The candidates do not add up to more than the usage. -/
structure Accounted (usage : ProviderUsage) (candidates : List EvictionCandidate) : Prop where
  sizes : ∀ candidate ∈ candidates, 0 ≤ candidate.cidSize
  bytes : (candidates.map EvictionCandidate.cidSize).sum ≤ usage.reservedBytes
  pins : (candidates.length : ℤ) ≤ usage.reservedPins

theorem ProviderUsage.without_nil : usage.without [] = usage := by
  simp [ProviderUsage.without]

variable {candidates : List EvictionCandidate}

theorem LeastPrefix.cons {candidate : EvictionCandidate} {n : ℕ}
    (h : LeastPrefix ⟨usage.reservedBytes - candidate.cidSize, usage.reservedPins - 1⟩ cidSize limits
      candidates n) (hwait : reservationDecision usage cidSize limits ≠ .ok .reserve) :
    LeastPrefix usage cidSize limits (candidate :: candidates) (n + 1) := by
  refine ⟨Nat.succ_le_succ h.1, ?_, fun m hm => ?_⟩
  · rw [take_succ_cons, ProviderUsage.without_cons]
    exact h.2.1
  · cases m with
    | zero => rwa [take_zero, ProviderUsage.without_nil]
    | succ m =>
      rw [take_succ_cons, ProviderUsage.without_cons]
      exact h.2.2 m (by omega)

/-- **The loop** stops at the least prefix that makes room, or finds that there is none. -/
theorem selectLoop_spec (hfits : Fits usage cidSize limits)
    (hcandidates : Accounted usage candidates)
    (hwait : reservationDecision usage cidSize limits ≠ .ok .reserve)
    (selected : List (Text × Text)) :
    (∃ n, LeastPrefix usage cidSize limits candidates n ∧
      selectLoop cidSize limits usage selected candidates =
        .ok (selected ++ (candidates.take n).map EvictionCandidate.pair)) ∨
    (∀ n ≤ candidates.length,
      reservationDecision (usage.without (candidates.take n)) cidSize limits ≠ .ok .reserve) ∧
      selectLoop cidSize limits usage selected candidates = .ok [] := by
  induction candidates generalizing usage selected with
  | nil =>
    refine Or.inr ⟨fun n _ => ?_, rfl⟩
    rwa [take_nil, ProviderUsage.without_nil]
  | cons candidate candidates ih =>
    obtain ⟨hsizes, hbytes, hpins⟩ := hcandidates
    rw [forall_mem_cons] at hsizes
    rw [map_cons, sum_cons] at hbytes
    rw [length_cons, Nat.cast_succ] at hpins
    have hsum : 0 ≤ (candidates.map EvictionCandidate.cidSize).sum :=
      sum_nonneg (by simpa using hsizes.2)
    have hlt := hfits.bytes_lt
    have hlt' := hfits.pins_lt
    have hsize := hfits.size_nonneg
    have hnext : Fits ⟨usage.reservedBytes - candidate.cidSize, usage.reservedPins - 1⟩ cidSize limits :=
      hfits.anti (by dsimp only; omega) (by dsimp only; omega) (by dsimp only; omega)
    rw [selectLoop, ensure_of hsizes.1, ok_bind, checkedI64_of (by omega) (by omega), ok_bind,
      checkedI64_of (by omega) (by omega), ok_bind]
    rcases hnext.decision with hdecision | hdecision
    · refine Or.inl ⟨1, LeastPrefix.cons ⟨Nat.zero_le _, ?_, by simp⟩ hwait, ?_⟩
      · rwa [take_zero, ProviderUsage.without_nil]
      · rw [hdecision]
        rfl
    · have hrest := ih hnext ⟨hsizes.2, by dsimp only; omega, by dsimp only; omega⟩
        (by simp [hdecision]) (selected ++ [candidate.pair])
      rw [hdecision, ok_bind, if_neg (by decide)]
      refine hrest.imp (fun ⟨n, hn, hloop⟩ => ⟨n + 1, hn.cons hwait, ?_⟩)
        fun ⟨hnone, hloop⟩ => ⟨fun n hn => ?_, hloop⟩
      · rw [hloop, append_assoc]
        rfl
      · cases n with
        | zero => rwa [take_zero, ProviderUsage.without_nil]
        | succ n =>
          rw [take_succ_cons, ProviderUsage.without_cons]
          exact hnone n (Nat.le_of_succ_le_succ hn)

theorem selectEvictionCandidates_ok
    (haccounted : Accounted usage (sortBy EvictionCandidate.order candidates))
    {decision : CapacityDecision}
    (hdecision : reservationDecision usage cidSize limits = .ok decision) :
    ∃ selected, selectEvictionCandidates usage cidSize limits candidates = .ok selected ∧
      Selects usage cidSize limits (sortBy EvictionCandidate.order candidates) decision selected := by
  rw [selectEvictionCandidates, hdecision, ok_bind]
  by_cases hwait : decision = .wait
  · subst hwait
    rw [if_neg (by simp)]
    rcases selectLoop_spec (fits_of_wait hdecision) haccounted (by simp [hdecision]) [] with
      ⟨n, hn, hloop⟩ | ⟨hnone, hloop⟩
    · have hpos : 0 < n := by
        refine Nat.pos_of_ne_zero fun h => ?_
        have := hn.2.1
        rw [h, take_zero, ProviderUsage.without_nil, hdecision] at this
        cases this
      refine ⟨_, hloop, ⟨fun h => ?_, ?_⟩, fun _ => ⟨n, hpos, hn, rfl⟩⟩
      · have hlength := congrArg length h
        have := hn.1
        simp only [nil_append, length_map, length_take, length_nil] at hlength
        omega
      · exact fun h => absurd hn.2.1 (h.resolve_left (not_not.mpr rfl) n hn.1)
    · exact ⟨[], hloop, ⟨fun _ => Or.inr hnone, fun _ => rfl⟩, fun h => absurd rfl h⟩
  · rw [if_pos hwait]
    exact ⟨[], rfl, ⟨fun _ => Or.inl hwait, fun _ => rfl⟩, fun h => absurd rfl h⟩

end

/-- **The selection is minimal and canonical.**  Of candidates that are distinct and add up to no more
than the usage, the selection fails exactly as the decision about the reservation does.  Otherwise it
is empty when the reservation does not wait or no prefix of the sorted candidates makes room, and it
is the shortest prefix that does in the other cases, in whatever order the candidates are given. -/
theorem selectEvictionCandidates_minimal (usage : ProviderUsage) (cidSize : ℤ)
    (limits : ProviderLimits) (candidates : List EvictionCandidate)
    (hdistinct : (candidates.map EvictionCandidate.pair).Nodup)
    (hsizes : ∀ candidate ∈ candidates, 0 ≤ candidate.cidSize)
    (hbytes : (candidates.map EvictionCandidate.cidSize).sum ≤ usage.reservedBytes)
    (hpins : (candidates.length : ℤ) ≤ usage.reservedPins) :
    (∀ e, selectEvictionCandidates usage cidSize limits candidates = .error e ↔
      reservationDecision usage cidSize limits = .error e) ∧
    ∀ decision, reservationDecision usage cidSize limits = .ok decision →
      ∃ selected, selectEvictionCandidates usage cidSize limits candidates = .ok selected ∧
        Selects usage cidSize limits (sortBy EvictionCandidate.order candidates) decision selected ∧
        ∀ candidates' : List EvictionCandidate, candidates'.Perm candidates →
          selectEvictionCandidates usage cidSize limits candidates' = .ok selected := by
  have horder : candidates.Pairwise fun a b => a.order ≠ b.order := by
    refine (pairwise_map.mp hdistinct).imp fun hne heq => hne ?_
    exact (Prod.mk.inj heq).2
  have hperm := sortBy_perm EvictionCandidate.order candidates
  have haccounted : Accounted usage (sortBy EvictionCandidate.order candidates) :=
    ⟨fun c hc => hsizes c ((mem_sortBy _).mp hc),
      (hperm.map EvictionCandidate.cidSize).sum_eq.trans_le hbytes, hperm.length_eq ▸ hpins⟩
  have hselect (candidates' : List EvictionCandidate) (hperm : candidates'.Perm candidates) :
      selectEvictionCandidates usage cidSize limits candidates' =
        selectEvictionCandidates usage cidSize limits candidates := by
    have hsorted := (ascending_sortBy _ ((hperm.pairwise_iff fun h => Ne.symm h).mpr horder)).eq_of_perm
      _ (ascending_sortBy _ horder) ((sortBy_perm _ _).trans (hperm.trans (sortBy_perm _ _).symm))
    rw [selectEvictionCandidates, selectEvictionCandidates, hsorted]
  refine ⟨fun e => ⟨fun h => ?_, fun h => ?_⟩, fun decision hdecision => ?_⟩
  · rcases hdecision : reservationDecision usage cidSize limits with e' | decision
    · rw [selectEvictionCandidates, hdecision, error_bind] at h
      rw [Except.error.inj h]
    · obtain ⟨selected, hok, -⟩ := selectEvictionCandidates_ok haccounted hdecision
      cases hok.symm.trans h
  · rw [selectEvictionCandidates, h]
    rfl
  · obtain ⟨selected, hok, hselects⟩ := selectEvictionCandidates_ok haccounted hdecision
    exact ⟨selected, hok, hselects, fun _ h => (hselect _ h).trans hok⟩

/-- Of two candidates of five bytes, one is enough to make room for three, whatever their order. -/
theorem selectEvictionCandidates_minimal_two :
    ∃ selected, selectEvictionCandidates ⟨10, 2⟩ 3 ⟨0, 10, 2, true⟩
        [⟨[1], [2], 5, 9⟩, ⟨[1], [3], 5, 4⟩] = .ok selected ∧
      selectEvictionCandidates ⟨10, 2⟩ 3 ⟨0, 10, 2, true⟩
        [⟨[1], [3], 5, 4⟩, ⟨[1], [2], 5, 9⟩] = .ok selected := by
  obtain ⟨selected, hok, -, hperm⟩ := (selectEvictionCandidates_minimal ⟨10, 2⟩ 3 ⟨0, 10, 2, true⟩
    [⟨[1], [2], 5, 9⟩, ⟨[1], [3], 5, 4⟩] (by decide) (by decide) (by decide) (by decide)).2 .wait
    (by decide +kernel)
  exact ⟨selected, hok, hperm _ (List.Perm.swap ..)⟩

/-- A usage next to the end of the `i64` range has no decision, and the selection fails with it. -/
theorem selectEvictionCandidates_overflow :
    selectEvictionCandidates ⟨2 ^ 63 - 1, 0⟩ 1 ⟨0, 1, 1, true⟩ [] =
      .error (invalidQuota "reserved byte accounting overflow") := by
  decide +kernel

end IpfS3.Pinning
