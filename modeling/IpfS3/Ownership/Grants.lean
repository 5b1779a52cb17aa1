import IpfS3.Ownership.Weakening
import IpfS3.Ownership.Operations

/-!
# What a grant changes

The scopes that are held in a bucket (`Holds`): a token holds its key and the keys under its prefix,
and an active job holds the destinations that it owns and the keys under its prefix claims.

A grant replaces one destination row by a newer one (`Puts`), or adds a prefix claim.  Each granting
statement is specified by the scopes that it may add, so that exclusion is kept whenever these are
clear of everybody else.
-/

namespace IpfS3.Ownership

open Table Fallible Batches Exclusion List

/-- Holders of scopes: the token of a key, or a job. -/
inductive Holder where
  | token (key : Text)
  | job (jobId : Text)
  deriving DecidableEq

namespace OwnershipState

variable {st st' st'' : OwnershipState} {jobId key : Text} {d : Destination}

/-! ## Held scopes -/

def Holds (st : OwnershipState) : Holder → Scope UInt8 → Prop
  | .token key, scope => ∃ d ∈ st.destinations, d.key = key ∧ d.mutationId.isSome = true ∧
      (scope = .exact key ∨ ∃ pfx, d.mutationPrefix = some pfx ∧ scope = .under pfx)
  | .job jobId, scope => st.isActiveJob jobId = true ∧
      ((∃ d ∈ st.destinations, d.ownerJobId = some jobId ∧ scope = .exact d.key) ∨
        ∃ c ∈ st.prefixClaims, c.jobId = jobId ∧ scope = .under c.pfx)

/-- A scope that the comparisons in SQL can find: its prefix has no NUL. -/
def Findable : Scope UInt8 → Prop
  | .exact _ => True
  | .under pfx => 0 ∉ pfx

/-- Two scopes overlap, and the comparisons in SQL can find it. -/
def Meets (s s' : Scope UInt8) : Prop := Findable s ∧ Findable s' ∧ Scope.Overlaps s s'

theorem Meets.symm {s s' : Scope UInt8} (h : Meets s s') : Meets s' s := ⟨h.2.1, h.1, h.2.2.symm⟩

/-- No two holders hold scopes that meet. -/
def Exclusive (st : OwnershipState) : Prop := Exclusion.Exclusive Meets st.Holds

def Clear (st : OwnershipState) (holder : Holder) (scope : Scope UInt8) : Prop :=
  ClearFor Meets st.Holds holder scope

theorem Weaker.holds (hw : Weaker st st') {holder : Holder} {scope : Scope UInt8}
    (h : st'.Holds holder scope) : st.Holds holder scope := by
  cases holder with
  | token key =>
    obtain ⟨d', hd', hkey, htoken, hscope⟩ := h
    obtain ⟨d, hd, hle⟩ := hw.exists_destination hd'
    obtain ⟨mutationId, hid⟩ := Option.isSome_iff_exists.mp htoken
    obtain ⟨hold, hpre⟩ := hle.token_eq hid
    exact ⟨d, hd, hle.key_eq ▸ hkey, Option.isSome_of_mem hold, hpre ▸ hscope⟩
  | job jobId =>
    obtain ⟨hact, ⟨d', hd', howner, hscope⟩ | ⟨c, hc, hclaim⟩⟩ := h
    · obtain ⟨d, hd, hle⟩ := hw.exists_destination hd'
      exact ⟨hw.isActiveJob hact, Or.inl ⟨d, hd, hle.owner_eq howner, hle.key_eq ▸ hscope⟩⟩
    · exact ⟨hw.isActiveJob hact, Or.inr ⟨c, hw.prefixClaims c hc, hclaim⟩⟩

/-- A transaction on a consistent state: the new state is consistent, the destinations advance, and
exclusion is kept. -/
structure Sound (st st' : OwnershipState) : Prop where
  consistent : st'.Consistent
  advances : Advances st st'
  exclusive : st.Exclusive → st'.Exclusive

theorem Sound.refl (hst : st.Consistent) : Sound st st := ⟨hst, Advances.refl st, fun h => h⟩

theorem Sound.trans (h : Sound st st') (h' : Sound st' st'') : Sound st st'' :=
  ⟨h'.consistent, h.advances.trans h'.advances, fun hex => h'.exclusive (h.exclusive hex)⟩

theorem Weaker.sound (hw : Weaker st st') (hst' : st'.Consistent) : Sound st st' :=
  ⟨hst', hw.advances, fun hex => hex.mono fun _ _ => hw.holds⟩

theorem DestinationsWeaker.sound (h : DestinationsWeaker st st') (hst : st.Consistent) :
    Sound st st' := h.weaker.sound (h.consistent hst)

theorem sound_of_eq (hst : st.Consistent) (hdest : st'.destinations = st.destinations)
    (hclaims : st'.prefixClaims = st.prefixClaims)
    (hact : ∀ jobId, st'.isActiveJob jobId = st.isActiveJob jobId)
    (hids : (st'.jobs.map ImportJob.id).Nodup) (htargets : ∀ t ∈ st'.targets, t ∈ st.targets)
    (hleases : (st'.leases.map MutationLease.key).Nodup)
    (hlease : ∀ l' ∈ st'.leases, ∃ l ∈ st.leases, l'.key = l.key ∧ l'.mutationId = l.mutationId ∧
      l'.generation = l.generation) : Sound st st' where
  consistent :=
    { keys_nodup := hdest ▸ hst.keys_nodup
      ids_nodup := hids
      leases_nodup := hleases
      owner_active := fun d hd jobId howner =>
        (hact jobId).trans (hst.owner_active d (hdest ▸ hd) jobId howner)
      claim_active := fun c hc => (hact c.jobId).trans (hst.claim_active c (hclaims ▸ hc))
      token_unowned := fun d hd => hst.token_unowned d (hdest ▸ hd)
      target_row := fun t ht => hdest ▸ hst.target_row t (htargets t ht)
      lease_row := fun l' hl' => by
        obtain ⟨l, hl, hkey, hid, hgen⟩ := hlease l' hl'
        rw [hkey, hid, hgen, hdest]
        exact hst.lease_row l hl }
  advances := Advances.of_eq hdest
  exclusive := by
    refine fun hex => hex.mono fun holder scope h => ?_
    cases holder with
    | token key =>
      obtain ⟨d, hd, hrest⟩ := h
      exact ⟨d, hdest ▸ hd, hrest⟩
    | job jobId =>
      obtain ⟨hjob, hscope⟩ := h
      rw [hdest, hclaims] at hscope
      exact ⟨(hact jobId) ▸ hjob, hscope⟩

/-! ## Replacing a destination row -/

/-- The destination row of a key is replaced by a newer one, or added. -/
structure Puts (st st' : OwnershipState) (row : Destination) : Prop where
  mem_iff : ∀ d, d ∈ st'.destinations ↔ d ∈ st.destinations ∧ d.key ≠ row.key ∨ d = row
  keys_nodup : (st'.destinations.map Destination.key).Nodup
  newer : ∀ d ∈ st.destinations, d.key = row.key → d.generation < row.generation
  jobs_eq : st'.jobs = st.jobs
  prefixClaims_eq : st'.prefixClaims = st.prefixClaims
  targets_eq : st'.targets = st.targets

namespace Puts

variable {row : Destination}

theorem advances (h : Puts st st' row) : Advances st st' := by
  intro d hd
  by_cases hkey : d.key = row.key
  · have hlt := h.newer d hd hkey
    exact ⟨row, (h.mem_iff row).mpr (Or.inr rfl), hkey.symm, hlt.le,
      fun heq => absurd heq (by omega), fun heq => absurd heq (by omega)⟩
  · exact ⟨d, (h.mem_iff d).mpr (Or.inl ⟨hd, hkey⟩), RowAdvances.refl d⟩

theorem isActiveJob_eq (h : Puts st st' row) (jobId : Text) :
    st'.isActiveJob jobId = st.isActiveJob jobId := isActiveJob_congr h.jobs_eq jobId

theorem consistent (h : Puts st st' row) (hst : st.Consistent)
    (howner : ∀ jobId, row.ownerJobId = some jobId → st.isActiveJob jobId = true)
    (htoken : row.mutationId.isSome = true → row.ownerJobId = none)
    (hleases : (st'.leases.map MutationLease.key).Nodup)
    (hlease : ∀ l ∈ st'.leases, l ∈ st.leases ∨ l.key = row.key ∧ l.generation = row.generation ∧
      row.mutationId = some l.mutationId) : st'.Consistent where
  keys_nodup := h.keys_nodup
  ids_nodup := h.jobs_eq ▸ hst.ids_nodup
  leases_nodup := hleases
  owner_active := by
    intro d hd jobId hown
    rw [h.isActiveJob_eq]
    rcases (h.mem_iff d).mp hd with ⟨hd, -⟩ | rfl
    · exact hst.owner_active d hd jobId hown
    · exact howner jobId hown
  claim_active := fun c hc => by
    rw [h.isActiveJob_eq]
    exact hst.claim_active c (h.prefixClaims_eq ▸ hc)
  token_unowned := by
    intro d hd
    rcases (h.mem_iff d).mp hd with ⟨hd, -⟩ | rfl
    · exact hst.token_unowned d hd
    · exact htoken
  target_row := by
    intro t ht
    obtain ⟨d, hd, hkey, hgen⟩ := hst.target_row t (h.targets_eq ▸ ht)
    obtain ⟨d', hd', hadv⟩ := h.advances d hd
    exact ⟨d', hd', hadv.key_eq.trans hkey, hgen.trans hadv.generation_le⟩
  lease_row := by
    intro l hl
    rcases hlease l hl with hold | ⟨hkey, hgen, hid⟩
    · obtain ⟨d, hd, hkey, hgen, hid⟩ := hst.lease_row l hold
      by_cases hrow : d.key = row.key
      · have hlt := h.newer d hd hrow
        exact ⟨row, (h.mem_iff row).mpr (Or.inr rfl), hrow.symm.trans hkey, by omega,
          fun heq => absurd heq (by omega)⟩
      · exact ⟨d, (h.mem_iff d).mpr (Or.inl ⟨hd, hrow⟩), hkey, hgen, hid⟩
    · refine ⟨row, (h.mem_iff row).mpr (Or.inr rfl), hkey.symm, hgen.le, fun _ mutationId hmut => ?_⟩
      exact Option.some.inj (hmut.symm.trans hid)

theorem holds (h : Puts st st' row) {holder : Holder} {scope : Scope UInt8}
    (hholds : st'.Holds holder scope) : st.Holds holder scope ∨
      (holder = .token row.key ∧ row.mutationId.isSome = true ∧
        (scope = .exact row.key ∨ ∃ pfx, row.mutationPrefix = some pfx ∧ scope = .under pfx)) ∨
      ∃ jobId, holder = .job jobId ∧ row.ownerJobId = some jobId ∧ scope = .exact row.key := by
  cases holder with
  | token key =>
    obtain ⟨d, hd, rfl, hrest⟩ := hholds
    rcases (h.mem_iff d).mp hd with ⟨hd, -⟩ | rfl
    · exact Or.inl ⟨d, hd, rfl, hrest⟩
    · exact Or.inr (Or.inl ⟨rfl, hrest⟩)
  | job jobId =>
    obtain ⟨hact, ⟨d, hd, hown, rfl⟩ | ⟨c, hc, hclaim⟩⟩ := hholds
    · rcases (h.mem_iff d).mp hd with ⟨hd, -⟩ | rfl
      · exact Or.inl ⟨h.isActiveJob_eq jobId ▸ hact, Or.inl ⟨d, hd, hown, rfl⟩⟩
      · exact Or.inr (Or.inr ⟨jobId, rfl, hown, rfl⟩)
    · exact Or.inl ⟨h.isActiveJob_eq jobId ▸ hact, Or.inr ⟨c, h.prefixClaims_eq ▸ hc, hclaim⟩⟩

end Puts

/-! ## The granting statements -/

theorem findDestination_eq_some (h : st.findDestination key = some d) :
    d ∈ st.destinations ∧ d.key = key :=
  ⟨mem_of_find?_eq_some h, beq_iff_eq.mp (find?_some h :)⟩

theorem findDestination_eq_none (h : st.findDestination key = none) :
    ∀ d ∈ st.destinations, d.key ≠ key :=
  fun d hd hkey => find?_eq_none.mp h d hd (beq_iff_eq.mpr hkey)

section

variable (hkeys : (st.destinations.map Destination.key).Nodup)

include hkeys

theorem findDestination_of_mem (hd : d ∈ st.destinations) :
    st.findDestination d.key = some d := by
  cases hfind : st.findDestination d.key with
  | none => exact absurd rfl (findDestination_eq_none hfind d hd)
  | some d' =>
    obtain ⟨hd', hkey⟩ := findDestination_eq_some hfind
    exact congrArg some (inj_on_of_nodup_map hkeys hd' hd hkey)

theorem puts_updateWhere
    (hd : d ∈ st.destinations) {c : Destination → Bool} {f : Destination → Destination}
    (hc : ∀ d' ∈ st.destinations, c d' = true ↔ d' = d)
    (hkey : (f d).key = d.key) (hgen : d.generation < (f d).generation) :
    Puts st { st with destinations := updateWhere c f st.destinations } (f d) where
  mem_iff := by
    intro d'
    rw [mem_updateWhere, hkey]
    constructor
    · rintro ⟨a, ha, rfl⟩
      split_ifs with hca
      · rw [(hc a ha).mp hca]
        exact Or.inr rfl
      · refine Or.inl ⟨ha, fun heq => hca ((hc a ha).mpr ?_)⟩
        exact inj_on_of_nodup_map hkeys ha hd heq
    · rintro (⟨hd', hne⟩ | rfl)
      · exact ⟨d', hd', if_neg fun hcd => hne (congrArg _ ((hc d' hd').mp hcd))⟩
      · exact ⟨d, hd, if_pos ((hc d hd).mpr rfl)⟩
  keys_nodup := by
    have hsame : (updateWhere c f st.destinations).map Destination.key =
        st.destinations.map Destination.key := by
      rw [updateWhere, map_map]
      refine map_congr_left fun a ha => ?_
      by_cases hca : c a = true
      · rw [Function.comp_apply, if_pos hca, (hc a ha).mp hca, hkey]
      · rw [Function.comp_apply, if_neg hca]
    exact hsame ▸ hkeys
  newer := by
    intro d' hd' heq
    rw [inj_on_of_nodup_map hkeys hd' hd (heq.trans hkey)]
    exact hgen
  jobs_eq := rfl
  prefixClaims_eq := rfl
  targets_eq := rfl

theorem puts_insertDestination {row : Destination} (h : st.insertDestination row = .ok st') :
    Puts st st' row ∧ st' = { st with destinations := st'.destinations } := by
  obtain ⟨hnew, h⟩ := of_ensure h
  cases h
  refine ⟨⟨fun d => ?_, ?_, fun d hd hkey => absurd hkey (hnew d hd), rfl, rfl, rfl⟩, rfl⟩
  · show d ∈ st.destinations ++ [row] ↔ _
    rw [mem_append, mem_singleton]
    exact or_congr_left ⟨fun hd => ⟨hd, hnew d hd⟩, fun hd => hd.1⟩
  · show ((st.destinations ++ [row]).map Destination.key).Nodup
    rw [map_append, map_singleton, nodup_append]
    refine ⟨hkeys, nodup_singleton _, fun k hk k' hk' => ?_⟩
    obtain ⟨d, hd, rfl⟩ := mem_map.mp hk
    rw [mem_singleton.mp hk']
    exact hnew d hd

end

/-- The row that was read before has the generation of the current one. -/
def Fenced (st : OwnershipState) (key : Text) (existing : Option Destination) : Prop :=
  (st.findDestination key).map (·.generation) = existing.map (·.generation)

/-- **Taking a destination for a job.** -/
theorem upsertDestinationOwner_spec (hst : st.Consistent) (hact : st.isActiveJob jobId = true)
    {existing : Option Destination} {generation : ℤ} (hfence : st.Fenced key existing)
    (h : st.upsertDestinationOwner existing key (some jobId) = .ok (st', generation)) :
    Puts st st' ⟨key, generation, some jobId, none, none⟩ ∧ st'.Consistent := by
  suffices hputs : Puts st st' ⟨key, generation, some jobId, none, none⟩ ∧
      st'.leases = st.leases by
    refine ⟨hputs.1, hputs.1.consistent hst (fun other hown => ?_)
      (fun hsome => absurd hsome Bool.false_ne_true) (hputs.2 ▸ hst.leases_nodup)
      fun l hl => Or.inl (hputs.2 ▸ hl)⟩
    exact Option.some.inj hown ▸ hact
  cases existing with
  | none =>
    obtain ⟨st₁, hinsert, h⟩ := of_bind h
    cases h
    obtain ⟨hputs, heq⟩ := puts_insertDestination hst.keys_nodup hinsert
    exact ⟨hputs, by rw [heq]⟩
  | some previous =>
    obtain ⟨next, hnext, h⟩ := of_bind h
    cases h
    rw [Fenced, Option.map_some, Option.map_eq_some_iff] at hfence
    obtain ⟨d, hfind, hgen⟩ := hfence
    obtain ⟨hd, hkey⟩ := findDestination_eq_some hfind
    have hlt : d.generation < generation := by
      rw [hgen, nextGeneration_eq_ok hnext]
      exact Int.lt_succ _
    have hputs := puts_updateWhere (f := fun d => { d with
      generation := generation, ownerJobId := some jobId, mutationId := none,
      mutationPrefix := none }) (c := fun d => d.key == key) hst.keys_nodup hd (fun d' hd' => ?_)
      rfl hlt
    · rw [hkey] at hputs
      exact ⟨hputs, rfl⟩
    · rw [beq_iff_eq]
      refine ⟨fun hkey' => ?_, fun heq => heq ▸ hkey⟩
      exact inj_on_of_nodup_map hst.keys_nodup hd' hd (hkey'.trans hkey.symm)

section Tokens

variable {mutationId : Text} {mutationPrefix : Option Text} {now : ℤ}

theorem puts_installToken (hkeys : (st.destinations.map Destination.key).Nodup) {generation : ℤ}
    (h : st.installToken (st.findDestination key) key mutationId mutationPrefix =
      .ok (st', generation)) :
    Puts st st' ⟨key, generation, none, some mutationId, mutationPrefix⟩ ∧
      st'.leases = st.leases := by
  cases hfind : st.findDestination key with
  | none =>
    rw [hfind] at h
    obtain ⟨st₁, hinsert, h⟩ := of_bind h
    cases h
    obtain ⟨hputs, heq⟩ := puts_insertDestination hkeys hinsert
    exact ⟨hputs, by rw [heq]⟩
  | some d =>
    rw [hfind] at h
    obtain ⟨next, hnext, h⟩ := of_bind h
    obtain ⟨-, h⟩ := of_ensure h
    cases h
    obtain ⟨hd, hkey⟩ := findDestination_eq_some hfind
    have hlt : d.generation < generation := by
      rw [nextGeneration_eq_ok hnext]
      exact Int.lt_succ _
    have hputs := puts_updateWhere (f := fun d => { d with
      generation := generation, ownerJobId := none, mutationId := some mutationId,
      mutationPrefix := mutationPrefix })
      (c := fun d' => d'.key == key && d'.generation == d.generation) hkeys hd (fun d' hd' => ?_)
      rfl hlt
    · rw [hkey] at hputs
      exact ⟨hputs, rfl⟩
    · rw [Bool.and_eq_true, beq_iff_eq, beq_iff_eq]
      constructor
      · rintro ⟨hkey', -⟩
        exact inj_on_of_nodup_map hkeys hd' hd (hkey'.trans hkey.symm)
      · rintro rfl
        exact ⟨hkey, rfl⟩

variable {guard : StandardMutationGuard}

theorem puts_upsertStandardMutation (hkeys : (st.destinations.map Destination.key).Nodup)
    (h : st.upsertStandardMutation (st.findDestination key) key mutationId mutationPrefix now =
      .ok (st', guard)) :
    Puts st st' ⟨key, guard.expectedGeneration, none, some mutationId, mutationPrefix⟩ ∧
      guard = ⟨key, mutationId, guard.expectedGeneration, mutationPrefix⟩ ∧
      st'.leases = st.leases.filter (fun l => l.key != key) ++
        [⟨key, mutationId, guard.expectedGeneration, now + standardMutationLeaseSeconds⟩] := by
  obtain ⟨⟨st₁, generation⟩, hinstall, h⟩ := of_bind h
  cases h
  obtain ⟨hputs, hleases⟩ := puts_installToken hkeys hinstall
  exact ⟨{ hputs with }, rfl, hleases ▸ rfl⟩

/-- **Installing a token**, with its lease. -/
theorem upsertStandardMutation_spec (hst : st.Consistent)
    (h : st.upsertStandardMutation (st.findDestination key) key mutationId mutationPrefix now =
      .ok (st', guard)) :
    Puts st st' ⟨key, guard.expectedGeneration, none, some mutationId, mutationPrefix⟩ ∧
      st'.Consistent ∧ guard = ⟨key, mutationId, guard.expectedGeneration, mutationPrefix⟩ := by
  obtain ⟨hputs, hguard, hleases⟩ := puts_upsertStandardMutation hst.keys_nodup h
  refine ⟨hputs, hputs.consistent hst (fun _ hown => ?_) (fun _ => rfl) ?_ fun l hl => ?_, hguard⟩
  · cases hown
  · rw [hleases, map_append, map_singleton, nodup_append]
    refine ⟨hst.leases_nodup.sublist (filter_sublist.map _), nodup_singleton _,
      fun k hk k' hk' => ?_⟩
    obtain ⟨l, hl, rfl⟩ := mem_map.mp hk
    rw [mem_singleton.mp hk']
    exact bne_iff_ne.mp (mem_filter.mp hl).2
  · rw [hleases] at hl
    rcases mem_append.mp hl with hl | hl
    · exact Or.inl (mem_filter.mp hl).1
    · rw [mem_singleton.mp hl]
      exact Or.inr ⟨rfl, rfl, rfl⟩

theorem admitKey_eq_ok {mutationIds : List (Text × Text)}
    {acc acc' : OwnershipState × List StandardMutationGuard}
    (h : admitKey mutationIds now acc key = .ok acc') :
    ∃ mutationId guard, acc.1.upsertStandardMutation (acc.1.findDestination key) key mutationId none
      now = .ok (acc'.1, guard) ∧ acc'.2 = acc.2 ++ [guard] := by
  unfold admitKey at h
  cases hid : mutationIds.lookup key with
  | none =>
    simp only [hid] at h
    cases h
  | some mutationId =>
    simp only [hid] at h
    obtain ⟨⟨st₁, guard⟩, hupsert, h⟩ := of_bind h
    cases h
    exact ⟨mutationId, guard, hupsert, rfl⟩

end Tokens

end OwnershipState
end IpfS3.Ownership
