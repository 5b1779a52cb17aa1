import IpfS3.Ownership.Frames

/-!
# Clearing a scope before it is granted

Every admission and every import claim first clears its scopes: conflicting jobs are superseded and
overlapping tokens invalidated (`Cleared`).  What is granted then overlaps nothing that another
holder still holds.  For each of them: it is `Sound`, it `Clears` its scopes, and the destination of
each of its keys gets a `Newer` generation.
-/

namespace IpfS3.Ownership

open Table Fallible Batches Exclusion List

namespace OwnershipState

variable {st st' st₁ st₂ : OwnershipState} {jobId key : Text} {now : ℤ}

/-! ## Generations under supersession -/

/-- The keys and generations of the destinations. -/
def fences (st : OwnershipState) : List (Text × ℤ) :=
  st.destinations.map fun d => (d.key, d.generation)

theorem fenced_of_fences_eq (h : st'.fences = st.fences) (key : Text) :
    st'.Fenced key (st.findDestination key) := by
  have hfind : ∀ s : OwnershipState, (s.findDestination key).map (·.generation) =
      (s.fences.find? fun fence => fence.1 == key).map Prod.snd := by
    intro s
    rw [fences, find?_map, Option.map_map]
    rfl
  rw [Fenced, hfind st', hfind st, h]

theorem Released.fences_eq {lost : Text → Prop} (h : Released lost st st') :
    st'.fences = st.fences := by
  refine map_eq_of_forall₂ h.destinations fun d d' hrow => ?_
  rw [hrow.token_eq.1, hrow.token_eq.2.1]

theorem Invalidated.fences_eq {keys : List Text} {mutationPrefix : Option Text}
    (h : Invalidated keys mutationPrefix st st') : st'.fences = st.fences := by
  refine map_eq_of_forall₂ h.destinations fun d d' hrow => ?_
  rw [hrow.fence_eq.1, hrow.fence_eq.2.1]

/-! ## Cleared scopes -/

/-- The scopes of exact keys and a prefix are cleared for everybody but an excluded job. -/
structure Cleared (keys : List Text) (mutationPrefix excluding : Option Text)
    (st st' : OwnershipState) : Prop where
  consistent : st'.Consistent
  weaker : Weaker st st'
  excluded : ∀ x, excluding = some x → st.isActiveJob x = true → st'.isActiveJob x = true
  tokens : ∀ d ∈ st'.destinations, d.mutationId.isSome = true →
    tokenOverlaps keys mutationPrefix d = false
  jobs : ∀ x, Conflicts (keys.map st.exactTarget) mutationPrefix st' x →
    st'.isActiveJob x = true → excluding = some x

section Cleared

variable {keys : List Text} {mutationPrefix excluding : Option Text}

theorem cleared_of_supersedeConflicts (hst : st.Consistent)
    (hsup : st.supersedeConflicts (keys.map st.exactTarget) mutationPrefix excluding now = .ok st₁)
    (hinv : st₁.invalidateStandardMutations keys mutationPrefix = .ok st₂) :
    Cleared keys mutationPrefix excluding st st₂ := by
  obtain ⟨⟨hcons, hw, hexcluded⟩, hjobs⟩ := supersedeConflicts_spec hst hsup
  obtain ⟨hinvalidated, htokens⟩ := invalidateStandardMutations_spec hcons.keys_nodup hinv
  have hw₂ := hinvalidated.destinationsWeaker
  have hact : ∀ x, st₂.isActiveJob x = st₁.isActiveJob x := isActiveJob_congr hw₂.jobs_eq
  refine ⟨hw₂.consistent hcons, hw.trans hw₂.weaker, fun x hx hactive => ?_, htokens,
    fun x hconf hactive => ?_⟩
  · exact (hact x).trans (hexcluded x hx hactive)
  · exact hjobs x (hconf.of_weaker hw₂.weaker) (hact x ▸ hactive)

theorem tokenOverlaps_eq_false_iff {d : Destination} :
    tokenOverlaps keys mutationPrefix d = false ↔
      (∀ k ∈ keys, d.key ≠ k ∧ ∀ pfx, d.mutationPrefix = some pfx → ¬pfx <+: k) ∧
      ∀ pfx, mutationPrefix = some pfx → ¬pfx <+: d.key ∧
        ∀ pfx', d.mutationPrefix = some pfx' → ¬(pfx <+: pfx' ∨ pfx' <+: pfx) := by
  rw [tokenOverlaps, Bool.or_eq_false_iff, any_eq_false]
  refine and_congr (forall₂_congr fun k _ => ?_) ?_
  · rw [Bool.or_eq_true, beq_iff_eq, not_or]
    cases d.mutationPrefix with
    | none => simp
    | some pfx => simp
  · cases mutationPrefix with
    | none => simp
    | some pfx =>
      cases d.mutationPrefix with
      | none => simp [Text.startsWith_iff, ← Bool.not_eq_true]
      | some pfx' => simp [Text.startsWith_iff, ← Bool.not_eq_true, prefixesOverlap]

namespace Cleared

variable (h : Cleared keys mutationPrefix excluding st st')

include h

theorem not_overlaps (hst : st.Consistent) {holder : Holder}
    (hne : ∀ x, excluding = some x → holder ≠ .job x) {scope : Scope UInt8}
    (hholds : st'.Holds holder scope) :
    (∀ k ∈ keys, ¬Meets scope (.exact k)) ∧
      ∀ pfx, mutationPrefix = some pfx → ¬Meets scope (.under pfx) := by
  cases holder with
  | token key =>
    obtain ⟨d, hd, rfl, htoken, hscope⟩ := hholds
    obtain ⟨hkeys, hpre⟩ := tokenOverlaps_eq_false_iff.mp (h.tokens d hd htoken)
    rcases hscope with rfl | ⟨pfx', hpfx', rfl⟩
    · exact ⟨fun k hk hmeets => (hkeys k hk).1 hmeets.2.2,
        fun pfx hpfx hmeets => (hpre pfx hpfx).1 hmeets.2.2⟩
    · exact ⟨fun k hk hmeets => (hkeys k hk).2 pfx' hpfx' hmeets.2.2,
        fun pfx hpfx hmeets => (hpre pfx hpfx).2 pfx' hpfx' (Or.symm hmeets.2.2)⟩
  | job x =>
    obtain ⟨hact, hscope⟩ := hholds
    have hnot : ¬Conflicts (keys.map st.exactTarget) mutationPrefix st' x :=
      fun hconf => hne x (h.jobs x hconf hact) rfl
    rcases hscope with ⟨d', hd', howner, rfl⟩ | ⟨c, hc, hjob, rfl⟩
    · refine ⟨fun k hk ⟨_, _, hover⟩ => hnot (Or.inl ⟨st.exactTarget k, mem_map_of_mem hk, ?_⟩),
        fun pfx hpfx ⟨_, hnul, hover⟩ => hnot (Or.inr ⟨pfx, hpfx,
          Or.inr ⟨d', hd', howner, sqlStartsWith_iff.mpr ⟨hnul, hover⟩⟩⟩)⟩
      -- the owner was read before the conflicts were superseded
      obtain ⟨d, hd, hle⟩ := h.weaker.exists_destination hd'
      have hkey : d.key = k := hle.key_eq.symm.trans hover
      left
      show (st.findDestination k).bind (·.ownerJobId) = some x
      rw [← hkey, findDestination_of_mem hst.keys_nodup hd]
      exact hle.owner_eq howner
    · refine ⟨fun k hk ⟨hnul, _, hover⟩ => hnot (Or.inl ⟨st.exactTarget k, mem_map_of_mem hk,
        Or.inr ⟨c, hc, hjob, sqlStartsWith_iff.mpr ⟨hnul, hover⟩⟩⟩),
        fun pfx hpfx ⟨hnul, hnul', hover⟩ => hnot (Or.inr ⟨pfx, hpfx, Or.inl ⟨c, hc, hjob, ?_⟩⟩)⟩
      rw [Bool.or_eq_true, sqlStartsWith_iff, sqlStartsWith_iff]
      exact hover.imp (fun hpre => ⟨hnul, hpre⟩) fun hpre => ⟨hnul', hpre⟩

theorem sound : Sound st st' := h.weaker.sound h.consistent

end Cleared

end Cleared

/-! ## Claims of an import job -/

/-- The destination of a key has a newer generation. -/
def Newer (st st' : OwnershipState) (key : Text) : Prop :=
  ∃ d' ∈ st'.destinations, d'.key = key ∧
    ∀ d ∈ st.destinations, d.key = key → d.generation < d'.generation

theorem Newer.of_advances (h : Newer st₁ st₂ key) (hbefore : Advances st st₁)
    (hafter : Advances st₂ st') : Newer st st' key := by
  obtain ⟨d₂, hd₂, hkey, hnewer⟩ := h
  obtain ⟨d', hd', hadv'⟩ := hafter d₂ hd₂
  refine ⟨d', hd', hadv'.key_eq.trans hkey, fun d hd hdkey => ?_⟩
  obtain ⟨d₁, hd₁, hadv⟩ := hbefore d hd
  exact (hadv.generation_le.trans_lt (hnewer d₁ hd₁ (hadv.key_eq.trans hdkey))).trans_le
    hadv'.generation_le

theorem Puts.newer' {row : Destination} (h : Puts st st' row) : Newer st st' row.key :=
  ⟨row, (h.mem_iff row).mpr (Or.inr rfl), rfl, h.newer⟩

/-- On the way from one state to the other, the scopes were cleared. -/
def Clears (keys : List Text) (mutationPrefix : Option Text) (st st' : OwnershipState) : Prop :=
  ∃ excluding st₁ st₂, Advances st st₁ ∧ Cleared keys mutationPrefix excluding st₁ st₂ ∧
    Advances st₂ st'

theorem Clears.of_advances {keys : List Text} {mutationPrefix : Option Text}
    (h : Clears keys mutationPrefix st₁ st₂) (hbefore : Advances st st₁)
    (hafter : Advances st₂ st') : Clears keys mutationPrefix st st' := by
  obtain ⟨excluding, s₁, s₂, h₁, hcl, h₂⟩ := h
  exact ⟨excluding, s₁, s₂, hbefore.trans h₁, hcl, h₂.trans hafter⟩

variable {generation : ℤ} {claim : ImportClaim}

section

variable (hst : st.Consistent)

include hst

/-- **Claiming a destination for an active job.** -/
theorem claimPrimaryDestination_spec (hact : st.isActiveJob jobId = true)
    (h : st.claimPrimaryDestination jobId key now = .ok (st', generation)) :
    Sound st st' ∧ st'.isActiveJob jobId = true ∧ Clears [key] none st st' ∧ Newer st st' key ∧
      ∃ d ∈ st'.destinations, d.key = key ∧ d.generation = generation := by
  obtain ⟨st₁, hsup, h⟩ := of_bind h
  obtain ⟨st₂, hinv, h⟩ := of_bind h
  have hcl : Cleared [key] none (some jobId) st st₂ := cleared_of_supersedeConflicts hst hsup hinv
  have hact₂ := hcl.excluded jobId rfl hact
  have hreleased : Released (fun _ => True) st st₁ :=
    released_of_supersedeConflicts (fun _ _ _ _ => trivial) hsup
  obtain ⟨hinvalidated, -⟩ := invalidateStandardMutations_spec
    (hreleased.keys_eq ▸ hst.keys_nodup) hinv
  have hfence : st₂.Fenced key (st.findDestination key) :=
    fenced_of_fences_eq (hinvalidated.fences_eq.trans hreleased.fences_eq) key
  obtain ⟨hputs, hcons⟩ := upsertDestinationOwner_spec hcl.consistent hact₂ hfence h
  have hsound : Sound st₂ st' := by
    refine ⟨hcons, hputs.advances, fun hex => Exclusive.grant (fun _ _ => Meets.symm) hex
      (a := .job jobId) (G := fun scope => scope = .exact key) ?_ fun holder scope hh => ?_⟩
    · rintro scope rfl holder scope' hne hholds
      refine (hcl.not_overlaps hst (fun x hx => ?_) hholds).1 key (mem_singleton_self key)
      exact Option.some.inj hx ▸ hne
    · rcases hputs.holds hh with hold | ⟨-, htoken, -⟩ | ⟨x, rfl, howner, hscope⟩
      · exact Or.inl hold
      · cases htoken
      · exact Or.inr ⟨congrArg _ (Option.some.inj howner).symm, hscope⟩
  refine ⟨hcl.sound.trans hsound, (hputs.isActiveJob_eq jobId).trans hact₂,
    ⟨some jobId, st, st₂, Advances.refl st, hcl, hputs.advances⟩,
    hputs.newer'.of_advances hcl.sound.advances (Advances.refl st'), ?_⟩
  exact ⟨_, (hputs.mem_iff _).mpr (Or.inr rfl), rfl, rfl⟩

theorem insertTarget_spec {target : JobTarget}
    (hrow : ∃ d ∈ st.destinations, d.key = target.key ∧ d.generation = target.expectedGeneration)
    (h : st.insertTarget target = .ok st') :
    Sound st st' ∧ st'.destinations = st.destinations ∧ st'.jobs = st.jobs := by
  obtain ⟨-, h⟩ := of_ensure h
  cases h
  have hcons : { st with targets := st.targets ++ [target] }.Consistent := by
    refine { hst with target_row := fun t ht => ?_ }
    rcases mem_append.mp ht with ht | ht
    · exact hst.target_row t ht
    · obtain ⟨d, hd, hkey, hgen⟩ := hrow
      rw [mem_singleton.mp ht]
      exact ⟨d, hd, hkey, hgen.ge⟩
  refine ⟨⟨hcons, Advances.of_eq rfl, fun hex => hex.mono fun holder scope hh => ?_⟩, rfl, rfl⟩
  cases holder with
  | token key => exact hh
  | job x => exact hh

/-- **Claiming a literal prefix for an active job.** -/
theorem installPrefixClaim_spec (hact : st.isActiveJob jobId = true)
    {pfx : Text} (h : st.installPrefixClaim jobId pfx now = .ok st') :
    Sound st st' ∧ Clears [] (some pfx) st st' := by
  obtain ⟨st₁, hsup, h⟩ := of_bind h
  obtain ⟨st₂, hinv, h⟩ := of_bind h
  have hcl : Cleared [] (some pfx) (some jobId) st st₂ :=
    cleared_of_supersedeConflicts hst hsup hinv
  have hact₂ := hcl.excluded jobId rfl hact
  suffices hsound : Sound st₂ st' from ⟨hcl.sound.trans hsound,
    some jobId, st, st₂, Advances.refl st, hcl, hsound.advances⟩
  split_ifs at h
  · exact Except.ok.inj h ▸ Sound.refl hcl.consistent
  · cases h
    refine ⟨{ hcl.consistent with claim_active := fun c hc => ?_ }, Advances.of_eq rfl,
      fun hex => Exclusive.grant (fun _ _ => Meets.symm) hex (a := .job jobId)
        (G := fun scope => scope = .under pfx) ?_ fun holder scope hh => ?_⟩
    · rcases mem_append.mp hc with hc | hc
      · exact hcl.consistent.claim_active c hc
      · rw [mem_singleton.mp hc]
        exact hact₂
    · rintro scope rfl holder scope' hne hholds
      refine (hcl.not_overlaps hst (fun x hx => ?_) hholds).2 pfx rfl
      exact Option.some.inj hx ▸ hne
    · cases holder with
      | token key => exact Or.inl hh
      | job x =>
        obtain ⟨hx, hdest | ⟨c, hc, hjob, hscope⟩⟩ := hh
        · exact Or.inl ⟨hx, Or.inl hdest⟩
        · rcases mem_append.mp hc with hc | hc
          · exact Or.inl ⟨hx, Or.inr ⟨c, hc, hjob, hscope⟩⟩
          · rw [mem_singleton.mp hc] at hjob hscope
            exact Or.inr ⟨congrArg _ hjob.symm, hscope⟩

theorem insertQueued_spec {request : NewImportJob}
    (h : st.insertQueued request now = .ok st') :
    Sound st st' ∧ st'.isActiveJob request.id = true := by
  obtain ⟨hfresh, h⟩ := of_ensure h
  cases h
  have hact : ∀ x, x ≠ request.id → ∀ job : ImportJob, job.id = request.id →
      { st with jobs := st.jobs ++ [job] }.isActiveJob x = st.isActiveJob x := by
    intro x hx job hid
    rw [isActiveJob, isActiveJob, any_append, any_cons, any_nil, hid,
      beq_eq_false_iff_ne.mpr (Ne.symm hx), Bool.false_and, Bool.or_false, Bool.or_false]
  have hne : ∀ x, st.isActiveJob x = true → x ≠ request.id := by
    rintro x hx rfl
    obtain ⟨job, hjob, hid, -⟩ := isActiveJob_iff.mp hx
    exact hfresh job hjob hid
  refine ⟨⟨{ hst with ids_nodup := ?_, owner_active := ?_, claim_active := ?_ },
    Advances.of_eq rfl, fun hex => hex.mono fun holder scope hh => ?_⟩, ?_⟩
  · rw [map_append, map_singleton, nodup_append]
    refine ⟨hst.ids_nodup, nodup_singleton _, fun x hx y hy => ?_⟩
    obtain ⟨job, hjob, rfl⟩ := mem_map.mp hx
    rw [mem_singleton.mp hy]
    exact hfresh job hjob
  · intro d hd x howner
    have hx := hst.owner_active d hd x howner
    exact (hact x (hne x hx) _ rfl).trans hx
  · intro c hc
    have hx := hst.claim_active c hc
    exact (hact c.jobId (hne _ hx) _ rfl).trans hx
  · cases holder with
    | token key => exact hh
    | job x =>
      obtain ⟨hx, hscope⟩ := hh
      refine ⟨?_, hscope⟩
      rcases hscope with ⟨d, hd, howner, -⟩ | ⟨c, hc, rfl, -⟩
      · exact hst.owner_active d hd x howner
      · exact hst.claim_active c hc
  · exact isActiveJob_iff.mpr ⟨_, mem_append_right _ (mem_singleton_self _), rfl, rfl⟩

/-- **Creating a job** claims its key and its prefix. -/
theorem createJob_spec {request : NewImportJob}
    (h : st.createJob request now = .ok st') :
    Sound st st' ∧ Clears [request.key] none st st' ∧ Newer st st' request.key ∧
      ∀ pfx, request.decompressPrefix = some pfx → Clears [] (some pfx) st st' := by
  obtain ⟨st₁, hinsert, h⟩ := of_bind h
  obtain ⟨hsound₁, hact₁⟩ := insertQueued_spec hst hinsert
  obtain ⟨⟨st₂, generation⟩, hclaim, h⟩ := of_bind h
  obtain ⟨hsound₂, hact₂, hclears, hnewer, hrow⟩ :=
    claimPrimaryDestination_spec hsound₁.consistent hact₁ hclaim
  obtain ⟨st₃, htarget, h⟩ := of_bind h
  obtain ⟨hsound₃, -, hjobs⟩ := insertTarget_spec hsound₂.consistent hrow htarget
  have hbefore := hsound₁.trans (hsound₂.trans hsound₃)
  have hact₃ : st₃.isActiveJob request.id = true := (isActiveJob_congr hjobs _).trans hact₂
  suffices hlast : Sound st₃ st' ∧ ∀ pfx, request.decompressPrefix = some pfx →
      Clears [] (some pfx) st₃ st' by
    have hafter := hsound₃.advances.trans hlast.1.advances
    refine ⟨hbefore.trans hlast.1, hclears.of_advances hsound₁.advances hafter,
      hnewer.of_advances hsound₁.advances hafter, fun pfx hpfx => ?_⟩
    exact (hlast.2 pfx hpfx).of_advances hbefore.advances (Advances.refl st')
  cases hpfx : request.decompressPrefix with
  | none =>
    simp only [hpfx] at h
    cases h
    refine ⟨Sound.refl hsound₃.consistent, fun pfx hsome => ?_⟩
    cases hsome
  | some pfx =>
    simp only [hpfx] at h
    obtain ⟨hsound, hclears⟩ := installPrefixClaim_spec hsound₃.consistent hact₃ h
    exact ⟨hsound, fun pfx' hpfx' => Option.some.inj hpfx' ▸ hclears⟩

end

theorem isActiveJob_of_activeClaim {workerId : Text} {claimEpoch : ℤ}
    (h : st.jobs.any (activeClaim jobId workerId claimEpoch now) = true) :
    st.isActiveJob jobId = true := by
  obtain ⟨job, hjob, hactive⟩ := any_eq_true.mp h
  simp only [activeClaim, Bool.and_eq_true, beq_iff_eq] at hactive
  obtain ⟨⟨⟨⟨hid, hstate⟩, -⟩, -⟩, -⟩ := hactive
  exact isActiveJob_iff.mpr ⟨job, hjob, hid, hstate ▸ rfl⟩

theorem isActiveJob_of_verifyExtractionClaim (h : st.verifyExtractionClaim claim key now = .ok ()) :
    st.isActiveJob claim.jobId = true := by
  obtain ⟨⟨⟩, hclaim, -⟩ := of_bind h
  exact isActiveJob_of_activeClaim (ensure_eq_ok_iff.mp hclaim)

/-- **Claiming an extracted target**: a repeated claim changes nothing. -/
theorem claimExtractedTarget_spec (hst : st.Consistent)
    (h : st.claimExtractedTarget claim key now = .ok (st', generation)) :
    Sound st st' ∧ (st.findTarget claim.jobId key = none →
      Clears [key] none st st' ∧ Newer st st' key) := by
  obtain ⟨⟨⟩, hverify, h⟩ := of_bind h
  have hact := isActiveJob_of_verifyExtractionClaim hverify
  cases hfind : st.findTarget claim.jobId key with
  | some existing =>
    simp only [hfind] at h
    split_ifs at h
    cases h
    refine ⟨Sound.refl hst, fun hnone => ?_⟩
    cases hnone
  | none =>
    simp only [hfind] at h
    obtain ⟨⟨st₁, g⟩, hclaim, h⟩ := of_bind h
    obtain ⟨hsound₁, -, hclears, hnewer, hrow⟩ := claimPrimaryDestination_spec hst hact hclaim
    obtain ⟨st₂, htarget, h⟩ := of_bind h
    cases h
    obtain ⟨hsound₂, -, -⟩ := insertTarget_spec hsound₁.consistent hrow htarget
    refine ⟨hsound₁.trans hsound₂, fun _ => ⟨?_, ?_⟩⟩
    · exact hclears.of_advances (Advances.refl st) hsound₂.advances
    · exact hnewer.of_advances (Advances.refl st) hsound₂.advances

theorem clearOwner_spec (h : st.clearOwner jobId key generation = .ok st') :
    DestinationsWeaker st st' := by
  obtain ⟨-, h⟩ := of_ensure h
  cases h
  exact destinationsWeaker_updateWhere fun d _ _ => ⟨rfl, le_rfl, Or.inr rfl, Or.inl ⟨rfl, rfl⟩⟩

theorem weaker_targets {targets : List JobTarget} (h : ∀ t ∈ targets, t ∈ st.targets) :
    Weaker st { st with targets := targets } := { Weaker.refl st with targets := h }

theorem sound_releaseExtractedTarget (hst : st.Consistent)
    (h : st.releaseExtractedTarget claim key generation now = .ok st') : Sound st st' := by
  obtain ⟨⟨⟩, -, h⟩ := of_bind h
  obtain ⟨-, h⟩ := of_ensure h
  obtain ⟨-, h⟩ := of_ensure h
  have hw : Weaker st { st with
      targets := deleteWhere (fun t => t.jobId == claim.jobId && t.key == key) st.targets } :=
    weaker_targets fun t ht => (mem_deleteWhere.mp ht).1
  have hclear := clearOwner_spec h
  exact (hw.trans hclear.weaker).sound
    (hclear.consistent (hst.weaken_of_jobs_eq hw rfl))

theorem sound_resetExtractedTarget (hst : st.Consistent) {target : JobTarget}
    (h : resetExtractedTarget jobId st target = .ok st') : Sound st st' := by
  obtain ⟨-, h⟩ := of_ensure h
  obtain ⟨st₁, hclear, h⟩ := of_bind h
  obtain ⟨-, h⟩ := of_ensure h
  cases h
  have hsound := (clearOwner_spec hclear).sound hst
  have hw : Weaker st₁ { st₁ with targets := deleteWhere (fun t => t.jobId == jobId &&
      t.key == target.key && t.kind == .extracted &&
        t.expectedGeneration == target.expectedGeneration) st₁.targets } :=
    weaker_targets fun t ht => (mem_deleteWhere.mp ht).1
  exact hsound.trans (hw.sound (hsound.consistent.weaken_of_jobs_eq hw rfl))

theorem sound_resetExtractedTargetBatch (hst : st.Consistent)
    (h : st.resetExtractedTargetBatch claim now = .ok st') : Sound st st' := by
  obtain ⟨⟨⟩, -, h⟩ := of_bind h
  obtain ⟨st₁, hbatch, h⟩ := of_bind h
  obtain ⟨⟨⟩, -, h⟩ := of_bind h
  cases h
  exact foldlM_invariant (J := fun s => Sound st s)
    (fun t _ s s' hs hreset => hs.trans (sound_resetExtractedTarget hs.consistent hreset))
    (Sound.refl hst) hbatch

/-! ## Admissions -/

/-- A guard that was issued: its row is there, is not behind it, and at its generation a token still
has its prefix. -/
def Issued (st : OwnershipState) (guard : StandardMutationGuard) : Prop :=
  ∃ d ∈ st.destinations, d.key = guard.key ∧ guard.expectedGeneration ≤ d.generation ∧
    (d.generation = guard.expectedGeneration → d.mutationId.isSome = true →
      d.mutationPrefix = guard.mutationPrefix)

theorem Issued.advances {guard : StandardMutationGuard} (h : st.Issued guard)
    (hadv : Advances st st') : st'.Issued guard := by
  obtain ⟨d, hd, hkey, hgen, hpre⟩ := h
  obtain ⟨d', hd', hrow⟩ := hadv d hd
  have hle := hrow.generation_le
  refine ⟨d', hd', hrow.key_eq.trans hkey, hgen.trans hle, fun heq htoken => ?_⟩
  obtain ⟨hsome, hpre'⟩ := hrow.token (by omega) htoken
  exact hpre'.trans (hpre (by omega) hsome)

theorem Puts.issued {row : Destination} (h : Puts st st' row) (mutationId : Text) :
    st'.Issued ⟨row.key, mutationId, row.generation, row.mutationPrefix⟩ :=
  ⟨row, (h.mem_iff row).mpr (Or.inr rfl), rfl, le_rfl, fun _ _ => rfl⟩

theorem Puts.sound_token {mutationId : Text} {mutationPrefix : Option Text}
    (h : Puts st st' ⟨key, generation, none, some mutationId, mutationPrefix⟩)
    (hcons : st'.Consistent) (hexact : st.Clear (.token key) (.exact key))
    (hpre : ∀ pfx, mutationPrefix = some pfx → st.Clear (.token key) (.under pfx)) :
    Sound st st' := by
  refine ⟨hcons, h.advances, fun hex => Exclusive.grant (fun _ _ => Meets.symm) hex
    (a := .token key) (G := fun scope => scope = .exact key ∨
      ∃ pfx, mutationPrefix = some pfx ∧ scope = .under pfx) ?_ fun holder scope hh => ?_⟩
  · rintro scope (rfl | ⟨pfx, hpfx, rfl⟩)
    · exact hexact
    · exact hpre pfx hpfx
  · rcases h.holds hh with hold | ⟨rfl, -, hscope⟩ | ⟨x, -, howner, -⟩
    · exact Or.inl hold
    · exact Or.inr ⟨rfl, hscope⟩
    · cases howner

theorem admitKeys_spec {mutationIds : List (Text × Text)} {keys : List Text} (hkeys : keys.Nodup)
    {issued guards : List StandardMutationGuard} (hst : st.Consistent)
    (h : keys.foldlM (admitKey mutationIds now) (st, issued) = .ok (st', guards)) :
    st'.Consistent ∧ Advances st st' ∧
      ((∀ k ∈ keys, st.Clear (.token k) (.exact k)) → st.Exclusive → st'.Exclusive) ∧
      (∀ k ∈ keys, Newer st st' k) ∧ ∀ g ∈ guards, g ∈ issued ∨ st'.Issued g := by
  induction keys generalizing st issued with
  | nil =>
    cases h
    exact ⟨hst, Advances.refl st', fun _ hex => hex, fun k hk => absurd hk not_mem_nil,
      fun g hg => Or.inl hg⟩
  | cons k keys ih =>
    obtain ⟨⟨st₁, issued₁⟩, hadmit, h⟩ := of_bind h
    obtain ⟨hk, hkeys⟩ := nodup_cons.mp hkeys
    obtain ⟨mutationId, guard, hupsert, rfl⟩ := admitKey_eq_ok hadmit
    obtain ⟨hputs, hcons, hguard⟩ := upsertStandardMutation_spec hst hupsert
    obtain ⟨hcons', hadv, hex, hnewer, hissued⟩ := ih hkeys hcons h
    refine ⟨hcons', hputs.advances.trans hadv, fun hclear hexst => ?_, fun k' hk' => ?_,
      fun g hg => ?_⟩
    · have hsound := hputs.sound_token hcons (hclear k mem_cons_self)
        fun pfx hpfx => by cases hpfx
      refine hex (fun k' hk' holder scope hne hholds hover => ?_) (hsound.exclusive hexst)
      rcases hputs.holds hholds with hold | ⟨rfl, -, rfl | ⟨pfx, hpfx, -⟩⟩ | ⟨x, -, howner, -⟩
      · exact hclear k' (mem_cons_of_mem k hk') holder scope hne hold hover
      · have heq : k = k' := hover.2.2
        exact hk (heq ▸ hk')
      · cases hpfx
      · cases howner
    · rcases mem_cons.mp hk' with rfl | hk'
      · exact hputs.newer'.of_advances (Advances.refl st) hadv
      · exact (hnewer k' hk').of_advances hputs.advances (Advances.refl st')
    · rcases hissued g hg with hold | hissued
      · rcases mem_append.mp hold with hold | hnew
        · exact Or.inl hold
        · rw [mem_singleton.mp hnew, hguard]
          exact Or.inr ((hputs.issued mutationId).advances hadv)
      · exact Or.inr hissued

/-- **Admitting content keys.** -/
theorem admitContentMutations_spec {mutationIds : List (Text × Text)} {keys : List Text}
    (hkeys : keys.Nodup) {excluding : Option Text} {guards : List StandardMutationGuard}
    (hst : st.Consistent)
    (h : st.admitContentMutations keys mutationIds excluding now = .ok (st', guards)) :
    st'.Consistent ∧ Advances st st' ∧ (excluding = none → st.Exclusive → st'.Exclusive) ∧
      Clears keys none st st' ∧ (∀ k ∈ keys, Newer st st' k) ∧ ∀ g ∈ guards, st'.Issued g := by
  obtain ⟨st₁, hsup, h⟩ := of_bind h
  obtain ⟨st₂, hinv, h⟩ := of_bind h
  have hcl : Cleared keys none excluding st st₂ := cleared_of_supersedeConflicts hst hsup hinv
  obtain ⟨hcons, hadv, hex, hnewer, hissued⟩ := admitKeys_spec hkeys hcl.consistent h
  refine ⟨hcons, hcl.sound.advances.trans hadv, fun hnone hexst => ?_,
    ⟨excluding, st, st₂, Advances.refl st, hcl, hadv⟩, fun k hk => ?_, fun g hg => ?_⟩
  · refine hex (fun k hk holder scope _ hholds => ?_) (hcl.sound.exclusive hexst)
    refine (hcl.not_overlaps hst (fun x hx => ?_) hholds).1 k hk
    rw [hnone] at hx
    cases hx
  · exact (hnewer k hk).of_advances hcl.sound.advances (Advances.refl st')
  · exact (hissued g hg).resolve_left not_mem_nil

/-- **Admitting a prefix** installs no token. -/
theorem admitPrefixMutation_spec (hst : st.Consistent) {pfx : Text}
    (h : st.admitPrefixMutation pfx now = .ok st') :
    Sound st st' ∧ Clears [] (some pfx) st st' := by
  obtain ⟨st₁, hsup, hinv⟩ := of_bind h
  have hcl : Cleared [] (some pfx) none st st' := cleared_of_supersedeConflicts hst hsup hinv
  exact ⟨hcl.sound, none, st, st', Advances.refl st, hcl, Advances.refl st'⟩

/-- **Admitting a key together with a prefix.** -/
theorem admitContentAndPrefixMutation_spec (hst : st.Consistent) {pfx mutationId : Text}
    {guard : StandardMutationGuard}
    (h : st.admitContentAndPrefixMutation key pfx mutationId now = .ok (st', guard)) :
    Sound st st' ∧ Clears [key] (some pfx) st st' ∧ Newer st st' key ∧ st'.Issued guard := by
  obtain ⟨st₁, hsup, h⟩ := of_bind h
  obtain ⟨st₂, hinv, h⟩ := of_bind h
  have hcl : Cleared [key] (some pfx) none st st₂ := cleared_of_supersedeConflicts hst hsup hinv
  obtain ⟨hputs, hcons, hguard⟩ := upsertStandardMutation_spec hcl.consistent h
  have hclear : ∀ holder scope, st₂.Holds holder scope → ¬Meets scope (.exact key) ∧
      ¬Meets scope (.under pfx) := by
    intro holder scope hholds
    obtain ⟨hexact, hunder⟩ := hcl.not_overlaps hst (fun x hx => by cases hx) hholds
    exact ⟨hexact key (mem_singleton_self key), hunder pfx rfl⟩
  have hsound : Sound st₂ st' := by
    refine hputs.sound_token hcons (fun holder scope _ hholds => (hclear holder scope hholds).1)
      fun pfx' hpfx' => ?_
    cases hpfx'
    exact fun holder scope _ hholds => (hclear holder scope hholds).2
  refine ⟨hcl.sound.trans hsound, ⟨none, st, st₂, Advances.refl st, hcl, hsound.advances⟩,
    hputs.newer'.of_advances hcl.sound.advances (Advances.refl st'), ?_⟩
  rw [hguard]
  exact hputs.issued mutationId

end OwnershipState
end IpfS3.Ownership
