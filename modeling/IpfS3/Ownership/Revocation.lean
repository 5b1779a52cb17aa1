import IpfS3.Ownership.Exclusivity

/-!
# Guards are revoked for ever

A guard names a key, a token and a generation.  Tokens are cleared in place and may be installed
again under the same name, but never at the same generation: once the row of a guard has gone on to
another generation, or has lost its token, the generation is `Dead`, it stays dead in every later
state (`Dead.advances`), and no guard of it is accepted again (`rejected_of_dead`).  Completion,
release, recovery of an expired lease, and an overlapping admission or claim all leave the
generation of a guard dead.

Two transactions return what is already there instead of granting anew: a lifecycle admission whose
token is live, and the claim of an extracted target that the job has claimed before.  They revoke
nothing and leave the generation as it is (`lifecycle_readmission_keeps_guard`), so
`guards_revoked_for_ever` speaks about the other ones, which are `Fresh`.
-/

namespace IpfS3.Ownership

open Table Fallible Batches BoundedMerge Exclusion Transactions List Option

/-- The scopes that a transaction admits or claims. -/
def Op.scopes : Op → List (Scope UInt8)
  | submit request => .exact request.key :: request.decompressPrefix.toList.map .under
  | claimExtractedTarget _ key => [.exact key]
  | admitContentMutations keys _ _ => keys.map .exact
  | admitPrefixMutation pfx => [.under pfx]
  | admitContentAndPrefixMutation key pfx _ => [.exact key, .under pfx]
  | admitZipOutputsWithoutSource _ keys _ => keys.map .exact
  | admitZipV2Source sourceKey _ _ => [.exact sourceKey]
  | tryAdmitLifecycleMutation key _ _ => [.exact key]
  | _ => []

def StandardMutationGuard.scopes (guard : StandardMutationGuard) : List (Scope UInt8) :=
  .exact guard.key :: guard.mutationPrefix.toList.map .under

namespace OwnershipState

variable {st st' st₁ st₂ : OwnershipState} {jobId key : Text} {now : ℤ}
  {guard : StandardMutationGuard}

/-! ## Dead generations are rejected -/

structure Rejected (st : OwnershipState) (guard : StandardMutationGuard) : Prop where
  verify : ∀ archiveKey entryKeys now,
    st.verifyStandardMutationGuard guard archiveKey entryKeys now ≠ .ok ()
  renew : ∀ now st', st.renewStandardMutation guard now ≠ .ok st'
  complete : ∀ now st', st.completeStandardMutation guard now ≠ .ok st'

section

variable (hst : st.Consistent) (hdead : st.Dead guard.key guard.expectedGeneration)

include hst hdead

theorem not_held_of_dead {d : Destination} (hd : d ∈ st.destinations) (hkey : d.key = guard.key)
    (hgen : d.generation = guard.expectedGeneration) : d.mutationId = none := by
  obtain ⟨d', hd', hkey', hdead⟩ := hdead
  obtain rfl := inj_on_of_nodup_map hst.keys_nodup hd hd' (hkey.trans hkey'.symm)
  rcases hdead with hlt | ⟨-, hnone⟩
  · omega
  · exact hnone

theorem verify_ne_ok_of_dead (archiveKey : Text) (entryKeys : List Text) (now : ℤ) :
    st.verifyStandardMutationGuard guard archiveKey entryKeys now ≠ .ok () := by
  intro h
  obtain ⟨⟨hkey, -⟩, h⟩ := of_ensure h
  obtain ⟨-, h⟩ := of_ensure h
  cases hfind : st.findDestination archiveKey with
  | none =>
    simp only [hfind] at h
    cases h
  | some d =>
    simp only [hfind] at h
    obtain ⟨⟨hgen, -, htoken, -⟩, -⟩ := of_ensure h
    obtain ⟨hd, hdkey⟩ := findDestination_eq_some hfind
    rw [not_held_of_dead hst hdead hd (hdkey.trans hkey.symm) hgen] at htoken
    cases htoken

/-- **A guard of a dead generation is rejected.** -/
theorem rejected_of_dead : Rejected st guard where
  verify := verify_ne_ok_of_dead hst hdead
  renew := by
    intro now st' h
    obtain ⟨⟨⟩, hverify, -⟩ := of_bind h
    exact verify_ne_ok_of_dead hst hdead _ _ _ hverify
  complete := by
    intro now st' h
    have hcleared := (completeStandardMutation_eq_ok h).2
    obtain ⟨d, hd, hheld⟩ := countP_pos_iff.mp
      (Nat.lt_of_lt_of_eq Nat.one_pos (beq_iff_eq.mp hcleared).symm)
    simp only [Bool.and_eq_true, beq_iff_eq] at hheld
    have hnone := not_held_of_dead hst hdead hd hheld.1.1.1.1 hheld.1.1.1.2
    rw [hnone] at hheld
    cases hheld.1.2

end

/-! ## Events that revoke -/

theorem dead_of_cleared {requireActive : Bool}
    (h : (st.clearStandardMutation guard now requireActive).2 = true) :
    (st.clearStandardMutation guard now requireActive).1.Dead guard.key
      guard.expectedGeneration := by
  obtain ⟨d, hd, hheld⟩ := countP_pos_iff.mp
    (Nat.lt_of_lt_of_eq Nat.one_pos (beq_iff_eq.mp h).symm)
  have hrow := hheld
  simp only [Bool.and_eq_true, beq_iff_eq] at hrow
  exact ⟨tokenCleared d, mem_updateWhere.mpr ⟨d, hd, if_pos hheld⟩, hrow.1.1.1.1,
    Or.inr ⟨hrow.1.1.1.2, rfl⟩⟩

theorem dead_of_completeStandardMutation (h : st.completeStandardMutation guard now = .ok st') :
    st'.Dead guard.key guard.expectedGeneration := by
  obtain ⟨rfl, hcleared⟩ := completeStandardMutation_eq_ok h
  exact dead_of_cleared hcleared

variable {keys : List Text} {sourceKey : Text} {mutationPrefix : Option Text}

theorem dead_of_completeZipOutputGuards (hst : st.Consistent)
    {guards : List StandardMutationGuard}
    (h : st.completeZipOutputGuards sourceKey keys guards now = .ok st') :
    ∀ guard ∈ guards, st'.Dead guard.key guard.expectedGeneration := by
  obtain ⟨⟨⟩, -, h⟩ := of_bind h
  refine (foldlM_forall (J := Consistent)
    (D := fun guard s => s.Dead guard.key guard.expectedGeneration)
    (fun guard _ s s' hs hstep => ?_) hst h).2
  have hsound := sound_completeStandardMutation hs hstep
  exact ⟨hsound.consistent, dead_of_completeStandardMutation hstep,
    fun _ hdead => hdead.advances hsound.advances⟩

/-- The scopes of exact keys and a prefix. -/
def grantScopes (keys : List Text) (mutationPrefix : Option Text) : List (Scope UInt8) :=
  keys.map .exact ++ mutationPrefix.toList.map .under

theorem not_overlaps_of_tokenOverlaps_eq_false {d : Destination}
    (h : tokenOverlaps keys mutationPrefix d = false) {scope scope' : Scope UInt8}
    (hscope : scope ∈ grantScopes keys mutationPrefix)
    (hscope' : scope' ∈ Scope.exact d.key :: d.mutationPrefix.toList.map .under) :
    ¬Scope.Overlaps scope scope' := by
  obtain ⟨hkeys, hpre⟩ := tokenOverlaps_eq_false_iff.mp h
  rcases mem_append.mp hscope with hscope | hscope
  · obtain ⟨k, hk, rfl⟩ := mem_map.mp hscope
    rcases mem_cons.mp hscope' with rfl | hscope'
    · exact fun hover => (hkeys k hk).1 (Eq.symm hover)
    · obtain ⟨pfx', hpfx', rfl⟩ := mem_map.mp hscope'
      exact (hkeys k hk).2 pfx' (mem_toList.mp hpfx')
  · obtain ⟨pfx, hpfx, rfl⟩ := mem_map.mp hscope
    obtain ⟨hexact, hunder⟩ := hpre pfx (mem_toList.mp hpfx)
    rcases mem_cons.mp hscope' with rfl | hscope'
    · exact hexact
    · obtain ⟨pfx', hpfx', rfl⟩ := mem_map.mp hscope'
      exact hunder pfx' (mem_toList.mp hpfx')

theorem Issued.dead_of_not_live (h : st.Issued guard)
    (hlive : ∀ d ∈ st.destinations, d.key = guard.key →
      d.generation = guard.expectedGeneration → d.mutationId.isSome = true →
      d.mutationPrefix = guard.mutationPrefix → False) :
    st.Dead guard.key guard.expectedGeneration := by
  obtain ⟨d, hd, hkey, hgen, hpre⟩ := h
  refine ⟨d, hd, hkey, ?_⟩
  rcases hgen.lt_or_eq with hlt | heq
  · exact Or.inl hlt
  · refine Or.inr ⟨heq.symm, not_isSome_iff_eq_none.mp fun hsome => ?_⟩
    exact hlive d hd hkey heq.symm hsome (hpre heq.symm hsome)

/-- **Clearing a scope** kills every issued guard that overlaps it. -/
theorem Clears.dead (h : Clears keys mutationPrefix st st') (hissued : st.Issued guard)
    {scope scope' : Scope UInt8} (hscope : scope ∈ grantScopes keys mutationPrefix)
    (hscope' : scope' ∈ guard.scopes) (hover : Scope.Overlaps scope scope') :
    st'.Dead guard.key guard.expectedGeneration := by
  obtain ⟨excluding, s₁, s₂, hbefore, hcl, hafter⟩ := h
  have hissued₂ := (hissued.advances hbefore).advances hcl.sound.advances
  refine Dead.advances (hissued₂.dead_of_not_live fun d hd hkey _ htoken hpre => ?_) hafter
  refine not_overlaps_of_tokenOverlaps_eq_false (hcl.tokens d hd htoken) hscope ?_ hover
  rw [hkey, hpre]
  exact hscope'

theorem Newer.dead (h : Newer st st' guard.key) (hissued : st.Issued guard) :
    st'.Dead guard.key guard.expectedGeneration := by
  obtain ⟨d', hd', hkey, hnewer⟩ := h
  obtain ⟨d, hd, hdkey, hgen, -⟩ := hissued
  exact ⟨d', hd', hkey, Or.inl (hgen.trans_lt (hnewer d hd hdkey))⟩

/-! ## Fresh admissions and claims -/

/-- The transaction grants anew: it is no replay of a submission, no claim of a target that the job
has claimed before, and no lifecycle admission that was refused or whose token is live. -/
def Fresh (st : OwnershipState) (now : ℤ) : Op → Outcome → Prop
  | .submit _, out => ∀ x, out ≠ .submitted (.replayed x)
  | .claimExtractedTarget claim key, _ => st.findTarget claim.jobId key = none
  | .tryAdmitLifecycleMutation key actionId claimEpoch, out => out ≠ .lifecycle none ∧
      ∀ st₁, st.recoverExpiredMutations now = .ok st₁ → ¬st₁.Readmits key actionId claimEpoch
  | _, _ => True

section Execute

variable {op : Op} {out : Outcome} {scope : Scope UInt8}

theorem createJob_of_fresh {request : NewImportJob}
    (h : st.execute now (.submit request) = .ok (st', out))
    (hfresh : st.Fresh now (.submit request) out) : st.createJob request now = .ok st' := by
  obtain ⟨outcome, hresult, rfl⟩ := returning_eq_ok h
  rcases submit_eq_ok hresult with ⟨-, x, rfl⟩ | ⟨hcreate, -⟩
  · exact absurd rfl (hfresh x)
  · exact hcreate

theorem admitContentMutations_of_zip {mutationIds : List (Text × Text)}
    (h : st.execute now (.admitZipOutputsWithoutSource sourceKey keys mutationIds) =
      .ok (st', out)) :
    ∃ guards, st.admitContentMutations (keySet keys) mutationIds none now = .ok (st', guards) ∧
      out = .guards guards := by
  obtain ⟨guards, hresult, rfl⟩ := returning_eq_ok h
  obtain ⟨-, hresult⟩ := of_ensure hresult
  obtain ⟨⟨⟩, -, hresult⟩ := of_bind hresult
  exact ⟨guards, hresult, rfl⟩

theorem admitContentMutations_of_zipSource {outputKeys : List Text} {mutationId : Text}
    (h : st.execute now (.admitZipV2Source sourceKey outputKeys mutationId) = .ok (st', out)) :
    ∃ guards, st.admitContentMutations [sourceKey] [(sourceKey, mutationId)] none now =
      .ok (st', guards) ∧ out = .guards guards := by
  obtain ⟨guards, hresult, rfl⟩ := returning_eq_ok h
  obtain ⟨-, hresult⟩ := of_ensure hresult
  obtain ⟨⟨⟩, -, hresult⟩ := of_bind hresult
  exact ⟨guards, hresult, rfl⟩

theorem admitContentAndPrefixMutation_of_execute {pfx mutationId : Text}
    (h : st.execute now (.admitContentAndPrefixMutation key pfx mutationId) = .ok (st', out)) :
    ∃ guard, st.admitContentAndPrefixMutation key pfx mutationId now = .ok (st', guard) ∧
      out = .guards [guard] := by
  have hreturn : returning (fun guard => .guards [guard])
    (st.admitContentAndPrefixMutation key pfx mutationId now) = .ok (st', out) := h
  exact returning_eq_ok hreturn

theorem mem_keySet : key ∈ keySet keys ↔ key ∈ keys := by
  rw [keySet, Keyset.mem_sortBy, mem_dedup]

/-- A scope was granted: its key has a newer generation, and guards that overlap it are dead. -/
structure Grants (st st' : OwnershipState) (scope : Scope UInt8) : Prop where
  newer : ∀ key, scope = .exact key → Newer st st' key
  kills : ∀ guard, st.Issued guard → ∀ scope' ∈ guard.scopes, Scope.Overlaps scope scope' →
    st'.Dead guard.key guard.expectedGeneration

theorem Clears.grants_exact (h : Clears keys mutationPrefix st st') (hkey : key ∈ keys)
    (hnewer : Newer st st' key) :
    Grants st st' (.exact key) where
  newer := fun _ heq => Scope.exact.inj heq ▸ hnewer
  kills := fun _ hissued _ hscope' hover => h.dead hissued
    (mem_append_left _ (mem_map_of_mem hkey)) hscope' hover

theorem Clears.grants_under {pfx : Text} (h : Clears keys (some pfx) st st') :
    Grants st st' (.under pfx) where
  newer := fun _ heq => by cases heq
  kills := fun _ hissued _ hscope' hover => h.dead hissued
    (mem_append_right _ (mem_singleton_self _)) hscope' hover

theorem grants_admitContentMutations (hst : st.Consistent) (hkeys : keys.Nodup)
    {mutationIds : List (Text × Text)} {excluding : Option Text}
    {guards : List StandardMutationGuard}
    (h : st.admitContentMutations keys mutationIds excluding now = .ok (st', guards))
    (hkey : key ∈ keys) : Grants st st' (.exact key) := by
  obtain ⟨-, -, -, hclears, hnewer, -⟩ := admitContentMutations_spec hkeys hst h
  exact hclears.grants_exact hkey (hnewer key hkey)

theorem grants_tryAdmitLifecycleMutation (hst : st.Consistent) {actionId : Text} {claimEpoch : ℤ}
    {admitted : StandardMutationGuard}
    (h : st.tryAdmitLifecycleMutation key actionId claimEpoch now = .ok (st', some admitted))
    (hfresh : ∀ st₁, st.recoverExpiredMutations now = .ok st₁ →
      ¬st₁.Readmits key actionId claimEpoch) : Grants st st' (.exact key) := by
  obtain ⟨-, -, st₁, hrecover, hadv, hgrant⟩ := tryAdmitLifecycleMutation_spec hst h
  obtain ⟨hblocked, hnewer⟩ := hgrant rfl
  have hnew := hnewer (hfresh st₁ hrecover)
  refine ⟨fun _ heq => Scope.exact.inj heq ▸ hnew, fun guard hissued scope' hscope' hover => ?_⟩
  rcases mem_cons.mp hscope' with rfl | hscope'
  · have heq : key = guard.key := hover
    exact Newer.dead (heq ▸ hnew) hissued
  · obtain ⟨pfx, hpfx, rfl⟩ := mem_map.mp hscope'
    obtain ⟨hrec, -⟩ := recoverExpiredMutations_spec hst hrecover
    have hissued₁ := hissued.advances hrec.weaker.advances
    refine Dead.advances (hissued₁.dead_of_not_live fun d hd _ _ htoken hpre => ?_) hadv
    rw [lifecycleBlocked, Bool.or_eq_false_iff] at hblocked
    exact not_covers_of_hasOverlappingStandardPrefixMutation hrec.consistent hblocked.2 hd htoken
      (hpre.trans (mem_toList.mp hpfx)) hover

/-- **What a fresh admission or claim does to each of its scopes.** -/
theorem grants_of_fresh (hst : st.Consistent) (h : st.execute now op = .ok (st', out))
    (hfresh : st.Fresh now op out) (hscope : scope ∈ op.scopes) : Grants st st' scope := by
  cases op with
  | submit request =>
    obtain ⟨-, hclears, hnewer, hpfx⟩ := createJob_spec hst (createJob_of_fresh h hfresh)
    rcases mem_cons.mp hscope with rfl | hmem
    · exact hclears.grants_exact (mem_singleton_self _) hnewer
    · obtain ⟨pfx, hmem', rfl⟩ := mem_map.mp hmem
      exact (hpfx pfx (mem_toList.mp hmem')).grants_under
  | claimExtractedTarget claim key =>
    obtain ⟨generation, hresult, -⟩ := returning_eq_ok h
    obtain ⟨hclears, hnewer⟩ := (claimExtractedTarget_spec hst hresult).2 hfresh
    rw [mem_singleton.mp hscope]
    exact hclears.grants_exact (mem_singleton_self _) hnewer
  | admitContentMutations keys mutationIds excluding =>
    obtain ⟨guards, hresult, -⟩ := returning_eq_ok h
    obtain ⟨k, hk, rfl⟩ := mem_map.mp hscope
    exact grants_admitContentMutations hst (nodup_keySet keys) hresult (mem_keySet.mpr hk)
  | admitPrefixMutation pfx =>
    rw [mem_singleton.mp hscope]
    exact (admitPrefixMutation_spec hst (returningDone_eq_ok h)).2.grants_under
  | admitContentAndPrefixMutation key pfx mutationId =>
    obtain ⟨guard, hresult, -⟩ := admitContentAndPrefixMutation_of_execute h
    obtain ⟨-, hclears, hnewer, -⟩ := admitContentAndPrefixMutation_spec hst hresult
    rcases mem_cons.mp hscope with rfl | hmem
    · exact hclears.grants_exact (mem_singleton_self _) hnewer
    · rw [mem_singleton.mp hmem]
      exact hclears.grants_under
  | admitZipOutputsWithoutSource sourceKey keys mutationIds =>
    obtain ⟨guards, hresult, -⟩ := admitContentMutations_of_zip h
    obtain ⟨k, hk, rfl⟩ := mem_map.mp hscope
    exact grants_admitContentMutations hst (nodup_keySet keys) hresult (mem_keySet.mpr hk)
  | admitZipV2Source sourceKey outputKeys mutationId =>
    obtain ⟨guards, hresult, -⟩ := admitContentMutations_of_zipSource h
    rw [mem_singleton.mp hscope]
    exact grants_admitContentMutations hst (nodup_singleton sourceKey) hresult
      (mem_singleton_self sourceKey)
  | tryAdmitLifecycleMutation key actionId claimEpoch =>
    obtain ⟨guard, hresult, rfl⟩ := returning_eq_ok h
    rw [mem_singleton.mp hscope]
    cases guard with
    | none => exact absurd rfl hfresh.1
    | some admitted => exact grants_tryAdmitLifecycleMutation hst hresult hfresh.2
  | _ => cases hscope

theorem notMem_issued_returning {α : Type} {outcome : α → Outcome}
    {result : AppResult (OwnershipState × α)} (hnone : ∀ value, (outcome value).issued = [])
    (h : returning outcome result = .ok (st', out)) : guard ∉ out.issued := by
  obtain ⟨value, -, rfl⟩ := returning_eq_ok h
  rw [hnone value]
  exact not_mem_nil

theorem notMem_issued_returningDone {result : AppResult OwnershipState}
    (h : returningDone result = .ok (st', out)) : guard ∉ out.issued := by
  obtain ⟨st₁, -, h⟩ := of_bind h
  cases h
  exact not_mem_nil

theorem issued_of_mem (hst : st.Consistent) (h : st.execute now op = .ok (st', out))
    (hguard : guard ∈ out.issued) : st'.Issued guard := by
  cases op with
  | admitContentMutations keys mutationIds excluding =>
    obtain ⟨guards, hresult, rfl⟩ := returning_eq_ok h
    exact (admitContentMutations_spec (nodup_keySet keys) hst hresult).2.2.2.2.2 guard hguard
  | admitContentAndPrefixMutation key pfx mutationId =>
    obtain ⟨guard', hresult, rfl⟩ := admitContentAndPrefixMutation_of_execute h
    rw [mem_singleton.mp hguard]
    exact (admitContentAndPrefixMutation_spec hst hresult).2.2.2
  | admitZipOutputsWithoutSource sourceKey keys mutationIds =>
    obtain ⟨guards, hresult, rfl⟩ := admitContentMutations_of_zip h
    exact (admitContentMutations_spec (nodup_keySet keys) hst hresult).2.2.2.2.2 guard hguard
  | admitZipV2Source sourceKey outputKeys mutationId =>
    obtain ⟨guards, hresult, rfl⟩ := admitContentMutations_of_zipSource h
    exact (admitContentMutations_spec (nodup_singleton sourceKey) hst
      hresult).2.2.2.2.2 guard hguard
  | tryAdmitLifecycleMutation key actionId claimEpoch =>
    obtain ⟨admitted, hresult, rfl⟩ := returning_eq_ok h
    exact (tryAdmitLifecycleMutation_spec hst hresult).2.1 guard (mem_toList.mp hguard)
  | _ =>
    first
    | exact absurd hguard (notMem_issued_returningDone h)
    | exact absurd hguard (notMem_issued_returning (fun _ => rfl) h)

end Execute

/-- A committed transaction that revokes a guard. -/
inductive Revokes (st : OwnershipState) (now : ℤ) (guard : StandardMutationGuard) :
    Op → Outcome → Prop
  | completed (out : Outcome) : Revokes st now guard (.completeStandardMutation guard) out
  | zipCompleted (sourceKey : Text) (keys : List Text) (guards : List StandardMutationGuard)
      (out : Outcome) (hguard : guard ∈ guards) :
      Revokes st now guard (.completeZipOutputGuards sourceKey keys guards) out
  | released : Revokes st now guard (.releaseStandardMutation guard) (.flag true)
  | recovered (key actionId : Text) (claimEpoch : ℤ) (out : Outcome) (lease : MutationLease)
      (hlease : lease ∈ st.leases) (hguard : leaseIdentity guard lease = true)
      (hexpired : activeLease now lease = false) :
      Revokes st now guard (.tryAdmitLifecycleMutation key actionId claimEpoch) out
  | overlapped (op : Op) (out : Outcome) (hfresh : st.Fresh now op out) (scope scope' : Scope UInt8)
      (hscope : scope ∈ op.scopes) (hscope' : scope' ∈ guard.scopes)
      (hover : Scope.Overlaps scope scope') : Revokes st now guard op out

/-- **Revocation leaves the generation of an issued guard dead.** -/
theorem Revokes.dead (hst : st.Consistent) (hissued : st.Issued guard) {op : Op} {out : Outcome}
    (h : st.execute now op = .ok (st', out)) (hrevokes : Revokes st now guard op out) :
    st'.Dead guard.key guard.expectedGeneration := by
  cases hrevokes with
  | completed => exact dead_of_completeStandardMutation (returningDone_eq_ok h)
  | zipCompleted sourceKey keys guards _ hguard =>
    exact dead_of_completeZipOutputGuards hst (returningDone_eq_ok h) guard hguard
  | released =>
    obtain ⟨cleared, hresult, hflag⟩ := returning_eq_ok h
    have hpair : st.releaseStandardMutation guard now = (st', cleared) := Except.ok.inj hresult
    have hcleared : (st.clearStandardMutation guard now false).2 = true :=
      (congrArg Prod.snd hpair).trans (Outcome.flag.inj hflag).symm
    have hst' : (st.clearStandardMutation guard now false).1 = st' := congrArg Prod.fst hpair
    exact hst' ▸ dead_of_cleared hcleared
  | recovered key actionId claimEpoch _ lease hlease hguard hexpired =>
    obtain ⟨admitted, hresult, -⟩ := returning_eq_ok h
    obtain ⟨-, -, st₁, hrecover, hadv, -⟩ := tryAdmitLifecycleMutation_spec hst hresult
    obtain ⟨hrec, hactive⟩ := recoverExpiredMutations_spec hst hrecover
    rw [leaseIdentity, Bool.and_eq_true, Bool.and_eq_true, beq_iff_eq, beq_iff_eq,
      beq_iff_eq] at hguard
    rcases hrec.dead lease hlease with hmem | hdead
    · exact absurd (hexpired.symm.trans (hactive lease hmem)) Bool.false_ne_true
    · rw [hguard.1.1, hguard.2] at hdead
      exact hdead.advances hadv
  | overlapped _ _ hfresh scope scope' hscope hscope' hover =>
    exact (grants_of_fresh hst h hfresh hscope).kills guard hissued scope' hscope' hover

/-! ## Publication guards -/

/-- The guard was held: one of its targets is a durable target of its job. -/
def HeldBy (st : OwnershipState) (guard : ImportPublicationGuard) : Prop :=
  ∃ target ∈ guard.targets, ∃ t ∈ st.targets, t.jobId = guard.jobId ∧ t.key = target.key ∧
    t.expectedGeneration = target.generation

/-- The job does not own the key at the generation, and will not. -/
def Lost (st : OwnershipState) (jobId key : Text) (generation : ℤ) : Prop :=
  ∃ d ∈ st.destinations, d.key = key ∧
    (generation < d.generation ∨ d.generation = generation ∧ d.ownerJobId ≠ some jobId)

theorem Lost.advances {generation : ℤ} (h : st.Lost jobId key generation)
    (hadv : Advances st st') : st'.Lost jobId key generation := by
  refine exists_advanced hadv (fun d d' hrow hgen howner hown => ?_) h
  exact howner (hrow.owner hgen jobId hown)

theorem not_ownsGeneration_of_lost (hst : st.Consistent) {generation : ℤ}
    (h : st.Lost jobId key generation) : st.ownsGeneration jobId key generation = false := by
  obtain ⟨d, hd, hkey, hlost⟩ := h
  rw [ownsGeneration, ← hkey, findDestination_of_mem hst.keys_nodup hd, any_some,
    Bool.and_eq_false_iff, beq_eq_false_iff_ne, beq_eq_false_iff_ne]
  rcases hlost with hlt | ⟨-, howner⟩
  · exact Or.inl hlt.ne'
  · exact Or.inr howner

theorem mem_targetMap {targets : List ExpectedImportTarget} {expected : List (Text × ℤ)}
    (h : targetMap targets = .ok expected) {target : ExpectedImportTarget}
    (htarget : target ∈ targets) : (target.key, target.generation) ∈ expected := by
  -- a key that comes again comes with the generation that the map already has
  have hlookup := (foldlM_forall (J := Keyset.Ascending Prod.fst)
    (D := fun (t : ExpectedImportTarget) expected => expected.lookup t.key = some t.generation)
    (fun t _ m m' hm hstep => by
      obtain ⟨-, hstep⟩ := of_ensure hstep
      obtain ⟨hsame, hstep⟩ := of_ensure hstep
      cases hstep
      have hself : (insertWith (fun _ generation => generation) t.key t.generation m).lookup t.key =
          some t.generation := by
        rw [lookup_insertWith_self hm]
        cases m.lookup t.key <;> rfl
      refine ⟨ascending_insertWith hm, hself, fun t' hfound => ?_⟩
      rcases eq_or_ne t'.key t.key with heq | hne
      · rw [← heq, hfound, all_some, beq_iff_eq] at hsame
        rw [heq, hsame]
        exact hself
      · rw [lookup_insertWith_of_ne hne]
        exact hfound) List.Pairwise.nil h).2 target htarget
  obtain ⟨before, after, rfl, -⟩ := lookup_eq_some_iff.mp hlookup
  exact mem_append_right _ mem_cons_self

theorem verifyPublicationGuard_ne_ok_of_lost (hst : st.Consistent)
    {guard : ImportPublicationGuard} {target : ExpectedImportTarget}
    (htarget : target ∈ guard.targets) (hlost : st.Lost guard.jobId target.key target.generation)
    (keys : List Text) (now : ℤ) : st.verifyPublicationGuard guard keys now ≠ .ok () := by
  intro h
  obtain ⟨expected, hmap, h⟩ := of_bind h
  obtain ⟨-, h⟩ := of_ensure h
  obtain ⟨howns, -⟩ := of_ensure h
  have howned := howns _ (mem_targetMap hmap htarget)
  rw [not_ownsGeneration_of_lost hst hlost] at howned
  cases howned

theorem HeldBy.lost {guard : ImportPublicationGuard} (h : st.HeldBy guard) (hst : st.Consistent)
    (hst' : st'.Consistent) (hadv : Advances st st')
    (hover : st'.isActiveJob guard.jobId = false) :
    ∃ target ∈ guard.targets, st'.Lost guard.jobId target.key target.generation := by
  obtain ⟨target, htarget, t, ht, -, hkey, hgen⟩ := h
  obtain ⟨d, hd, hdkey, hle⟩ := hst.target_row t ht
  obtain ⟨d', hd', hrow⟩ := hadv d hd
  refine ⟨target, htarget, d', hd', hrow.key_eq.trans (hdkey.trans hkey), ?_⟩
  have hle' : target.generation ≤ d'.generation := hgen ▸ hle.trans hrow.generation_le
  rcases hle'.eq_or_lt with heq | hlt
  · refine Or.inr ⟨heq.symm, fun howner => ?_⟩
    rw [hst'.owner_active d' hd' guard.jobId howner] at hover
    cases hover
  · exact Or.inl hlt

/-! ## Runs -/

theorem advances_run (hst : st.Consistent) (ops : List (ℤ × Op)) :
    Advances st (run transact st ops) := by
  have hstep : ∀ s (step : ℤ × Op) s', s.Consistent ∧ Advances st s → transact s step = .ok s' →
      s'.Consistent ∧ Advances st s' := by
    rintro s step s' ⟨hs, hadv⟩ h
    obtain ⟨out, hexec⟩ := transact_eq_ok h
    obtain ⟨hs', hadv', -⟩ := execute_spec hs hexec
    exact ⟨hs', hadv.trans hadv'⟩
  exact (run_invariant hstep ⟨hst, Advances.refl st⟩ ops).2

/-- Generations and guards in what follows a state. -/
structure RevokedForEver (st : OwnershipState) : Prop where
  /-- No generation ever decreases. -/
  generation_le : ∀ ops, ∀ d ∈ st.destinations, ∃ d' ∈ (run transact st ops).destinations,
    d'.key = d.key ∧ d.generation ≤ d'.generation
  /-- A fresh admission or claim of a key has a greater generation than the row it replaces. -/
  newer : ∀ now op st' out, st.execute now op = .ok (st', out) → st.Fresh now op out →
    ∀ key, Scope.exact key ∈ op.scopes → Newer st st' key
  /-- A guard that was issued and later revoked is rejected in every state after that. -/
  rejected : ∀ now op st₁ out, st.execute now op = .ok (st₁, out) → ∀ guard ∈ out.issued,
    ∀ ops now' op' st₂ out', (run transact st₁ ops).execute now' op' = .ok (st₂, out') →
      Revokes (run transact st₁ ops) now' guard op' out' →
        ∀ ops', Rejected (run transact st₂ ops') guard
  /-- A guard that an import job held is not accepted in any state after the job was over. -/
  publication : ∀ guard, st.HeldBy guard → ∀ ops,
    (run transact st ops).isActiveJob guard.jobId = false →
      ∀ ops' keys now, (run transact (run transact st ops) ops').verifyPublicationGuard guard keys
        now ≠ .ok ()

theorem Consistent.revokedForEver (hst : st.Consistent) : RevokedForEver st where
  generation_le := by
    intro ops d hd
    obtain ⟨d', hd', hrow⟩ := advances_run hst ops d hd
    exact ⟨d', hd', hrow.key_eq, hrow.generation_le⟩
  newer := fun _ _ _ _ h hfresh key hscope => (grants_of_fresh hst h hfresh hscope).newer key rfl
  rejected := by
    intro now op st₁ out h guard hguard ops now' op' st₂ out' h' hrevokes ops'
    have hst₁ := (execute_spec hst h).1
    have hissued := (issued_of_mem hst h hguard).advances (advances_run hst₁ ops)
    have hrun := consistent_run hst₁ ops
    have hst₂ := (execute_spec hrun h').1
    have hdead := hrevokes.dead hrun hissued h'
    exact rejected_of_dead (consistent_run hst₂ ops') (hdead.advances (advances_run hst₂ ops'))
  publication := by
    intro guard hheld ops hover ops' keys now
    have hrun := consistent_run hst ops
    obtain ⟨target, htarget, hlost⟩ := hheld.lost hst hrun (advances_run hst ops) hover
    exact verifyPublicationGuard_ne_ok_of_lost (consistent_run hrun ops') htarget
      (hlost.advances (advances_run hrun ops')) keys now

/-- **Guards are revoked for ever**, in every state that transactions reach. -/
theorem guards_revoked_for_ever (ops : List (ℤ × Op)) :
    RevokedForEver (run transact empty ops) :=
  (consistent_run consistent_empty ops).revokedForEver

/-- A lifecycle admission that is repeated while its token is live returns the same guard at the
same generation, and the first guard stays valid. -/
theorem lifecycle_readmission_keeps_guard :
    let guard : StandardMutationGuard := ⟨[99], lifecycleMutationId [108] 1, 1, none⟩
    let again : Op := .tryAdmitLifecycleMutation [99] [108] 1
    (empty.execute 0 again).map Prod.snd = .ok (.lifecycle (some guard)) ∧
      ((run transact empty [(0, again)]).execute 1 again).map Prod.snd =
        .ok (.lifecycle (some guard)) ∧
      (run transact empty [(0, again), (1, again)]).verifyStandardMutationGuard guard [99] [] 1 =
        .ok () ∧
      ((run transact empty [(0, again), (1, again)]).destinations.map Destination.generation) =
        [1] := by
  decide +kernel

end OwnershipState
end IpfS3.Ownership
