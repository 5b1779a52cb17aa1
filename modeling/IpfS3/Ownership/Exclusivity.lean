import IpfS3.Ownership.Clearing
import IpfS3.Foundations.Transactions

/-!
# Exclusive ownership

A lifecycle admission asks whether its key is free instead of clearing it; all other transactions
give scopes up or touch columns that say nothing about ownership.  So every transaction keeps
exclusion (`execute_spec`), and ownership is exclusive after every run of transactions that exclude no
job (`ownership_exclusive`), but for prefixes with a NUL: on SQLite the comparisons of
`prefix_owner_jobs_for_prefix` and its like never find those.
-/

namespace IpfS3.Ownership

open Table Fallible Batches Exclusion Transactions List

namespace OwnershipState

variable {st st' st₁ st₂ : OwnershipState} {jobId key : Text} {now : ℤ}

/-! ## Lifecycle mutations -/

theorem clear_of_not_lifecycleBlocked (hst : st.Consistent)
    (h : st.lifecycleBlocked key = false) : st.Clear (.token key) (.exact key) := by
  unfold lifecycleBlocked at h
  rw [Bool.or_eq_false_iff, Bool.or_eq_false_iff] at h
  obtain ⟨⟨howner, hjobs⟩, htokens⟩ := h
  rw [Bool.not_eq_false', List.isEmpty_iff] at hjobs
  intro holder scope hne hholds ⟨hfind, _, hover⟩
  cases holder with
  | token other =>
    obtain ⟨d, hd, rfl, htoken, rfl | ⟨pfx, hpfx, rfl⟩⟩ := hholds
    · exact hne (congrArg _ hover)
    · exact not_covers_of_hasOverlappingStandardPrefixMutation hst htokens hd htoken hpfx hover
  | job x =>
    obtain ⟨hact, ⟨d, hd, hown, rfl⟩ | ⟨c, hc, rfl, rfl⟩⟩ := hholds
    · have heq : d.key = key := hover
      rw [← heq, findDestination_of_mem hst.keys_nodup hd, Option.any_some, hown] at howner
      cases howner
    · have hcand : c.jobId ∈ (st.prefixClaims.filter fun c => sqlStartsWith key c.pfx).map
          (·.jobId) := mem_claimants.mpr ⟨c, hc, rfl, sqlStartsWith_iff.mpr ⟨hfind, hover⟩⟩
      refine notMem_of_page_eq_nil (by decide) hjobs (mem_dedup.mpr hcand) ?_ fun k hk => ?_
      · rw [hact]
        rfl
      · cases hk

/-- The token of a lifecycle mutation is live already. -/
def Readmits (st : OwnershipState) (key actionId : Text) (claimEpoch : ℤ) : Prop :=
  ∃ d ∈ st.destinations, d.key = key ∧
    d.mutationId = some (lifecycleMutationId actionId claimEpoch)

variable {guard : Option StandardMutationGuard} {actionId : Text} {claimEpoch : ℤ} {out : Outcome}

theorem installLifecycleToken_spec (hst : st.Consistent)
    (hclear : st.Clear (.token key) (.exact key)) {mutationId : Text}
    (h : st.installLifecycleToken key mutationId now = .ok (st', guard)) :
    Sound st st' ∧ Newer st st' key ∧ ∀ g ∈ guard, st'.Issued g := by
  obtain ⟨⟨st₁, g⟩, hupsert, h⟩ := of_bind h
  cases h
  obtain ⟨hputs, hcons, hguard⟩ := upsertStandardMutation_spec hst hupsert
  refine ⟨hputs.sound_token hcons hclear (fun pfx hpfx => by cases hpfx), hputs.newer', ?_⟩
  rintro g' hg'
  rw [← Option.some.inj hg', hguard]
  exact hputs.issued mutationId

theorem admitLifecycle_spec (hst : st.Consistent) (hclear : st.Clear (.token key) (.exact key))
    (h : st.admitLifecycle key actionId claimEpoch now = .ok (st', guard)) :
    Sound st st' ∧ (∀ g ∈ guard, st'.Issued g) ∧
      (guard.isSome = true → ¬st.Readmits key actionId claimEpoch → Newer st st' key) := by
  unfold admitLifecycle at h
  cases hfind : st.findDestination key with
  | none =>
    simp only [hfind] at h
    obtain ⟨hsound, hnewer, hissued⟩ := installLifecycleToken_spec hst hclear h
    exact ⟨hsound, hissued, fun _ _ => hnewer⟩
  | some d =>
    simp only [hfind] at h
    obtain ⟨hd, hkey⟩ := findDestination_eq_some hfind
    split_ifs at h with hsame hpre holder
    · cases h
      exact ⟨Sound.refl hst, fun g hg => absurd hg (Option.not_mem_none g), fun hsome => absurd hsome Bool.false_ne_true⟩
    · cases h
      refine ⟨Sound.refl hst, fun g hg => ?_, fun _ hnot => absurd ⟨d, hd, hkey, hsame⟩ hnot⟩
      rw [← Option.some.inj hg]
      refine ⟨d, hd, hkey, le_rfl, fun _ _ => ?_⟩
      exact Option.not_isSome_iff_eq_none.mp hpre
    · obtain ⟨hsound, hnewer, hissued⟩ := installLifecycleToken_spec hst hclear h
      exact ⟨hsound, hissued, fun _ _ => hnewer⟩
    · cases h
      exact ⟨Sound.refl hst, fun g hg => absurd hg (Option.not_mem_none g), fun hsome => absurd hsome Bool.false_ne_true⟩

/-- **Admitting a lifecycle mutation**: expired leases are recovered first, and a live token of the
same name is returned as it is. -/
theorem tryAdmitLifecycleMutation_spec (hst : st.Consistent)
    (h : st.tryAdmitLifecycleMutation key actionId claimEpoch now = .ok (st', guard)) :
    Sound st st' ∧ (∀ g ∈ guard, st'.Issued g) ∧
      ∃ st₁, st.recoverExpiredMutations now = .ok st₁ ∧ Advances st₁ st' ∧
        (guard.isSome = true → st₁.lifecycleBlocked key = false ∧
          (¬st₁.Readmits key actionId claimEpoch → Newer st st' key)) := by
  obtain ⟨⟨⟩, -, h⟩ := of_bind h
  obtain ⟨st₁, hrecover, h⟩ := of_bind h
  obtain ⟨hrec, -⟩ := recoverExpiredMutations_spec hst hrecover
  have hsound₁ : Sound st st₁ := hrec.weaker.sound hrec.consistent
  split_ifs at h with hblocked
  · cases h
    refine ⟨hsound₁, fun g hg => absurd hg (Option.not_mem_none g), st', hrecover, Advances.refl st',
      fun hsome => absurd hsome Bool.false_ne_true⟩
  · rw [Bool.not_eq_true] at hblocked
    obtain ⟨hsound, hissued, hnewer⟩ := admitLifecycle_spec hrec.consistent
      (clear_of_not_lifecycleBlocked hrec.consistent hblocked) h
    refine ⟨hsound₁.trans hsound, hissued, st₁, hrecover, hsound.advances, fun hsome =>
      ⟨hblocked, fun hnot => ?_⟩⟩
    exact (hnewer hsome hnot).of_advances hsound₁.advances (Advances.refl st')

/-! ## Tokens and leases -/

theorem sound_clearLifecycleMutationIfOwned (hst : st.Consistent) {cleared : Bool}
    (h : st.clearLifecycleMutationIfOwned key actionId claimEpoch = .ok (st', cleared)) :
    Sound st st' := by
  obtain ⟨⟨⟩, -, h⟩ := of_bind h
  cases hfind : st.findDestination key with
  | none =>
    simp only [hfind] at h
    cases h
    exact Sound.refl hst
  | some d =>
    simp only [hfind] at h
    split_ifs at h
    · cases h
      exact Sound.refl hst
    · obtain ⟨-, h⟩ := of_ensure h
      cases h
      exact (destinationsWeaker_updateWhere fun d _ _ => destinationLe_tokenCleared d).sound hst

theorem sound_extendLease (hst : st.Consistent) {guard : StandardMutationGuard}
    (h : st.extendLease guard now = .ok st') : Sound st st' := by
  obtain ⟨-, h⟩ := of_ensure h
  cases h
  refine sound_of_eq hst rfl rfl (fun _ => rfl) hst.ids_nodup (fun _ ht => ht) ?_ fun l' hl' => ?_
  · show ((updateWhere _ _ st.leases).map MutationLease.key).Nodup
    rw [map_updateWhere]
    · exact hst.leases_nodup
    · exact fun _ _ => rfl
  · obtain ⟨l, hl, rfl⟩ := mem_updateWhere.mp hl'
    refine ⟨l, hl, ?_⟩
    split_ifs
    · exact ⟨rfl, rfl, rfl⟩
    · exact ⟨rfl, rfl, rfl⟩

theorem sound_renewLifecycleMutation (hst : st.Consistent) {epoch : ℤ}
    (h : st.renewLifecycleMutation key actionId epoch now = .ok st') : Sound st st' := by
  unfold renewLifecycleMutation at h
  cases hfind : st.findDestination key with
  | none =>
    simp only [hfind] at h
    exact Except.ok.inj h ▸ Sound.refl hst
  | some d =>
    simp only [hfind] at h
    split_ifs at h
    · exact sound_extendLease hst h
    · exact Except.ok.inj h ▸ Sound.refl hst

theorem sound_clearStandardMutation (hst : st.Consistent) (guard : StandardMutationGuard)
    (requireActive : Bool) : Sound st (st.clearStandardMutation guard now requireActive).1 :=
  weaker_clearStandardMutation.sound (hst.weaken_of_jobs_eq weaker_clearStandardMutation rfl)

theorem completeStandardMutation_eq_ok {guard : StandardMutationGuard}
    (h : st.completeStandardMutation guard now = .ok st') :
    st' = (st.clearStandardMutation guard now true).1 ∧
      (st.clearStandardMutation guard now true).2 = true := by
  obtain ⟨⟨⟩, -, h⟩ := of_bind h
  obtain ⟨hcleared, h⟩ := of_ensure h
  exact ⟨(Except.ok.inj h).symm, hcleared⟩

theorem sound_completeStandardMutation (hst : st.Consistent) {guard : StandardMutationGuard}
    (h : st.completeStandardMutation guard now = .ok st') : Sound st st' := by
  rw [(completeStandardMutation_eq_ok h).1]
  exact sound_clearStandardMutation hst guard true

theorem sound_foldlM {f : OwnershipState → StandardMutationGuard → AppResult OwnershipState}
    (hf : ∀ s guard s', s.Consistent → f s guard = .ok s' → Sound s s')
    {guards : List StandardMutationGuard} (hst : st.Consistent)
    (h : guards.foldlM f st = .ok st') : Sound st st' :=
  foldlM_invariant (J := fun s => Sound st s)
    (fun guard _ s s' hs hstep => hs.trans (hf s guard s' hs.consistent hstep)) (Sound.refl hst) h

/-- Two rows that differ at most in the name of their token. -/
structure Relabels (d d' : Destination) : Prop where
  key_eq : d'.key = d.key
  generation_eq : d'.generation = d.generation
  owner_eq : d'.ownerJobId = d.ownerJobId
  prefix_eq : d'.mutationPrefix = d.mutationPrefix
  token_eq : d'.mutationId.isSome = d.mutationId.isSome

theorem sound_of_relabels (hst : st.Consistent) {destinations : List Destination}
    {leases : List MutationLease} (hdest : List.Forall₂ Relabels st.destinations destinations)
    (hleases : (leases.map MutationLease.key).Nodup)
    (hlease : ∀ l ∈ leases, ∃ d ∈ destinations, d.key = l.key ∧ l.generation ≤ d.generation ∧
      (d.generation = l.generation → ∀ mutationId, d.mutationId = some mutationId →
        mutationId = l.mutationId)) :
    Sound st { st with destinations := destinations, leases := leases } := by
  have hback : ∀ d' ∈ destinations, ∃ d ∈ st.destinations, Relabels d d' :=
    fun d' hd' => exists_of_forall₂ hdest hd'
  have hforth : ∀ d ∈ st.destinations, ∃ d' ∈ destinations, Relabels d d' :=
    fun d hd => exists_of_forall₂ hdest.flip hd
  refine ⟨⟨?_, hst.ids_nodup, hleases, ?_, hst.claim_active, ?_, ?_, hlease⟩, ?_, ?_⟩
  · exact (map_eq_of_forall₂ hdest fun _ _ h => h.key_eq) ▸ hst.keys_nodup
  · intro d' hd' x howner
    obtain ⟨d, hd, h⟩ := hback d' hd'
    exact hst.owner_active d hd x (h.owner_eq ▸ howner)
  · intro d' hd' htoken
    obtain ⟨d, hd, h⟩ := hback d' hd'
    exact h.owner_eq.trans (hst.token_unowned d hd (h.token_eq ▸ htoken))
  · intro t ht
    obtain ⟨d, hd, hkey, hgen⟩ := hst.target_row t ht
    obtain ⟨d', hd', h⟩ := hforth d hd
    exact ⟨d', hd', h.key_eq.trans hkey, hgen.trans h.generation_eq.ge⟩
  · intro d hd
    obtain ⟨d', hd', h⟩ := hforth d hd
    exact ⟨d', hd', h.key_eq, h.generation_eq.ge, fun _ x howner => h.owner_eq ▸ howner,
      fun _ htoken => ⟨h.token_eq ▸ htoken, h.prefix_eq⟩⟩
  · refine fun hex => hex.mono fun holder scope hh => ?_
    cases holder with
    | token key =>
      obtain ⟨d', hd', hkey, htoken, hscope⟩ := hh
      obtain ⟨d, hd, h⟩ := hback d' hd'
      exact ⟨d, hd, h.key_eq ▸ hkey, h.token_eq ▸ htoken, h.prefix_eq ▸ hscope⟩
    | job x =>
      obtain ⟨hact, ⟨d', hd', howner, hscope⟩ | hclaim⟩ := hh
      · obtain ⟨d, hd, h⟩ := hback d' hd'
        exact ⟨hact, Or.inl ⟨d, hd, h.owner_eq ▸ howner, h.key_eq ▸ hscope⟩⟩
      · exact ⟨hact, Or.inr hclaim⟩

/-- **Rotating a guard** renames its token and its lease together. -/
theorem sound_rotateGuard (hst : st.Consistent) {old : StandardMutationGuard} {newToken : Text}
    (h : st.rotateGuard old newToken now = .ok st') : Sound st st' := by
  obtain ⟨hrow, h⟩ := of_ensure h
  obtain ⟨hlease, h⟩ := of_ensure h
  cases h
  obtain ⟨r, hr⟩ := exists_filter_eq_singleton hrow
  obtain ⟨hrmem, hrc⟩ := mem_filter.mp (hr ▸ mem_singleton_self r :
    r ∈ st.destinations.filter _)
  obtain ⟨m, hm⟩ := exists_filter_eq_singleton hlease
  obtain ⟨hmmem, hmc⟩ := mem_filter.mp (hm ▸ mem_singleton_self m :
    m ∈ st.leases.filter _)
  have hrow_iff : ∀ d ∈ st.destinations, d.key = old.key → d = r := by
    intro d hd hkey
    simp only [Bool.and_eq_true, beq_iff_eq] at hrc
    exact inj_on_of_nodup_map hst.keys_nodup hd hrmem (hkey.trans hrc.1.1.1.symm)
  have hlease_iff : ∀ l ∈ st.leases, l.key = old.key → l = m := by
    intro l hl hkey
    simp only [leaseIdentity, Bool.and_eq_true, beq_iff_eq] at hmc
    exact inj_on_of_nodup_map hst.leases_nodup hl hmmem (hkey.trans hmc.1.1.1.symm)
  refine sound_of_relabels hst (forall₂_updateWhere (fun d => ⟨rfl, rfl, rfl, rfl, rfl⟩)
    fun d _ hc => ⟨rfl, rfl, rfl, rfl, ?_⟩) ?_ fun l' hl' => ?_
  · simp only [Bool.and_eq_true, beq_iff_eq] at hc
    rw [hc.1.1.2]
    rfl
  · rw [map_updateWhere]
    · exact hst.leases_nodup
    · exact fun _ _ => rfl
  · obtain ⟨l, hl, rfl⟩ := mem_updateWhere.mp hl'
    obtain ⟨d, hd, hkey, hgen, hid⟩ := hst.lease_row l hl
    by_cases hold : d.key = old.key
    · -- the row and the lease of the guard, both renamed
      obtain rfl := hrow_iff d hd hold
      obtain rfl := hlease_iff l hl (hkey.symm.trans hold)
      rw [if_pos hmc]
      refine ⟨_, mem_updateWhere.mpr ⟨d, hd, if_pos hrc⟩, hkey, hgen, fun _ mutationId hmut => ?_⟩
      exact (Option.some.inj hmut).symm
    · refine ⟨d, mem_updateWhere.mpr ⟨d, hd, if_neg fun hc => hold ?_⟩, ?_⟩
      · simp only [Bool.and_eq_true, beq_iff_eq] at hc
        exact hc.1.1.1
      · rw [if_neg]
        · exact ⟨hkey, hgen, hid⟩
        · intro hc
          simp only [leaseIdentity, Bool.and_eq_true, beq_iff_eq] at hc
          exact hold (hkey.trans hc.1.1.1)

/-! ## Jobs -/

theorem sound_jobs (hst : st.Consistent) {c : ImportJob → Bool} {f : ImportJob → ImportJob}
    (hf : ∀ job, c job = true → (f job).id = job.id ∧ (f job).state.isActive = job.state.isActive) :
    Sound st { st with jobs := updateWhere c f st.jobs } := by
  refine sound_of_eq hst rfl rfl (fun x => ?_) ?_ (fun _ ht => ht) hst.leases_nodup
    fun l hl => ⟨l, hl, rfl, rfl, rfl⟩
  · rw [isActiveJob, isActiveJob]
    show (st.jobs.map _).any _ = _
    rw [any_map]
    congr 1
    funext job
    rw [Function.comp_apply]
    split_ifs with hc
    · rw [(hf job hc).1, (hf job hc).2]
    · rfl
  · show ((updateWhere c f st.jobs).map ImportJob.id).Nodup
    rw [map_updateWhere fun job hc => (hf job hc).1]
    exact hst.ids_nodup

theorem activeClaim_isActive {workerId : Text} {job : ImportJob}
    (h : activeClaim jobId workerId claimEpoch now job = true) :
    job.id = jobId ∧ job.state = .running := by
  simp only [activeClaim, Bool.and_eq_true, beq_iff_eq] at h
  exact ⟨h.1.1.1.1, h.1.1.1.2⟩

section

variable (hst : st.Consistent)

include hst

theorem finishClaimed_spec {state : JobState} (hstate : state.isActive = false) {workerId : Text}
    (h : st.finishClaimed state jobId workerId claimEpoch now = .ok st') : Sound st st' := by
  obtain ⟨-, h⟩ := of_ensure h
  obtain ⟨hcons, hw, -, -⟩ := terminate_spec hst (forall₂_terminated hstate)
    (fun other hne => isActiveJob_terminated_of_ne (fun job hc => (activeClaim_isActive hc).1) hne) h
  exact hw.sound hcons

theorem sound_supersedeJob {invalidationPrefix : Option Text}
    (h : st.supersedeJob jobId invalidationPrefix now = .ok st') : Sound st st' := by
  obtain ⟨hcons, hw, -, -⟩ := supersedeJob_spec hst h
  exact hw.sound hcons

theorem sound_supersedeBucket (h : st.supersedeBucket now = .ok st') :
    Sound st st' :=
  batchLoop_invariant (J := fun s => Sound st s)
    (fun _ _ _ hs hsup => hs.trans (sound_supersedeJob hs.consistent hsup)) (Sound.refl hst) h

theorem sound_claimCandidate (workerId : Text) (leaseUntil : ℤ) :
    Sound st (st.claimCandidate jobId workerId leaseUntil now).1 := by
  refine sound_jobs hst fun job hc => ⟨rfl, ?_⟩
  have hdue := (Bool.and_eq_true_iff.mp (Bool.and_eq_true_iff.mp
    (Bool.and_eq_true_iff.mp hc).1).1).2
  unfold dueClaim at hdue
  rw [Bool.or_eq_true] at hdue
  rcases hdue with hdue | hdue
  · simp only [Bool.and_eq_true, beq_iff_eq] at hdue
    rw [hdue.1.1.1]
    rfl
  · rw [Bool.and_eq_true, beq_iff_eq] at hdue
    rw [hdue.1]

theorem sound_renewClaim (claim : ImportClaim) (leaseUntil : ℤ) :
    Sound st (st.renewClaim claim leaseUntil now).1 := by
  unfold renewClaim
  split_ifs
  · exact Sound.refl hst
  · exact sound_jobs hst fun job _ => ⟨rfl, rfl⟩

theorem sound_retry {claim : ImportClaim} {attempt nextAttemptAt : ℤ}
    (h : st.retry claim attempt nextAttemptAt now = .ok st') : Sound st st' := by
  obtain ⟨-, h⟩ := of_ensure h
  cases h
  refine sound_jobs hst fun job hc => ⟨rfl, ?_⟩
  rw [(activeClaim_isActive (Bool.and_eq_true_iff.mp hc).1).2]
  rfl

/-- **Pruning terminal jobs** takes nothing from anybody: they own nothing. -/
theorem sound_deleteTerminalBefore (cutoff : ℤ) :
    Sound st (st.deleteTerminalBefore cutoff) := by
  have hgone : ∀ x, st.isActiveJob x = true → (st.jobs.any fun job => (!job.state.isActive &&
      job.completedAt.any fun at' => decide (at' < cutoff)) && job.id == x) = false := by
    intro x hact
    rw [any_eq_false]
    intro job hjob hexpired
    simp only [Bool.and_eq_true, Bool.not_eq_true', beq_iff_eq] at hexpired
    obtain ⟨job', hjob', hid, hactive⟩ := isActiveJob_iff.mp hact
    have hsame := inj_on_of_nodup_map hst.ids_nodup hjob hjob' (hexpired.2.trans hid.symm)
    rw [hsame, hactive] at hexpired
    exact absurd hexpired.1.1 (by decide)
  refine sound_of_eq hst ?_ ?_ (fun x => ?_) ?_ (fun t ht => (mem_deleteWhere.mp ht).1)
    hst.leases_nodup fun l hl => ⟨l, hl, rfl, rfl, rfl⟩
  · refine updateWhere_of_forall_not fun d hd => ?_
    cases howner : d.ownerJobId with
    | none => rfl
    | some x => exact hgone x (hst.owner_active d hd x howner)
  · exact deleteWhere_of_forall_not fun c hc => hgone c.jobId (hst.claim_active c hc)
  · rw [Bool.eq_iff_iff, isActiveJob_iff, isActiveJob_iff]
    constructor
    · rintro ⟨job, hjob, hrest⟩
      exact ⟨job, (mem_deleteWhere.mp hjob).1, hrest⟩
    · rintro ⟨job, hjob, hid, hactive⟩
      refine ⟨job, mem_deleteWhere.mpr ⟨hjob, ?_⟩, hid, hactive⟩
      rw [hactive]
      rfl
  · exact hst.ids_nodup.sublist (deleteWhere_sublist.map _)

end

/-! ## Every transaction -/

theorem returning_eq_ok {α : Type} {outcome : α → Outcome}
    {result : AppResult (OwnershipState × α)} (h : returning outcome result = .ok (st', out)) :
    ∃ value, result = .ok (st', value) ∧ out = outcome value := by
  obtain ⟨⟨st₁, value⟩, hresult, h⟩ := of_bind h
  cases h
  exact ⟨value, hresult, rfl⟩

theorem returningDone_eq_ok {result : AppResult OwnershipState}
    (h : returningDone result = .ok (st', out)) : result = .ok st' := by
  obtain ⟨st₁, hresult, h⟩ := of_bind h
  cases h
  exact hresult

theorem nodup_keySet (keys : List Text) : (keySet keys).Nodup :=
  (Keyset.sortBy_perm id _).nodup_iff.mpr (nodup_dedup keys)

theorem submit_eq_ok {request : NewImportJob} {outcome : SubmitImportOutcome}
    (h : st.submit request now = .ok (st', outcome)) :
    st' = st ∧ (∃ x, outcome = .replayed x) ∨
      st.createJob request now = .ok st' ∧ outcome = .created request.id := by
  unfold submit at h
  split at h
  · split_ifs at h
    cases h
    exact Or.inl ⟨rfl, _, rfl⟩
  · obtain ⟨st₁, hcreate, h⟩ := of_bind h
    cases h
    exact Or.inr ⟨hcreate, rfl⟩

theorem sound_admitContentMutations {mutationIds : List (Text × Text)} {keys : List Text}
    (hkeys : keys.Nodup) {guards : List StandardMutationGuard} (hst : st.Consistent)
    (h : st.admitContentMutations keys mutationIds none now = .ok (st', guards)) : Sound st st' := by
  obtain ⟨hcons, hadv, hex, -⟩ := admitContentMutations_spec hkeys hst h
  exact ⟨hcons, hadv, hex rfl⟩

/-- **What one transaction does**: consistency and the order of generations are kept, and so is
exclusion, unless an admission excludes a job. -/
theorem execute_spec (hst : st.Consistent) {op : Op} (h : st.execute now op = .ok (st', out)) :
    st'.Consistent ∧ Advances st st' ∧ (op.excluding = none → st.Exclusive → st'.Exclusive) := by
  suffices hsound : (∀ keys mutationIds excluding,
      op ≠ .admitContentMutations keys mutationIds excluding) → Sound st st' by
    by_cases hadmit : ∃ keys mutationIds excluding,
        op = .admitContentMutations keys mutationIds excluding
    · obtain ⟨keys, mutationIds, excluding, rfl⟩ := hadmit
      obtain ⟨guards, hresult, -⟩ := returning_eq_ok h
      obtain ⟨hcons, hadv, hex, -⟩ := admitContentMutations_spec (nodup_keySet keys) hst hresult
      exact ⟨hcons, hadv, hex⟩
    · push Not at hadmit
      obtain ⟨hcons, hadv, hex⟩ := hsound hadmit
      exact ⟨hcons, hadv, fun _ => hex⟩
  intro hnot
  cases op with
  | submit request =>
    obtain ⟨outcome, hresult, -⟩ := returning_eq_ok h
    rcases submit_eq_ok hresult with ⟨rfl, -⟩ | ⟨hcreate, -⟩
    · exact Sound.refl hst
    · exact (createJob_spec hst hcreate).1
  | claimExtractedTarget claim key =>
    obtain ⟨generation, hresult, -⟩ := returning_eq_ok h
    exact (claimExtractedTarget_spec hst hresult).1
  | releaseExtractedTarget claim key generation =>
    exact sound_releaseExtractedTarget hst (returningDone_eq_ok h)
  | resetExtractedTargetBatch claim =>
    exact sound_resetExtractedTargetBatch hst (returningDone_eq_ok h)
  | admitContentMutations keys mutationIds excluding =>
    exact absurd rfl (hnot keys mutationIds excluding)
  | admitPrefixMutation pfx => exact (admitPrefixMutation_spec hst (returningDone_eq_ok h)).1
  | admitContentAndPrefixMutation key pfx mutationId =>
    have hreturn : returning (fun guard => .guards [guard])
      (st.admitContentAndPrefixMutation key pfx mutationId now) = .ok (st', out) := h
    obtain ⟨guard, hresult, -⟩ := returning_eq_ok hreturn
    exact (admitContentAndPrefixMutation_spec hst hresult).1
  | admitZipOutputsWithoutSource sourceKey keys mutationIds =>
    obtain ⟨guards, hresult, -⟩ := returning_eq_ok h
    obtain ⟨-, hresult⟩ := of_ensure hresult
    obtain ⟨⟨⟩, -, hresult⟩ := of_bind hresult
    exact sound_admitContentMutations (nodup_keySet keys) hst hresult
  | admitZipV2Source sourceKey outputKeys mutationId =>
    obtain ⟨guards, hresult, -⟩ := returning_eq_ok h
    obtain ⟨-, hresult⟩ := of_ensure hresult
    obtain ⟨⟨⟩, -, hresult⟩ := of_bind hresult
    exact sound_admitContentMutations (nodup_singleton sourceKey) hst hresult
  | tryAdmitLifecycleMutation key actionId claimEpoch =>
    obtain ⟨guard, hresult, -⟩ := returning_eq_ok h
    exact (tryAdmitLifecycleMutation_spec hst hresult).1
  | clearLifecycleMutationIfOwned key actionId claimEpoch =>
    obtain ⟨cleared, hresult, -⟩ := returning_eq_ok h
    exact sound_clearLifecycleMutationIfOwned hst hresult
  | renewLifecycleMutation key actionId epoch =>
    exact sound_renewLifecycleMutation hst (returningDone_eq_ok h)
  | renewStandardMutation guard =>
    obtain ⟨⟨⟩, -, hresult⟩ := of_bind (returningDone_eq_ok h)
    exact sound_extendLease hst hresult
  | completeStandardMutation guard => exact sound_completeStandardMutation hst (returningDone_eq_ok h)
  | releaseStandardMutation guard =>
    obtain ⟨cleared, hresult, -⟩ := returning_eq_ok h
    have hst' : (st.releaseStandardMutation guard now).1 = st' :=
      congrArg Prod.fst (Except.ok.inj hresult)
    exact hst' ▸ sound_clearStandardMutation hst guard false
  | renewZipOutputGuards sourceKey keys guards =>
    obtain ⟨⟨⟩, -, hresult⟩ := of_bind (returningDone_eq_ok h)
    exact sound_foldlM (fun s guard s' hs => sound_extendLease hs) hst hresult
  | completeZipOutputGuards sourceKey keys guards =>
    obtain ⟨⟨⟩, -, hresult⟩ := of_bind (returningDone_eq_ok h)
    exact sound_foldlM (fun s guard s' hs => sound_completeStandardMutation hs) hst hresult
  | rotateGuard old newToken => exact sound_rotateGuard hst (returningDone_eq_ok h)
  | supersedeJob jobId => exact sound_supersedeJob hst (returningDone_eq_ok h)
  | supersedeBucket => exact sound_supersedeBucket hst (returningDone_eq_ok h)
  | failClaimed claim =>
    obtain ⟨⟨⟩, -, hresult⟩ := of_bind (returningDone_eq_ok h)
    exact finishClaimed_spec hst rfl hresult
  | completePublication guard logicalSize =>
    obtain ⟨-, hresult⟩ := of_ensure (returningDone_eq_ok h)
    exact finishClaimed_spec hst rfl hresult
  | claimCandidate jobId workerId leaseUntil =>
    obtain ⟨claimed, hresult, -⟩ := returning_eq_ok h
    have hst' : (st.claimCandidate jobId workerId leaseUntil now).1 = st' :=
      congrArg Prod.fst (Except.ok.inj hresult)
    exact hst' ▸ sound_claimCandidate hst workerId leaseUntil
  | renewClaim claim leaseUntil =>
    obtain ⟨renewed, hresult, -⟩ := returning_eq_ok h
    have hst' : (st.renewClaim claim leaseUntil now).1 = st' :=
      congrArg Prod.fst (Except.ok.inj hresult)
    exact hst' ▸ sound_renewClaim hst claim leaseUntil
  | retry claim attempt nextAttemptAt => exact sound_retry hst (returningDone_eq_ok h)
  | deleteTerminalBefore cutoff =>
    have hst' := Except.ok.inj (returningDone_eq_ok h)
    exact hst' ▸ sound_deleteTerminalBefore hst cutoff

theorem transact_eq_ok {step : ℤ × Op} (h : st.transact step = .ok st') :
    ∃ out, st.execute step.1 step.2 = .ok (st', out) := by
  obtain ⟨⟨st₁, out⟩, hexec, h⟩ := of_bind h
  cases h
  exact ⟨out, hexec⟩

theorem consistent_empty : empty.Consistent where
  keys_nodup := nodup_nil
  ids_nodup := nodup_nil
  leases_nodup := nodup_nil
  owner_active := fun _ hd => absurd hd not_mem_nil
  claim_active := fun _ hc => absurd hc not_mem_nil
  token_unowned := fun _ hd => absurd hd not_mem_nil
  target_row := fun _ ht => absurd ht not_mem_nil
  lease_row := fun _ hl => absurd hl not_mem_nil

theorem exclusive_empty : empty.Exclusive := by
  intro holder _ _ _ _ hholds
  cases holder with
  | token key =>
    obtain ⟨d, hd, -⟩ := hholds
    cases hd
  | job x =>
    obtain ⟨hact, -⟩ := hholds
    cases hact

theorem consistent_run (hst : st.Consistent) (ops : List (ℤ × Op)) :
    (run transact st ops).Consistent := by
  have hstep : ∀ st (step : ℤ × Op) st', st.Consistent → transact st step = .ok st' →
      st'.Consistent := by
    intro st step st' hst h
    obtain ⟨out, hexec⟩ := transact_eq_ok h
    exact (execute_spec hst hexec).1
  exact run_invariant hstep hst ops

/-! ## Exclusion -/

/-- Ownership is exclusive: the tokens of a bucket, its tokens and its active import jobs, and its
active import jobs among each other. -/
structure ExclusiveOwnership (st : OwnershipState) : Prop where
  /-- Any two active tokens have different keys, and no prefix of one covers the key or overlaps
  the prefix of the other. -/
  tokens : st.destinations.Pairwise fun d d' =>
    d.mutationId.isSome = true → d'.mutationId.isSome = true → d.key ≠ d'.key ∧
      (∀ pfx ∈ d.mutationPrefix, ¬pfx <+: d'.key) ∧ (∀ pfx ∈ d'.mutationPrefix, ¬pfx <+: d.key) ∧
      ∀ pfx ∈ d.mutationPrefix, ∀ pfx' ∈ d'.mutationPrefix, ¬pfx <+: pfx' ∧ ¬pfx' <+: pfx
  /-- No active token overlaps a destination or a prefix claim of an active job. -/
  tokens_jobs : ∀ d ∈ st.destinations, d.mutationId.isSome = true →
    ∀ job ∈ st.jobs, job.state.isActive = true →
      (∀ d' ∈ st.destinations, d'.ownerJobId = some job.id →
        d'.key ≠ d.key ∧ ∀ pfx ∈ d.mutationPrefix, ¬pfx <+: d'.key) ∧
      ∀ c ∈ st.prefixClaims, c.jobId = job.id →
        ¬c.pfx <+: d.key ∧ ∀ pfx ∈ d.mutationPrefix, ¬pfx <+: c.pfx ∧ ¬c.pfx <+: pfx
  /-- Two active jobs never own overlapping prefixes, and neither owns a destination under a prefix
  of the other. -/
  jobs : ∀ job ∈ st.jobs, ∀ job' ∈ st.jobs, job.state.isActive = true →
    job'.state.isActive = true → job.id ≠ job'.id → ∀ c' ∈ st.prefixClaims, c'.jobId = job'.id →
      (∀ c ∈ st.prefixClaims, c.jobId = job.id → ¬c.pfx <+: c'.pfx ∧ ¬c'.pfx <+: c.pfx) ∧
      ∀ d ∈ st.destinations, d.ownerJobId = some job.id → ¬c'.pfx <+: d.key

/-- No prefix that a token or a claim holds has a NUL. -/
structure PrefixesFindable (st : OwnershipState) : Prop where
  claims : ∀ c ∈ st.prefixClaims, 0 ∉ c.pfx
  tokens : ∀ d ∈ st.destinations, ∀ pfx ∈ d.mutationPrefix, 0 ∉ pfx

theorem PrefixesFindable.findable (h : PrefixesFindable st) {holder : Holder} {scope : Scope UInt8}
    (hholds : st.Holds holder scope) : Findable scope := by
  cases holder with
  | token key =>
    obtain ⟨d, hd, -, -, rfl | ⟨pfx, hpfx, rfl⟩⟩ := hholds
    · trivial
    · exact h.tokens d hd pfx hpfx
  | job x =>
    obtain ⟨-, ⟨d, -, -, rfl⟩ | ⟨c, hc, -, rfl⟩⟩ := hholds
    · trivial
    · exact h.claims c hc

theorem holds_token {d : Destination} (hd : d ∈ st.destinations)
    (htoken : d.mutationId.isSome = true) : st.Holds (.token d.key) (.exact d.key) ∧
      ∀ pfx ∈ d.mutationPrefix, st.Holds (.token d.key) (.under pfx) :=
  ⟨⟨d, hd, rfl, htoken, Or.inl rfl⟩, fun pfx hpfx => ⟨d, hd, rfl, htoken, Or.inr ⟨pfx, hpfx, rfl⟩⟩⟩

theorem exclusiveOwnership_of_exclusive (hst : st.Consistent)
    (hex : Exclusion.Exclusive Scope.Overlaps st.Holds) : ExclusiveOwnership st where
  tokens := by
    have hkeys : st.destinations.Pairwise fun d d' => d.key ≠ d'.key :=
      pairwise_map.mp hst.keys_nodup
    refine hkeys.imp_of_mem fun {d d'} hd hd' hne htoken htoken' => ?_
    have hnot := fun s s' => hex (.token d.key) (.token d'.key) s s' fun heq =>
      hne (Holder.token.inj heq)
    obtain ⟨hexact, hunder⟩ := holds_token hd htoken
    obtain ⟨hexact', hunder'⟩ := holds_token hd' htoken'
    refine ⟨hne, fun pfx hpfx => hnot _ _ (hunder pfx hpfx) hexact',
      fun pfx hpfx => hnot _ _ hexact (hunder' pfx hpfx), fun pfx hpfx pfx' hpfx' => ?_⟩
    exact not_or.mp (hnot _ _ (hunder pfx hpfx) (hunder' pfx' hpfx'))
  tokens_jobs := by
    intro d hd htoken job hjob hactive
    have hact : st.isActiveJob job.id = true := isActiveJob_iff.mpr ⟨job, hjob, rfl, hactive⟩
    have hnot := fun s s' => hex (.job job.id) (.token d.key) s s' fun heq => by cases heq
    obtain ⟨hexact, hunder⟩ := holds_token hd htoken
    refine ⟨fun d' hd' howner => ?_, fun c hc hclaim => ?_⟩
    · have hown : st.Holds (.job job.id) (.exact d'.key) := ⟨hact, Or.inl ⟨d', hd', howner, rfl⟩⟩
      exact ⟨hnot _ _ hown hexact, fun pfx hpfx => hnot _ _ hown (hunder pfx hpfx)⟩
    · have hown : st.Holds (.job job.id) (.under c.pfx) := ⟨hact, Or.inr ⟨c, hc, hclaim, rfl⟩⟩
      refine ⟨hnot _ _ hown hexact, fun pfx hpfx => ?_⟩
      exact (not_or.mp (hnot _ _ hown (hunder pfx hpfx))).symm
  jobs := by
    intro job hjob job' hjob' hactive hactive' hne c' hc' hclaim'
    have hact : st.isActiveJob job.id = true := isActiveJob_iff.mpr ⟨job, hjob, rfl, hactive⟩
    have hact' : st.isActiveJob job'.id = true := isActiveJob_iff.mpr ⟨job', hjob', rfl, hactive'⟩
    have hnot := fun s s' => hex (.job job.id) (.job job'.id) s s' fun heq =>
      hne (Holder.job.inj heq)
    have hunder' : st.Holds (.job job'.id) (.under c'.pfx) := ⟨hact', Or.inr ⟨c', hc', hclaim', rfl⟩⟩
    refine ⟨fun c hc hclaim => ?_, fun d hd howner => ?_⟩
    · exact not_or.mp (hnot _ _ ⟨hact, Or.inr ⟨c, hc, hclaim, rfl⟩⟩ hunder')
    · exact hnot _ _ ⟨hact, Or.inl ⟨d, hd, howner, rfl⟩⟩ hunder'

/-- **Ownership is exclusive after every run** of transactions that exclude no job, as long as no
prefix that is held has a NUL. -/
theorem ownership_exclusive (ops : List (ℤ × Op))
    (hops : ∀ step ∈ ops, step.2.excluding = none)
    (hprefixes : PrefixesFindable (run transact empty ops)) :
    ExclusiveOwnership (run transact empty ops) := by
  have hstep : ∀ st (step : ℤ × Op) st', step.2.excluding = none →
      st.Consistent ∧ st.Exclusive → transact st step = .ok st' →
        st'.Consistent ∧ st'.Exclusive := by
    rintro st step st' hnone ⟨hst, hex⟩ h
    obtain ⟨out, hexec⟩ := transact_eq_ok h
    obtain ⟨hst', -, hkeep⟩ := execute_spec hst hexec
    exact ⟨hst', hkeep hnone hex⟩
  have hrun := run_invariant_of_forall hstep ⟨consistent_empty, exclusive_empty⟩ hops
  refine exclusiveOwnership_of_exclusive hrun.1 fun holder holder' s s' hne hholds hholds' hover => ?_
  exact hrun.2 holder holder' s s' hne hholds hholds'
    ⟨hprefixes.findable hholds, hprefixes.findable hholds', hover⟩

/-- An import into `a` and under `p/`, a mutation of `b` and of what is under `q/`, a second import
under `p/x` that supersedes the first, and a lifecycle mutation of `c`. -/
def sampleRun : List (ℤ × Op) :=
  [(0, .submit ⟨[1], [97], [], none, some [112, 47]⟩),
   (1, .admitContentAndPrefixMutation [98] [113, 47] [7]),
   (2, .submit ⟨[2], [100], [], none, some [112, 47, 120]⟩),
   (3, .tryAdmitLifecycleMutation [99] [108] 1)]

theorem ownership_exclusive_sampleRun :
    ((run transact empty sampleRun).destinations.map fun d => (d.key, d.mutationId.isSome)) =
        [([97], false), ([98], true), ([100], false), ([99], true)] ∧
      ExclusiveOwnership (run transact empty sampleRun) := by
  have hprefixes : PrefixesFindable (run transact empty sampleRun) :=
    ⟨by decide +kernel, by decide +kernel⟩
  exact ⟨by decide +kernel, ownership_exclusive sampleRun (by decide) hprefixes⟩

/-- Two imports into `k` and `l` under the same prefix `a<NUL>b/`, on SQLite. -/
def nulPrefixRun : List (ℤ × Op) :=
  [(0, .submit ⟨[1], [107], [], none, some [97, 0, 98, 47]⟩),
   (1, .submit ⟨[2], [108], [], none, some [97, 0, 98, 47]⟩)]

/-- The second import does not supersede the first, and both own the prefix. -/
theorem nulPrefixRun_not_exclusive :
    (run transact empty nulPrefixRun).prefixClaims.map (fun c => (c.jobId, c.pfx)) =
        [([1], [97, 0, 98, 47]), ([2], [97, 0, 98, 47])] ∧
      ¬ExclusiveOwnership (run transact empty nulPrefixRun) := by
  have hshared : ∃ job ∈ (run transact empty nulPrefixRun).jobs,
      ∃ job' ∈ (run transact empty nulPrefixRun).jobs,
        job.state.isActive = true ∧ job'.state.isActive = true ∧ job.id ≠ job'.id ∧
        ∃ c' ∈ (run transact empty nulPrefixRun).prefixClaims, c'.jobId = job'.id ∧
        ∃ c ∈ (run transact empty nulPrefixRun).prefixClaims, c.jobId = job.id ∧
          c.pfx <+: c'.pfx := by
    decide +kernel
  obtain ⟨job, hjob, job', hjob', hact, hact', hne, c', hc', hclaim', c, hc, hclaim, hpre⟩ := hshared
  refine ⟨by decide +kernel, fun h => ?_⟩
  exact ((h.jobs job hjob job' hjob' hact hact' hne c' hc' hclaim').1 c hc hclaim).1 hpre

end OwnershipState
end IpfS3.Ownership
