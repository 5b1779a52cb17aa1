import IpfS3.Ownership.Grants

/-!
# What an admission of exact keys leaves alone

An admission supersedes the jobs in conflict with its keys, invalidates the overlapping tokens and
then installs its own tokens.  Each of the three parts is framed:

* `Released`: only jobs that are given up lose rows, and a destination loses at most its owner.
* `Invalidated`: a destination loses at most its token, and only where the token overlaps.
* `Admitted`: the destinations of other keys stay.

On a consistent state the first two parts always return, and the third fails only when a generation
is exhausted (`admitContentMutations_error`).
-/

namespace IpfS3.Ownership

open Table Fallible Batches BoundedMerge List Option

/-- The row lost at most its owner, a job that was given up. -/
def OwnerReleased (lost : Text → Prop) (d d' : Destination) : Prop :=
  d' = d ∨ ∃ jobId, lost jobId ∧ d.ownerJobId = some jobId ∧ d' = { d with ownerJobId := none }

theorem OwnerReleased.trans {lost : Text → Prop} {d d' d'' : Destination}
    (h : OwnerReleased lost d d') (h' : OwnerReleased lost d' d'') : OwnerReleased lost d d'' := by
  rcases h with rfl | ⟨jobId, hlost, howner, rfl⟩
  · exact h'
  · rcases h' with rfl | ⟨other, -, hother, -⟩
    · exact Or.inr ⟨jobId, hlost, howner, rfl⟩
    · cases hother

theorem OwnerReleased.token_eq {lost : Text → Prop} {d d' : Destination}
    (h : OwnerReleased lost d d') : d'.key = d.key ∧ d'.generation = d.generation ∧
      d'.mutationId = d.mutationId ∧ d'.mutationPrefix = d.mutationPrefix := by
  rcases h with rfl | ⟨jobId, -, -, rfl⟩
  · exact ⟨rfl, rfl, rfl, rfl⟩
  · exact ⟨rfl, rfl, rfl, rfl⟩

namespace OwnershipState

variable {st st' st'' : OwnershipState} {jobId key : Text} {now : ℤ} {lost : Text → Prop}

/-! ## Superseded jobs -/

/-- Only jobs that are given up were superseded. -/
structure Released (lost : Text → Prop) (st st' : OwnershipState) : Prop where
  destinations : List.Forall₂ (OwnerReleased lost) st.destinations st'.destinations
  active : ∀ jobId, st'.isActiveJob jobId = true → st.isActiveJob jobId = true
  claims_subset : ∀ c ∈ st'.prefixClaims, c ∈ st.prefixClaims
  jobs : ∀ jobId, ¬lost jobId →
    st'.jobs.filter (fun j => j.id == jobId) = st.jobs.filter fun j => j.id == jobId
  prefixClaims : ∀ jobId, ¬lost jobId →
    st'.prefixClaims.filter (fun c => c.jobId == jobId) =
      st.prefixClaims.filter fun c => c.jobId == jobId
  targets : ∀ jobId, ¬lost jobId →
    st'.targets.filter (fun t => t.jobId == jobId) = st.targets.filter fun t => t.jobId == jobId

namespace Released

theorem refl (lost : Text → Prop) (st : OwnershipState) : Released lost st st where
  destinations := forall₂_same.mpr fun _ _ => Or.inl rfl
  active := fun _ h => h
  claims_subset := fun _ h => h
  jobs := fun _ _ => rfl
  prefixClaims := fun _ _ => rfl
  targets := fun _ _ => rfl

theorem trans (h : Released lost st st') (h' : Released lost st' st'') :
    Released lost st st'' where
  destinations := forall₂_trans (R := OwnerReleased lost) (fun _ _ _ => .trans) h.destinations
    h'.destinations
  active := fun jobId hact => h.active jobId (h'.active jobId hact)
  claims_subset := fun c hc => h.claims_subset c (h'.claims_subset c hc)
  jobs := fun jobId hjob => (h'.jobs jobId hjob).trans (h.jobs jobId hjob)
  prefixClaims := fun jobId hjob => (h'.prefixClaims jobId hjob).trans (h.prefixClaims jobId hjob)
  targets := fun jobId hjob => (h'.targets jobId hjob).trans (h.targets jobId hjob)

theorem keys_eq (h : Released lost st st') :
    st'.destinations.map Destination.key = st.destinations.map Destination.key :=
  map_eq_of_forall₂ h.destinations fun _ _ hrow => hrow.token_eq.1

end Released

theorem released_of_releaseJobOwnership (hlost : lost jobId)
    (h : st.releaseJobOwnership jobId none = .ok st') : Released lost st st' := by
  obtain ⟨st₁, hloop, h⟩ := of_bind h
  have hrows : List.Forall₂ (OwnerReleased lost) st.destinations st₁.destinations ∧
      st₁ = { st with destinations := st₁.destinations } := by
    refine batchLoop_invariant (J := fun s : OwnershipState =>
      List.Forall₂ (OwnerReleased lost) st.destinations s.destinations ∧
        s = { st with destinations := s.destinations }) (fun d s s' hs hrel => ?_)
      ⟨(Released.refl lost st).destinations, rfl⟩ hloop
    cases hrel
    refine ⟨forall₂_trans (R := OwnerReleased lost) (fun _ _ _ => .trans) hs.1
      (forall₂_updateWhere (fun _ => Or.inl rfl) fun r _ hr => ?_), ?_⟩
    · exact Or.inr ⟨jobId, hlost, beq_iff_eq.mp (Bool.and_eq_true_iff.mp hr).2, rfl⟩
    · rw [hs.2]
  obtain ⟨hdest, heq⟩ := hrows
  cases h
  have hne : ∀ {other : Text}, ¬lost other → (jobId == other) = false := by
    intro other hother
    rw [beq_eq_false_iff_ne]
    rintro rfl
    exact hother hlost
  refine ⟨hdest, fun other hact => ?_, fun c hc => ?_, fun other _ => ?_, fun other hother => ?_,
    fun other hother => ?_⟩
  · rw [heq] at hact
    exact hact
  · rw [heq] at hc
    exact (mem_deleteWhere.mp hc).1
  · rw [heq]
  · rw [heq]
    rw [filter_deleteWhere]
    refine deleteWhere_of_forall_not fun c hc => ?_
    rw [beq_iff_eq.mp (mem_filter.mp hc).2, Bool.beq_comm]
    exact hne hother
  · rw [heq]
    rw [filter_deleteWhere]
    refine deleteWhere_of_forall_not fun t ht => ?_
    rw [beq_iff_eq.mp (mem_filter.mp ht).2, Bool.beq_comm]
    exact hne hother

theorem released_of_supersedeJob (hlost : lost jobId)
    (h : st.supersedeJob jobId none now = .ok st') : Released lost st st' := by
  obtain ⟨job, -, ⟨-, rfl⟩ | h⟩ := supersedeJob_cases h
  · exact Released.refl lost _
  · refine Released.trans ?_ (released_of_releaseJobOwnership hlost h)
    have hjobs : Weaker st { st with
        jobs := updateWhere (fun j => j.id == jobId && j.state.isActive)
          (terminated .superseded now) st.jobs } :=
      { Weaker.refl st with jobs := forall₂_terminated rfl }
    refine { Released.refl lost st with
      active := fun other hact => hjobs.isActiveJob hact
      jobs := fun other hother => ?_ }
    refine filter_updateWhere_of_disjoint fun j _ hj => ?_
    have hid : j.id = jobId := beq_iff_eq.mp (Bool.and_eq_true_iff.mp hj).1
    have hne : (j.id == other) = false := by
      rw [beq_eq_false_iff_ne, hid]
      rintro rfl
      exact hother hlost
    exact ⟨hne, hne⟩

variable {exactTargets : List (Text × Option Text)} {excluding : Option Text}
  {mutationIds : List (Text × Text)}

theorem flag_of_mem_conflictingJobs {after : Option Text} :
    ∀ conflict ∈ conflictingJobs exactTargets none excluding st after, conflict.2 = false := by
  have hinsert : ∀ (ids : List Text) (M : List (Text × Bool)), (∀ entry ∈ M, entry.2 = false) →
      ∀ entry ∈ ids.foldl (insertConflictingJob after excluding false) M, entry.2 = false := by
    intro ids M hM
    refine foldlRecOn (motive := fun M : List (Text × Bool) => ∀ entry ∈ M, entry.2 = false)
      ids _ hM fun M hM id _ => ?_
    rw [insertConflictingJob]
    split_ifs
    · exact hM
    · refine forall_insertCapped (V := fun flag => flag = false) (fun a b ha hb => ?_) rfl hM
      rw [ha, hb, Bool.or_self]
  exact foldlRecOn (motive := fun M : List (Text × Bool) => ∀ entry ∈ M, entry.2 = false)
    exactTargets _ (forall_mem_nil _) fun M hM target _ => hinsert _ _ (hinsert _ _ hM)

theorem cause_of_mem_conflictingJobs {after : Option Text} {conflict : Text × Bool}
    (h : conflict ∈ conflictingJobs exactTargets none excluding st after) :
    ∃ target ∈ exactTargets, target.2 = some conflict.1 ∨
      (∃ c ∈ st.prefixClaims, c.jobId = conflict.1 ∧ sqlStartsWith target.1 c.pfx = true) ∧
        st.isActiveJob conflict.1 = true :=
  (((smallest_exactTargets st exactTargets excluding after Smallest.empty).of_mem _
    (mem_map_of_mem h)).resolve_left id).1

theorem supersedeConflict_eq {conflict : Text × Bool} (h : conflict.2 = false) :
    supersedeConflict none now st conflict = st.supersedeJob conflict.1 none now := by
  rw [supersedeConflict, h, if_neg Bool.false_ne_true]

/-- **Supersession gives up only the jobs in conflict.** -/
theorem released_of_supersedeConflicts
    (hlost : ∀ jobId, ∀ target ∈ exactTargets, target.2 = some jobId ∨
      (∃ c ∈ st.prefixClaims, c.jobId = jobId ∧ sqlStartsWith target.1 c.pfx = true) ∧
        st.isActiveJob jobId = true → lost jobId)
    (h : st.supersedeConflicts exactTargets none excluding now = .ok st') :
    Released lost st st' := by
  refine batchLoop_fetched (J := Released lost st)
    (P := fun conflict => lost conflict.1 ∧ conflict.2 = false)
    (fun after s hs conflict hconflict => ?_) (fun conflict s s' hc hs hsup => ?_)
    (Released.refl lost st) h
  · -- the cause of a later conflict was there at the start
    obtain ⟨target, htarget, hcause⟩ := cause_of_mem_conflictingJobs hconflict
    refine ⟨hlost conflict.1 target htarget ?_, flag_of_mem_conflictingJobs conflict hconflict⟩
    refine hcause.imp_right fun ⟨⟨c, hc, hclaim⟩, hact⟩ => ?_
    exact ⟨⟨c, hs.claims_subset c hc, hclaim⟩, hs.active _ hact⟩
  · rw [supersedeConflict_eq hc.2] at hsup
    exact hs.trans (released_of_supersedeJob hc.1 hsup)

/-! ## Installed tokens -/

/-- Only destinations of the keys were written. -/
structure Admitted (keys : List Text) (st st' : OwnershipState) : Prop where
  keys_nodup : (st.destinations.map Destination.key).Nodup →
    (st'.destinations.map Destination.key).Nodup
  find_eq : ∀ key, key ∉ keys → st'.findDestination key = st.findDestination key
  kept : ∀ d ∈ st.destinations, d.key ∉ keys → d ∈ st'.destinations
  jobs_eq : st'.jobs = st.jobs
  prefixClaims_eq : st'.prefixClaims = st.prefixClaims
  targets_eq : st'.targets = st.targets

namespace Admitted

variable {keys : List Text}

theorem refl (keys : List Text) (st : OwnershipState) : Admitted keys st st :=
  ⟨fun h => h, fun _ _ => rfl, fun _ hd _ => hd, rfl, rfl, rfl⟩

theorem trans (h : Admitted keys st st') (h' : Admitted keys st' st'') : Admitted keys st st'' where
  keys_nodup := fun hkeys => h'.keys_nodup (h.keys_nodup hkeys)
  find_eq := fun key hkey => (h'.find_eq key hkey).trans (h.find_eq key hkey)
  kept := fun d hd hkey => h'.kept d (h.kept d hd hkey) hkey
  jobs_eq := h'.jobs_eq.trans h.jobs_eq
  prefixClaims_eq := h'.prefixClaims_eq.trans h.prefixClaims_eq
  targets_eq := h'.targets_eq.trans h.targets_eq

end Admitted

theorem Puts.admitted {row : Destination} {keys : List Text} (h : Puts st st' row)
    (hkey : row.key ∈ keys) : Admitted keys st st' where
  keys_nodup := fun _ => h.keys_nodup
  find_eq := by
    intro other hother
    have hkept : ∀ d ∈ st.destinations, d.key = other → d ∈ st'.destinations := by
      rintro d hd rfl
      exact (h.mem_iff d).mpr (Or.inl ⟨hd, fun heq => hother (heq ▸ hkey)⟩)
    cases hfind : st.findDestination other with
    | some d =>
      obtain ⟨hd, rfl⟩ := findDestination_eq_some hfind
      exact findDestination_of_mem h.keys_nodup (hkept d hd rfl)
    | none =>
      refine find?_eq_none.mpr fun d hd hd' => ?_
      rcases (h.mem_iff d).mp hd with ⟨hd, -⟩ | rfl
      · exact findDestination_eq_none hfind d hd (beq_iff_eq.mp hd')
      · exact hother (beq_iff_eq.mp hd' ▸ hkey)
  kept := fun d hd hdk => (h.mem_iff d).mpr (Or.inl ⟨hd, fun heq => hdk (heq ▸ hkey)⟩)
  jobs_eq := h.jobs_eq
  prefixClaims_eq := h.prefixClaims_eq
  targets_eq := h.targets_eq

theorem admitted_of_admitKey {keys : List Text}
    {acc acc' : OwnershipState × List StandardMutationGuard} (hkey : key ∈ keys)
    (hkeys : (acc.1.destinations.map Destination.key).Nodup)
    (h : admitKey mutationIds now acc key = .ok acc') : Admitted keys acc.1 acc'.1 := by
  obtain ⟨mutationId, guard, hupsert, -⟩ := admitKey_eq_ok h
  exact (puts_upsertStandardMutation hkeys hupsert).1.admitted hkey

/-- **Installing tokens writes only the destinations of its keys.** -/
theorem admitted_of_admitKeys {keys : List Text} {issued guards : List StandardMutationGuard}
    (hkeys : (st.destinations.map Destination.key).Nodup)
    (h : keys.foldlM (admitKey mutationIds now) (st, issued) = .ok (st', guards)) :
    Admitted keys st st' :=
  foldlM_invariant (J := fun acc : OwnershipState × List StandardMutationGuard =>
    Admitted keys st acc.1)
    (fun _ hkey _ _ hacc hadmit =>
      hacc.trans (admitted_of_admitKey hkey (hacc.keys_nodup hkeys) hadmit))
    (Admitted.refl keys st) h

/-! ## Failures -/

theorem releaseJobOwnership_isOk (st : OwnershipState) (jobId : Text) :
    ∃ st', st.releaseJobOwnership jobId none = .ok st' := by
  have hbatch : ∀ (after : Option Text) (s : OwnershipState), True →
      ∃ s', (page Destination.key (fun d => d.ownerJobId == some jobId) ownershipBatchSize
        s.destinations after).foldlM (releaseDestination jobId none) s = .ok s' ∧ True :=
    fun after s _ => foldlM_isOk (J := fun _ => True) (fun d _ s _ => ⟨_, rfl, trivial⟩) trivial
  obtain ⟨st₁, hloop, -⟩ : ∃ s', batchLoop _ Destination.key _ (st.destinations.length + 1) none
      st = .ok s' ∧ True := batchLoop_isOk hbatch _ none trivial
  rw [releaseJobOwnership, hloop]
  exact ⟨_, rfl⟩

theorem supersedeJob_isOk (now : ℤ) (hids : (st.jobs.map ImportJob.id).Nodup)
    (hjob : jobId ∈ st.jobs.map ImportJob.id) :
    ∃ st', st.supersedeJob jobId none now = .ok st' := by
  obtain ⟨job, hmem, rfl⟩ := mem_map.mp hjob
  have hfind : st.findJob job.id = some job := find?_of_nodup hids hmem
  rw [supersedeJob, hfind]
  dsimp only
  split_ifs with hactive
  · exact ⟨st, rfl⟩
  · have hcount : st.jobs.countP (fun j => j.id == job.id && j.state.isActive) = 1 := by
      refine countP_eq_one_of_nodup hids hmem ?_ fun j _ hj => ?_
      · rw [BEq.rfl, Bool.true_and]
        exact Bool.not_eq_false _ ▸ hactive
      · exact beq_iff_eq.mp (Bool.and_eq_true_iff.mp hj).1
    rw [ensure_of hcount, ok_bind]
    exact releaseJobOwnership_isOk _ _

theorem supersedeConflicts_isOk (excluding : Option Text) (now : ℤ) (hst : st.Consistent)
    (howner : ∀ target ∈ exactTargets, ∀ jobId, target.2 = some jobId →
      jobId ∈ st.jobs.map ImportJob.id) :
    ∃ st', st.supersedeConflicts exactTargets none excluding now = .ok st' := by
  have hbatch : ∀ (after : Option Text) (s : OwnershipState), s.Consistent ∧ Weaker st s →
      ∃ s', (conflictingJobs exactTargets none excluding s after).foldlM
        (supersedeConflict none now) s = .ok s' ∧ s'.Consistent ∧ Weaker st s' := by
    intro after s ⟨hs, hw⟩
    have hknown : ∀ conflict ∈ conflictingJobs exactTargets none excluding s after,
        conflict.1 ∈ st.jobs.map ImportJob.id := by
      intro conflict hconflict
      obtain ⟨target, htarget, hown | ⟨-, hact⟩⟩ := cause_of_mem_conflictingJobs hconflict
      · exact howner target htarget conflict.1 hown
      · obtain ⟨job, hjob, hid, -⟩ := isActiveJob_iff.mp hact
        rw [← hw.ids_eq, ← hid]
        exact mem_map_of_mem hjob
    refine foldlM_isOk (J := fun s => s.Consistent ∧ Weaker st s)
      (fun conflict hconflict s₁ hs₁ => ?_) ⟨hs, hw⟩
    obtain ⟨s₂, hs₂⟩ := supersedeJob_isOk now hs₁.1.ids_nodup
      (hs₁.2.ids_eq.symm ▸ hknown conflict hconflict)
    obtain ⟨hcons, hw₂, -⟩ := supersedeJob_spec hs₁.1 hs₂
    rw [supersedeConflict_eq (flag_of_mem_conflictingJobs conflict hconflict)]
    exact ⟨s₂, hs₂, hcons, hs₁.2.trans hw₂⟩
  obtain ⟨st', h, -⟩ := batchLoop_isOk hbatch (st.jobs.length + exactTargets.length + 1) none
    ⟨hst, Weaker.refl st⟩
  exact ⟨st', h⟩

theorem invalidateStandardMutations_isOk (keys : List Text)
    (hkeys : (st.destinations.map Destination.key).Nodup) :
    ∃ st', st.invalidateStandardMutations keys none = .ok st' := by
  have hstep : ∀ (s : OwnershipState) (a : Destination),
      (s.destinations.map Destination.key).Nodup → a ∈ s.destinations →
      a.mutationId.isSome = true → ∃ s', invalidateToken keys none s a = .ok s' ∧
        Settles Destination.key (fun d => d.mutationId.isSome)
          (fun d => tokenOverlaps keys none d = true) s.destinations s'.destinations a := by
    intro s a hs ha htoken
    have hok : ∃ s', invalidateToken keys none s a = .ok s' := by
      obtain ⟨mutationId, hid⟩ := isSome_iff_exists.mp htoken
      rw [invalidateToken, hid]
      split_ifs
      · exact ⟨s, rfl⟩
      · have hcount : s.destinations.countP
            (fun d => d.key == a.key && d.mutationId == some mutationId) = 1 := by
          refine countP_eq_one_of_nodup hs ha ?_ fun d _ hd => ?_
          · rw [hid, BEq.rfl, BEq.rfl, Bool.true_and]
          · exact beq_iff_eq.mp (Bool.and_eq_true_iff.mp hd).1
        dsimp only
        rw [ensure_of hcount, ok_bind]
        exact ⟨_, rfl⟩
    obtain ⟨s', hs'⟩ := hok
    exact ⟨s', hs', (invalidateToken_spec hs ha hs').2⟩
  exact sweep_isOk OwnershipState.destinations hstep _ hkeys

theorem installToken_error {mutationId : Text} {mutationPrefix : Option Text} {e : AppError}
    (hkeys : (st.destinations.map Destination.key).Nodup)
    (h : st.installToken (st.findDestination key) key mutationId mutationPrefix = .error e) :
    e = .internal "import destination generation exhausted" := by
  cases hfind : st.findDestination key with
  | none =>
    have hnew : ∀ d ∈ st.destinations, d.key ≠ key := findDestination_eq_none hfind
    rw [hfind, installToken, insertDestination, ensure_of hnew] at h
    cases h
  | some destination =>
    obtain ⟨hmem, rfl⟩ := findDestination_eq_some hfind
    have hcount : st.destinations.countP
        (fun d => d.key == destination.key && d.generation == destination.generation) = 1 := by
      refine countP_eq_one_of_nodup hkeys hmem ?_ fun d _ hd => ?_
      · rw [BEq.rfl, BEq.rfl, Bool.true_and]
      · exact beq_iff_eq.mp (Bool.and_eq_true_iff.mp hd).1
    rw [hfind, installToken, nextGeneration] at h
    split_ifs at h with hlt
    · rw [ok_bind] at h
      dsimp only at h
      rw [ensure_of hcount] at h
      cases h
    · exact (Except.error.inj h).symm

/-- **An admission of exact keys fails only when a generation is exhausted**, once its tokens are
given. -/
theorem admitContentMutations_error {keys : List Text} {e : AppError} (hst : st.Consistent)
    (hids : ∀ key ∈ keys, (mutationIds.lookup key).isSome = true)
    (h : st.admitContentMutations keys mutationIds excluding now = .error e) :
    e = .internal "import destination generation exhausted" := by
  have howner : ∀ target ∈ keys.map st.exactTarget, ∀ jobId, target.2 = some jobId →
      jobId ∈ st.jobs.map ImportJob.id := by
    intro target htarget jobId hjob
    obtain ⟨key, -, rfl⟩ := mem_map.mp htarget
    obtain ⟨d, hd, hown⟩ := bind_eq_some_iff.mp hjob
    have hact := hst.owner_active d (findDestination_eq_some hd).1 jobId hown
    obtain ⟨job, hmem, hid, -⟩ := isActiveJob_iff.mp hact
    exact hid ▸ mem_map_of_mem hmem
  obtain ⟨st₁, hsup⟩ := supersedeConflicts_isOk excluding now hst howner
  have hkeys₁ := (supersedeConflicts_spec hst hsup).1.1.keys_nodup
  obtain ⟨st₂, hinv⟩ := invalidateStandardMutations_isOk keys hkeys₁
  have hkeys₂ : (st₂.destinations.map Destination.key).Nodup :=
    (invalidateStandardMutations_spec hkeys₁ hinv).1.destinationsWeaker.weaker.keys_eq ▸ hkeys₁
  rw [admitContentMutations, hsup, ok_bind, hinv, ok_bind] at h
  obtain ⟨k, hk, acc, hacc, hfail⟩ := exists_of_foldlM_error
    (J := fun acc : OwnershipState × List StandardMutationGuard =>
      (acc.1.destinations.map Destination.key).Nodup)
    (fun k hk acc acc' hacc hadmit => (admitted_of_admitKey hk hacc hadmit).keys_nodup hacc) hkeys₂ h
  obtain ⟨mutationId, hid⟩ := isSome_iff_exists.mp (hids k hk)
  simp only [admitKey, hid, upsertStandardMutation] at hfail
  cases hinstall : acc.1.installToken (acc.1.findDestination k) k mutationId none with
  | error e' =>
    rw [hinstall] at hfail
    obtain rfl := Except.error.inj hfail
    exact installToken_error hacc hinstall
  | ok installed =>
    rw [hinstall] at hfail
    cases hfail

end OwnershipState
end IpfS3.Ownership
