import IpfS3.Ownership.Supersession
import IpfS3.Foundations.Exclusion

/-!
# What the ownership loops leave behind

A state is `Consistent` when its rows refer to each other as the foreign keys and the transactions
keep them: only active jobs own something, a destination with a token has no owner, and a lease is
never ahead of its destination.

`Weaker st st'` says that `st'` grants nothing that `st` did not grant, and that no generation went
back.  Every loop of `IpfS3.Ownership.Supersession` weakens the state and keeps it consistent, and
each one is specified by what it leaves:

* `supersedeJob_spec`: the job is not active, and owns nothing.
* `supersedeConflicts_spec`: no active job is left in conflict.
* `invalidateStandardMutations_spec`: no overlapping token is left.
* `recoverExpiredMutations_spec`: no expired lease is left.

`Advances` is what every transaction does to the destinations in time: a row stays, its generation
does not go back, and while the generation stays an owner or a token can only be given up.
-/

namespace IpfS3.Ownership

open Table Fallible Batches BoundedMerge Exclusion List

/-! ## Rows that grow weaker, and rows in time -/

/-- The later row grants no more: its owner and its token are the same or gone. -/
structure DestinationLe (d d' : Destination) : Prop where
  key_eq : d'.key = d.key
  generation_le : d.generation ≤ d'.generation
  owner : d'.ownerJobId = d.ownerJobId ∨ d'.ownerJobId = none
  token : d'.mutationId = d.mutationId ∧ d'.mutationPrefix = d.mutationPrefix ∨ d'.mutationId = none

namespace DestinationLe

variable {d d' d'' : Destination}

theorem refl (d : Destination) : DestinationLe d d :=
  ⟨rfl, le_rfl, Or.inl rfl, Or.inl ⟨rfl, rfl⟩⟩

theorem trans (h : DestinationLe d d') (h' : DestinationLe d' d'') : DestinationLe d d'' where
  key_eq := h'.key_eq.trans h.key_eq
  generation_le := h.generation_le.trans h'.generation_le
  owner := by
    rcases h'.owner with howner | howner
    · exact howner.symm ▸ h.owner
    · exact Or.inr howner
  token := by
    rcases h'.token with ⟨hid, hpre⟩ | hid
    · rw [hid, hpre]
      exact h.token
    · exact Or.inr hid

theorem owner_eq (h : DestinationLe d d') {jobId : Text} (howner : d'.ownerJobId = some jobId) :
    d.ownerJobId = some jobId := by
  rcases h.owner with heq | heq
  · exact heq ▸ howner
  · exact absurd (heq.symm.trans howner) (Option.some_ne_none jobId).symm

theorem token_eq (h : DestinationLe d d') {mutationId : Text}
    (htoken : d'.mutationId = some mutationId) :
    d.mutationId = some mutationId ∧ d'.mutationPrefix = d.mutationPrefix := by
  rcases h.token with ⟨hid, hpre⟩ | hid
  · exact ⟨hid ▸ htoken, hpre⟩
  · exact absurd (hid.symm.trans htoken) (Option.some_ne_none mutationId).symm

end DestinationLe

/-- What time does to a destination row. -/
structure RowAdvances (d d' : Destination) : Prop where
  key_eq : d'.key = d.key
  generation_le : d.generation ≤ d'.generation
  owner : d'.generation = d.generation → ∀ jobId, d'.ownerJobId = some jobId →
    d.ownerJobId = some jobId
  token : d'.generation = d.generation → d'.mutationId.isSome = true →
    d.mutationId.isSome = true ∧ d'.mutationPrefix = d.mutationPrefix

theorem RowAdvances.refl (d : Destination) : RowAdvances d d :=
  ⟨rfl, le_rfl, fun _ _ h => h, fun _ h => ⟨h, rfl⟩⟩

theorem RowAdvances.trans {d d' d'' : Destination} (h : RowAdvances d d') (h' : RowAdvances d' d'') :
    RowAdvances d d'' := by
  have hle := h.generation_le
  have hle' := h'.generation_le
  refine ⟨h'.key_eq.trans h.key_eq, hle.trans hle', fun heq jobId howner => ?_, fun heq htoken => ?_⟩
  · exact h.owner (by omega) jobId (h'.owner (by omega) jobId howner)
  · obtain ⟨htoken', hpre'⟩ := h'.token (by omega) htoken
    obtain ⟨htoken'', hpre⟩ := h.token (by omega) htoken'
    exact ⟨htoken'', hpre'.trans hpre⟩

theorem DestinationLe.rowAdvances {d d' : Destination} (h : DestinationLe d d') :
    RowAdvances d d' := by
  refine ⟨h.key_eq, h.generation_le, fun _ _ => h.owner_eq, fun _ htoken => ?_⟩
  obtain ⟨mutationId, hid⟩ := Option.isSome_iff_exists.mp htoken
  obtain ⟨hold, hpre⟩ := h.token_eq hid
  exact ⟨Option.isSome_of_mem hold, hpre⟩

/-- The later row of a job is active only when the earlier one was. -/
def JobLe (job job' : ImportJob) : Prop :=
  job'.id = job.id ∧ (job'.state.isActive = true → job.state.isActive = true)

namespace OwnershipState

variable {st st' st'' : OwnershipState} {jobId : Text}

theorem isActiveJob_iff :
    st.isActiveJob jobId = true ↔ ∃ job ∈ st.jobs, job.id = jobId ∧ job.state.isActive = true := by
  rw [isActiveJob, any_eq_true]
  simp only [Bool.and_eq_true, beq_iff_eq]

theorem isActiveJob_congr (hjobs : st'.jobs = st.jobs) (jobId : Text) :
    st'.isActiveJob jobId = st.isActiveJob jobId := by
  rw [isActiveJob, isActiveJob, hjobs]

/-- The later state grants no more than the earlier one. -/
structure Weaker (st st' : OwnershipState) : Prop where
  destinations : List.Forall₂ DestinationLe st.destinations st'.destinations
  jobs : List.Forall₂ JobLe st.jobs st'.jobs
  prefixClaims : ∀ c ∈ st'.prefixClaims, c ∈ st.prefixClaims
  targets : ∀ t ∈ st'.targets, t ∈ st.targets
  leases : st'.leases.Sublist st.leases

namespace Weaker

theorem refl (st : OwnershipState) : Weaker st st where
  destinations := forall₂_same.mpr fun d _ => DestinationLe.refl d
  jobs := forall₂_same.mpr fun _ _ => ⟨rfl, fun h => h⟩
  prefixClaims := fun _ hc => hc
  targets := fun _ ht => ht
  leases := List.Sublist.refl _

section

variable (h : Weaker st st')

include h

theorem trans (h' : Weaker st' st'') : Weaker st st'' where
  destinations := forall₂_trans (R := DestinationLe) (fun _ _ _ => .trans) h.destinations h'.destinations
  jobs := forall₂_trans (fun _ _ _ hj hj' => ⟨hj'.1.trans hj.1, fun hact => hj.2 (hj'.2 hact)⟩)
    h.jobs h'.jobs
  prefixClaims := fun c hc => h.prefixClaims c (h'.prefixClaims c hc)
  targets := fun t ht => h.targets t (h'.targets t ht)
  leases := h'.leases.trans h.leases

theorem exists_destination {d' : Destination} (hd' : d' ∈ st'.destinations) :
    ∃ d ∈ st.destinations, DestinationLe d d' := exists_of_forall₂ h.destinations hd'

theorem exists_later {d : Destination} (hd : d ∈ st.destinations) :
    ∃ d' ∈ st'.destinations, DestinationLe d d' := exists_of_forall₂ h.destinations.flip hd

theorem keys_eq :
    st'.destinations.map Destination.key = st.destinations.map Destination.key :=
  map_eq_of_forall₂ h.destinations fun _ _ hle => hle.key_eq

theorem ids_eq : st'.jobs.map ImportJob.id = st.jobs.map ImportJob.id :=
  map_eq_of_forall₂ h.jobs fun _ _ hle => hle.1

theorem isActiveJob (hact : st'.isActiveJob jobId = true) :
    st.isActiveJob jobId = true := by
  obtain ⟨job', hjob', hid, hactive⟩ := isActiveJob_iff.mp hact
  obtain ⟨job, hjob, hle⟩ := exists_of_forall₂ h.jobs hjob'
  exact isActiveJob_iff.mpr ⟨job, hjob, hle.1.symm.trans hid, hle.2 hactive⟩

end

end Weaker

/-- What time does to the destinations of a bucket. -/
def Advances (st st' : OwnershipState) : Prop :=
  ∀ d ∈ st.destinations, ∃ d' ∈ st'.destinations, RowAdvances d d'

theorem Advances.refl (st : OwnershipState) : Advances st st :=
  fun d hd => ⟨d, hd, RowAdvances.refl d⟩

theorem Advances.of_eq (h : st'.destinations = st.destinations) : Advances st st' :=
  fun d hd => ⟨d, h ▸ hd, RowAdvances.refl d⟩

theorem Advances.trans (h : Advances st st') (h' : Advances st' st'') : Advances st st'' := by
  intro d hd
  obtain ⟨d', hd', hadv⟩ := h d hd
  obtain ⟨d'', hd'', hadv'⟩ := h' d' hd'
  exact ⟨d'', hd'', hadv.trans hadv'⟩

theorem Weaker.advances (h : Weaker st st') : Advances st st' := by
  intro d hd
  obtain ⟨d', hd', hle⟩ := h.exists_later hd
  exact ⟨d', hd', hle.rowAdvances⟩

/-! ## Consistent states -/

/-- The rows of a state refer to each other. -/
structure Consistent (st : OwnershipState) : Prop where
  keys_nodup : (st.destinations.map Destination.key).Nodup
  ids_nodup : (st.jobs.map ImportJob.id).Nodup
  leases_nodup : (st.leases.map MutationLease.key).Nodup
  owner_active : ∀ d ∈ st.destinations, ∀ jobId, d.ownerJobId = some jobId →
    st.isActiveJob jobId = true
  claim_active : ∀ c ∈ st.prefixClaims, st.isActiveJob c.jobId = true
  token_unowned : ∀ d ∈ st.destinations, d.mutationId.isSome = true → d.ownerJobId = none
  target_row : ∀ t ∈ st.targets, ∃ d ∈ st.destinations,
    d.key = t.key ∧ t.expectedGeneration ≤ d.generation
  lease_row : ∀ l ∈ st.leases, ∃ d ∈ st.destinations, d.key = l.key ∧
    l.generation ≤ d.generation ∧ (d.generation = l.generation →
      ∀ mutationId, d.mutationId = some mutationId → mutationId = l.mutationId)

theorem Consistent.weaken (h : st.Consistent) (hw : Weaker st st')
    (howner : ∀ d ∈ st'.destinations, ∀ jobId, d.ownerJobId = some jobId →
      st'.isActiveJob jobId = true)
    (hclaim : ∀ c ∈ st'.prefixClaims, st'.isActiveJob c.jobId = true) : st'.Consistent where
  keys_nodup := hw.keys_eq ▸ h.keys_nodup
  ids_nodup := hw.ids_eq ▸ h.ids_nodup
  leases_nodup := h.leases_nodup.sublist (hw.leases.map _)
  owner_active := howner
  claim_active := hclaim
  token_unowned := by
    intro d' hd' htoken
    obtain ⟨d, hd, hle⟩ := hw.exists_destination hd'
    obtain ⟨mutationId, hid⟩ := Option.isSome_iff_exists.mp htoken
    have hnone := h.token_unowned d hd (Option.isSome_of_mem (hle.token_eq hid).1)
    rcases hle.owner with heq | heq
    · exact heq.trans hnone
    · exact heq
  target_row := by
    intro t ht
    obtain ⟨d, hd, hkey, hgen⟩ := h.target_row t (hw.targets t ht)
    obtain ⟨d', hd', hle⟩ := hw.exists_later hd
    exact ⟨d', hd', hle.key_eq.trans hkey, hgen.trans hle.generation_le⟩
  lease_row := by
    intro l hl
    obtain ⟨d, hd, hkey, hgen, hid⟩ := h.lease_row l (hw.leases.subset hl)
    obtain ⟨d', hd', hle⟩ := hw.exists_later hd
    refine ⟨d', hd', hle.key_eq.trans hkey, hgen.trans hle.generation_le, ?_⟩
    intro heq mutationId htoken
    have hgen' := hle.generation_le
    exact hid (le_antisymm (heq ▸ hgen') hgen) mutationId (hle.token_eq htoken).1

theorem Consistent.weaken_of_jobs_eq (h : st.Consistent) (hw : Weaker st st')
    (hjobs : st'.jobs = st.jobs) : st'.Consistent := by
  have hact := isActiveJob_congr hjobs
  refine h.weaken hw ?_ fun c hc => (hact _).trans (h.claim_active c (hw.prefixClaims c hc))
  intro d' hd' jobId howner
  obtain ⟨d, hd, hle⟩ := hw.exists_destination hd'
  exact (hact _).trans (h.owner_active d hd jobId (hle.owner_eq howner))

/-! ## Releasing and superseding -/

structure DestinationsWeaker (st st' : OwnershipState) : Prop where
  destinations : List.Forall₂ DestinationLe st.destinations st'.destinations
  eq : st' = { st with destinations := st'.destinations }

namespace DestinationsWeaker

theorem refl (st : OwnershipState) : DestinationsWeaker st st :=
  ⟨(Weaker.refl st).destinations, rfl⟩

variable (h : DestinationsWeaker st st')

include h

theorem trans (h' : DestinationsWeaker st' st'') : DestinationsWeaker st st'' := by
  refine ⟨forall₂_trans (R := DestinationLe) (fun _ _ _ => .trans) h.destinations
    h'.destinations, ?_⟩
  rw [h'.eq, h.eq]

theorem jobs_eq : st'.jobs = st.jobs := by rw [h.eq]

theorem prefixClaims_eq : st'.prefixClaims = st.prefixClaims := by rw [h.eq]

theorem targets_eq : st'.targets = st.targets := by rw [h.eq]

theorem leases_eq : st'.leases = st.leases := by rw [h.eq]

theorem weaker : Weaker st st' where
  destinations := h.destinations
  jobs := h.jobs_eq ▸ (Weaker.refl st).jobs
  prefixClaims := fun _ hc => h.prefixClaims_eq ▸ hc
  targets := fun _ ht => h.targets_eq ▸ ht
  leases := h.leases_eq ▸ List.Sublist.refl _

theorem consistent (hst : st.Consistent) : st'.Consistent :=
  hst.weaken_of_jobs_eq h.weaker h.jobs_eq

end DestinationsWeaker

theorem destinationsWeaker_updateWhere {p : Destination → Bool} {f : Destination → Destination}
    (h : ∀ d ∈ st.destinations, p d = true → DestinationLe d (f d)) :
    DestinationsWeaker st { st with destinations := updateWhere p f st.destinations } :=
  ⟨forall₂_updateWhere DestinationLe.refl h, rfl⟩

theorem nextGeneration_eq_ok {generation next : ℤ} (h : nextGeneration generation = .ok next) :
    next = generation + 1 := by
  rw [nextGeneration] at h
  split_ifs at h
  exact (Except.ok.inj h).symm

variable {invalidationPrefix : Option Text}

theorem releaseDestination_spec {a : Destination}
    (hkeys : (st.destinations.map Destination.key).Nodup) (ha : a ∈ st.destinations)
    (h : releaseDestination jobId invalidationPrefix st a = .ok st') :
    DestinationsWeaker st st' ∧
      Settles Destination.key (fun d => d.ownerJobId == some jobId) (fun _ => True)
        st.destinations st'.destinations a := by
  have hrow : ∀ d ∈ st.destinations,
      (d.key == a.key && d.ownerJobId == some jobId) = true → d = a := by
    intro d hd hc
    rw [Bool.and_eq_true, beq_iff_eq] at hc
    exact inj_on_of_nodup_map hkeys hd ha hc.1
  have hrest : ∀ d ∈ st.destinations,
      (d.key == a.key && d.ownerJobId == some jobId) = false → d.key = a.key →
        (d.ownerJobId == some jobId) = true → ¬True := by
    intro d _ hc hkey howner
    rw [howner, hkey, BEq.rfl] at hc
    exact absurd hc (by decide)
  rw [releaseDestination] at h
  split_ifs at h with hinv
  · obtain ⟨next, hnext, h⟩ := of_bind h
    cases h
    refine ⟨destinationsWeaker_updateWhere fun d hd hc => ?_,
      settles_updateWhere (fun d hd hc => congrArg _ (hrow d hd hc)) (fun d _ _ => ⟨rfl, ?_⟩) hrest⟩
    · have hle : d.generation ≤ next := by
        rw [hrow d hd hc, nextGeneration_eq_ok hnext]
        omega
      exact ⟨rfl, hle, Or.inr rfl, Or.inl ⟨rfl, rfl⟩⟩
    · exact fun hnone => absurd hnone Bool.false_ne_true
  · cases h
    refine ⟨destinationsWeaker_updateWhere fun d _ _ => ⟨rfl, le_rfl, Or.inr rfl,
      Or.inl ⟨rfl, rfl⟩⟩, settles_updateWhere (fun d hd hc => congrArg _ (hrow d hd hc))
      (fun d _ _ => ⟨rfl, ?_⟩) hrest⟩
    exact fun hnone => absurd hnone Bool.false_ne_true

theorem releaseJobOwnership_spec (hkeys : (st.destinations.map Destination.key).Nodup)
    (h : st.releaseJobOwnership jobId invalidationPrefix = .ok st') :
    Weaker st st' ∧ st'.jobs = st.jobs ∧ (∀ d ∈ st'.destinations, d.ownerJobId ≠ some jobId) ∧
      ∀ c ∈ st'.prefixClaims, c.jobId ≠ jobId := by
  obtain ⟨st₁, hloop, h⟩ := of_bind h
  obtain ⟨hw, -, hnone⟩ := sweep OwnershipState.destinations DestinationsWeaker.refl
    DestinationsWeaker.trans (fun _ _ _ hkeys ha _ => releaseDestination_spec hkeys ha) (by decide)
    hkeys hloop
  cases h
  have hdelete : Weaker st₁ { st₁ with
      prefixClaims := deleteWhere (fun c => c.jobId == jobId) st₁.prefixClaims
      targets := deleteWhere (fun t => t.jobId == jobId) st₁.targets } :=
    { Weaker.refl st₁ with
      prefixClaims := fun c hc => (mem_deleteWhere.mp hc).1
      targets := fun t ht => (mem_deleteWhere.mp ht).1 }
  refine ⟨hw.weaker.trans hdelete, hw.jobs_eq, fun d hd howner => ?_, fun c hc => ?_⟩
  · exact hnone d hd (beq_iff_eq.mpr howner) trivial
  · exact fun heq => absurd (beq_iff_eq.mpr heq) (Bool.eq_false_iff.mp (mem_deleteWhere.mp hc).2)

/-- **Terminating a job**: its row leaves the active states and its ownership is released. -/
theorem terminate_spec {jobs : List ImportJob} (hst : st.Consistent)
    (hjobs : List.Forall₂ JobLe st.jobs jobs)
    (hother : ∀ other, other ≠ jobId → st.isActiveJob other = true →
      { st with jobs := jobs }.isActiveJob other = true)
    (h : { st with jobs := jobs }.releaseJobOwnership jobId invalidationPrefix = .ok st') :
    st'.Consistent ∧ Weaker st st' ∧ st'.jobs = jobs ∧
      ∀ other, other ≠ jobId → st.isActiveJob other = true → st'.isActiveJob other = true := by
  have hkeys : ({ st with jobs := jobs }.destinations.map Destination.key).Nodup := hst.keys_nodup
  obtain ⟨hw, hjobs', howner, hclaim⟩ := releaseJobOwnership_spec hkeys h
  have hjob : Weaker st { st with jobs := jobs } := { Weaker.refl st with jobs := hjobs }
  have hactive : ∀ other, other ≠ jobId → st.isActiveJob other = true →
      st'.isActiveJob other = true :=
    fun other hne hact => (isActiveJob_congr hjobs' other).trans (hother other hne hact)
  have hall := hjob.trans hw
  refine ⟨hst.weaken hall (fun d' hd' other hown => ?_) fun c hc => ?_, hall, hjobs', hactive⟩
  · obtain ⟨d, hd, hle⟩ := hall.exists_destination hd'
    refine hactive other (fun heq => howner d' hd' (heq ▸ hown)) ?_
    exact hst.owner_active d hd other (hle.owner_eq hown)
  · exact hactive c.jobId (hclaim c hc) (hst.claim_active c (hall.prefixClaims c hc))

theorem isActiveJob_eq_false_iff : st.isActiveJob jobId = false ↔
    ∀ job ∈ st.jobs, job.id = jobId → job.state.isActive = false := by
  rw [← Bool.not_eq_true, isActiveJob_iff]
  push Not
  simp only [Bool.not_eq_true]

section Terminated

variable {c : ImportJob → Bool} {state : JobState} {now : ℤ}

theorem forall₂_terminated (hstate : state.isActive = false) :
    List.Forall₂ JobLe st.jobs (updateWhere c (terminated state now) st.jobs) :=
  forall₂_updateWhere (fun _ => ⟨rfl, fun h => h⟩)
    fun _ _ _ => ⟨rfl, fun h => absurd (hstate.symm.trans h) Bool.false_ne_true⟩

theorem isActiveJob_terminated_of_ne (hc : ∀ job, c job = true → job.id = jobId) {other : Text}
    (hne : other ≠ jobId) (hact : st.isActiveJob other = true) :
    { st with jobs := updateWhere c (terminated state now) st.jobs }.isActiveJob other = true := by
  obtain ⟨job, hjob, hid, hactive⟩ := isActiveJob_iff.mp hact
  refine isActiveJob_iff.mpr ⟨job, mem_updateWhere.mpr ⟨job, hjob, if_neg fun hcj => ?_⟩, hid,
    hactive⟩
  exact hne (hid.symm.trans (hc job hcj))

theorem isActiveJob_terminated (hstate : state.isActive = false)
    (hc : ∀ job ∈ st.jobs, job.id = jobId → job.state.isActive = true → c job = true) :
    { st with jobs := updateWhere c (terminated state now) st.jobs }.isActiveJob jobId = false := by
  refine isActiveJob_eq_false_iff.mpr fun job' hjob' hid => ?_
  obtain ⟨job, hjob, rfl⟩ := mem_updateWhere.mp hjob'
  by_cases hcj : c job = true
  · rw [if_pos hcj]
    exact hstate
  · rw [if_neg hcj] at hid ⊢
    rw [← Bool.not_eq_true]
    exact fun hactive => hcj (hc job hjob hid hactive)

end Terminated

theorem findJob_eq_some (hst : st.Consistent) {job : ImportJob} (h : st.findJob jobId = some job) :
    job ∈ st.jobs ∧ job.id = jobId ∧ ∀ other ∈ st.jobs, other.id = jobId → other = job := by
  have hmem := mem_of_find?_eq_some h
  have hid : job.id = jobId := beq_iff_eq.mp (find?_some h :)
  refine ⟨hmem, hid, fun other hother hoid => ?_⟩
  exact inj_on_of_nodup_map hst.ids_nodup hother hmem (hoid.trans hid.symm)

theorem supersedeJob_cases {now : ℤ}
    (h : st.supersedeJob jobId invalidationPrefix now = .ok st') :
    ∃ job, st.findJob jobId = some job ∧ (job.state.isActive = false ∧ st' = st ∨
      releaseJobOwnership { st with
        jobs := updateWhere (fun j => j.id == jobId && j.state.isActive)
          (terminated .superseded now) st.jobs } jobId invalidationPrefix = .ok st') := by
  rw [supersedeJob] at h
  cases hfind : st.findJob jobId with
  | none =>
    rw [hfind] at h
    cases h
  | some job =>
    rw [hfind] at h
    by_cases hactive : job.state.isActive = false
    · simp only [hactive, if_true] at h
      cases h
      exact ⟨job, rfl, Or.inl ⟨hactive, rfl⟩⟩
    · simp only [if_neg hactive] at h
      obtain ⟨-, h⟩ := of_ensure h
      exact ⟨job, rfl, Or.inr h⟩

/-- **A superseded job** is not active and owns nothing. -/
theorem supersedeJob_spec {now : ℤ} (hst : st.Consistent)
    (h : st.supersedeJob jobId invalidationPrefix now = .ok st') :
    st'.Consistent ∧ Weaker st st' ∧ st'.isActiveJob jobId = false ∧
      ∀ other, other ≠ jobId → st.isActiveJob other = true → st'.isActiveJob other = true := by
  obtain ⟨job, hfind, ⟨hactive, rfl⟩ | h⟩ := supersedeJob_cases h
  · obtain ⟨hjob, hid, hunique⟩ := findJob_eq_some hst hfind
    refine ⟨hst, Weaker.refl _, isActiveJob_eq_false_iff.mpr fun other hother hoid => ?_,
      fun _ _ hact => hact⟩
    rw [hunique other hother hoid, hactive]
  · have hc : ∀ j : ImportJob, (j.id == jobId && j.state.isActive) = true → j.id = jobId := by
      intro j hj
      exact beq_iff_eq.mp (Bool.and_eq_true_iff.mp hj).1
    obtain ⟨hcons, hw, hjobs, hother⟩ := terminate_spec hst (forall₂_terminated rfl)
      (fun other hne => isActiveJob_terminated_of_ne hc hne) h
    refine ⟨hcons, hw, ?_, hother⟩
    rw [isActiveJob, hjobs]
    refine isActiveJob_terminated rfl fun j _ hjid hjact => ?_
    rw [hjid, hjact, BEq.rfl, Bool.and_self]

/-! ## Conflicting jobs -/

def Eligible (after excluding : Option Text) (jobId : Text) : Prop :=
  excluding ≠ some jobId ∧ ∀ a, after = some a → a < jobId

/-- The jobs in conflict with exact keys, their owners as they were read, or a prefix. -/
def Conflicts (exactTargets : List (Text × Option Text)) (mutationPrefix : Option Text)
    (st : OwnershipState) (jobId : Text) : Prop :=
  (∃ target ∈ exactTargets, target.2 = some jobId ∨
    ∃ c ∈ st.prefixClaims, c.jobId = jobId ∧ sqlStartsWith target.1 c.pfx = true) ∨
  ∃ pfx, mutationPrefix = some pfx ∧
    ((∃ c ∈ st.prefixClaims, c.jobId = jobId ∧
        (sqlStartsWith pfx c.pfx || sqlStartsWith c.pfx pfx) = true) ∨
      ∃ d ∈ st.destinations, d.ownerJobId = some jobId ∧ sqlStartsWith d.key pfx = true)

section ConflictingJobs

variable {after excluding mutationPrefix : Option Text} {invalidate : Bool}
  {M : List (Text × Bool)} {A : Text → Prop} {exactTargets : List (Text × Option Text)}

theorem mem_claimants {p : PrefixClaim → Bool} : jobId ∈ (st.prefixClaims.filter p).map (·.jobId) ↔
    ∃ c ∈ st.prefixClaims, c.jobId = jobId ∧ p c = true := by
  simp only [mem_map, mem_filter]
  exact exists_congr fun c => by tauto

theorem insertConflictingJob_of_eligible (h : Eligible after excluding jobId) :
    insertConflictingJob after excluding invalidate M jobId =
      insertCapped ownershipBatchSize (· || ·) jobId invalidate M := by
  rw [insertConflictingJob, if_neg]
  rintro (hex | hafter)
  · exact h.1 hex
  · cases after with
    | none => cases hafter
    | some a => exact absurd (h.2 a rfl) (not_lt.mpr (of_decide_eq_true hafter))

theorem insertConflictingJob_of_not_eligible (h : ¬Eligible after excluding jobId) :
    insertConflictingJob after excluding invalidate M jobId = M := by
  rw [insertConflictingJob, if_pos]
  by_contra hnot
  push Not at hnot
  refine h ⟨hnot.1, ?_⟩
  rintro a rfl
  rw [← not_le]
  exact fun hle => hnot.2 (decide_eq_true hle)

theorem smallest_insert_owner (h : Smallest ownershipBatchSize M A) (owner : Option Text) :
    Smallest ownershipBatchSize
      (owner.toList.foldl (insertConflictingJob after excluding invalidate) M)
      fun x => A x ∨ owner = some x ∧ Eligible after excluding x := by
  cases owner with
  | none => exact h.congr fun x => by simp
  | some jobId =>
    rw [Option.toList_some, foldl_cons, foldl_nil]
    by_cases hel : Eligible after excluding jobId
    · rw [insertConflictingJob_of_eligible hel]
      refine h.insertCapped.congr fun x => ?_
      rw [Option.some_inj]
      refine or_congr_right ⟨?_, fun hx => hx.1.symm⟩
      rintro rfl
      exact ⟨rfl, hel⟩
    · rw [insertConflictingJob_of_not_eligible hel]
      refine h.congr fun x => ⟨Or.inl, ?_⟩
      rintro (hx | ⟨hx, hx'⟩)
      · exact hx
      · exact absurd (Option.some.inj hx ▸ hx') hel

theorem smallest_insert_query (h : Smallest ownershipBatchSize M A) (candidates : List Text) :
    Smallest ownershipBatchSize
      ((st.queryOwnerJobIds candidates after excluding).foldl
        (insertConflictingJob after excluding invalidate) M)
      fun x => A x ∨ (x ∈ candidates ∧ st.isActiveJob x = true) ∧ Eligible after excluding x := by
  have hids : ∀ x ∈ st.queryOwnerJobIds candidates after excluding,
      Eligible after excluding x := by
    intro x hx
    obtain ⟨-, hp, hafter⟩ := mem_of_mem_page hx
    rw [Bool.and_eq_true, bne_iff_ne] at hp
    exact ⟨hp.2, hafter⟩
  rw [foldl_ext _ (fun M k => insertCapped ownershipBatchSize (· || ·) k invalidate M) M
    fun M x hx => insertConflictingJob_of_eligible (hids x hx)]
  obtain ⟨L, hL, hmem, hasc⟩ := exists_page_eq_take id
    (fun jobId => st.isActiveJob jobId && excluding != some jobId) ownershipBatchSize
    candidates.dedup after
  have hnodup : (candidates.dedup.map id).Nodup := by
    rw [map_id]
    exact nodup_dedup candidates
  rw [queryOwnerJobIds, hL]
  refine (h.insertAll_take (f := (· || ·)) (v := invalidate) (hasc hnodup)).congr fun x =>
    or_congr_right ?_
  rw [hmem, mem_dedup, Bool.and_eq_true, bne_iff_ne, and_assoc, and_assoc]
  rfl

theorem smallest_exactTargets (st : OwnershipState) (exactTargets : List (Text × Option Text))
    (excluding after : Option Text) {M : List (Text × Bool)} {A : Text → Prop}
    (h : Smallest ownershipBatchSize M A) :
    Smallest ownershipBatchSize (exactTargets.foldl
      (fun M target => target.2.toList.foldl (insertConflictingJob after excluding false)
        ((st.prefixOwnerJobsForKey target.1 after excluding).foldl
          (insertConflictingJob after excluding false) M)) M)
      fun x => A x ∨ (∃ target ∈ exactTargets, target.2 = some x ∨
        (∃ c ∈ st.prefixClaims, c.jobId = x ∧ sqlStartsWith target.1 c.pfx = true) ∧
          st.isActiveJob x = true) ∧
          Eligible after excluding x := by
  induction exactTargets generalizing M A with
  | nil => exact h.congr fun x => by simp
  | cons target exactTargets ih =>
    refine (ih (smallest_insert_owner (smallest_insert_query h _) target.2)).congr fun x => ?_
    simp only [exists_mem_cons_iff, mem_claimants]
    generalize (∃ c ∈ st.prefixClaims, c.jobId = x ∧ sqlStartsWith target.1 c.pfx = true) = covered
    generalize (∃ target ∈ exactTargets, _) = rest
    tauto

theorem conflictingJobs_spec (st : OwnershipState) (exactTargets : List (Text × Option Text))
    (mutationPrefix excluding after : Option Text) : ∃ A,
    Smallest ownershipBatchSize (conflictingJobs exactTargets mutationPrefix excluding st after) A ∧
      (∀ x, A x → (st.isActiveJob x = true ∨ ∃ target ∈ exactTargets, target.2 = some x) ∧
        Eligible after excluding x) ∧
      ∀ x, Conflicts exactTargets mutationPrefix st x → st.isActiveJob x = true →
        Eligible after excluding x → A x := by
  have hexact := (smallest_exactTargets st exactTargets excluding after Smallest.empty).congr
    fun x => (false_or _).to_iff
  cases mutationPrefix with
  | none =>
    refine ⟨_, hexact, ?_, ?_⟩
    · rintro x ⟨⟨target, htarget, howner | ⟨-, hact⟩⟩, hel⟩
      · exact ⟨Or.inr ⟨target, htarget, howner⟩, hel⟩
      · exact ⟨Or.inl hact, hel⟩
    · rintro x (⟨target, htarget, howner | hclaim⟩ | ⟨pfx, hpfx, -⟩) hact hel
      · exact ⟨⟨target, htarget, Or.inl howner⟩, hel⟩
      · exact ⟨⟨target, htarget, Or.inr ⟨hclaim, hact⟩⟩, hel⟩
      · cases hpfx
  | some pfx =>
    refine ⟨_, smallest_insert_query (smallest_insert_query hexact _) _, ?_, ?_⟩
    · rintro x ((⟨⟨target, htarget, howner | ⟨-, hact⟩⟩, hel⟩ | ⟨⟨-, hact⟩, hel⟩) |
        ⟨⟨-, hact⟩, hel⟩)
      · exact ⟨Or.inr ⟨target, htarget, howner⟩, hel⟩
      · exact ⟨Or.inl hact, hel⟩
      · exact ⟨Or.inl hact, hel⟩
      · exact ⟨Or.inl hact, hel⟩
    · rintro x (⟨target, htarget, howner | hclaim⟩ | ⟨pfx', hpfx, hclaim | ⟨d, hd, howner, hkey⟩⟩)
        hact hel
      · exact Or.inl (Or.inl ⟨⟨target, htarget, Or.inl howner⟩, hel⟩)
      · exact Or.inl (Or.inl ⟨⟨target, htarget, Or.inr ⟨hclaim, hact⟩⟩, hel⟩)
      · cases hpfx
        exact Or.inl (Or.inr ⟨⟨mem_claimants.mpr hclaim, hact⟩, hel⟩)
      · cases hpfx
        refine Or.inr ⟨⟨mem_filterMap.mpr ⟨d, ?_, howner⟩, hact⟩, hel⟩
        exact mem_filter.mpr ⟨hd, hkey⟩

theorem Conflicts.of_weaker (hw : Weaker st st')
    (h : Conflicts exactTargets mutationPrefix st' jobId) :
    Conflicts exactTargets mutationPrefix st jobId := by
  rcases h with ⟨target, htarget, howner | ⟨c, hc, hclaim⟩⟩ | ⟨pfx, hpfx, ⟨c, hc, hclaim⟩ | hdest⟩
  · exact Or.inl ⟨target, htarget, Or.inl howner⟩
  · exact Or.inl ⟨target, htarget, Or.inr ⟨c, hw.prefixClaims c hc, hclaim⟩⟩
  · exact Or.inr ⟨pfx, hpfx, Or.inl ⟨c, hw.prefixClaims c hc, hclaim⟩⟩
  · obtain ⟨d', hd', howner, hkey⟩ := hdest
    obtain ⟨d, hd, hle⟩ := hw.exists_destination hd'
    exact Or.inr ⟨pfx, hpfx, Or.inr ⟨d, hd, hle.owner_eq howner, hle.key_eq ▸ hkey⟩⟩

theorem supersedeConflict_spec {conflict : Text × Bool} {now : ℤ} (hst : st.Consistent)
    (h : supersedeConflict mutationPrefix now st conflict = .ok st') :
    st'.Consistent ∧ Weaker st st' ∧ st'.isActiveJob conflict.1 = false ∧
      ∀ other, other ≠ conflict.1 → st.isActiveJob other = true →
        st'.isActiveJob other = true := by
  unfold supersedeConflict at h
  split_ifs at h
  · cases mutationPrefix with
    | none => cases h
    | some pfx => exact supersedeJob_spec hst h
  · exact supersedeJob_spec hst h

/-- **No active job is left in conflict**, but for the excluded one. -/
theorem supersedeConflicts_spec {now : ℤ} (hst : st.Consistent)
    (h : st.supersedeConflicts exactTargets mutationPrefix excluding now = .ok st') :
    (st'.Consistent ∧ Weaker st st' ∧
      ∀ x, excluding = some x → st.isActiveJob x = true → st'.isActiveJob x = true) ∧
    ∀ x, Conflicts exactTargets mutationPrefix st' x → st'.isActiveJob x = true →
      excluding = some x := by
  -- every candidate is a job or one of the owners that were read
  let ids := fun st₁ : OwnershipState =>
    st₁.jobs.map ImportJob.id ++ exactTargets.filterMap Prod.snd
  have hfuel : countAfter (ids st) none < st.jobs.length + exactTargets.length + 1 := by
    have hle : countAfter (ids st) none ≤ _ := countAfter_le_length
    have howners : (exactTargets.filterMap Prod.snd).length ≤ exactTargets.length :=
      length_filterMap_le _ _
    rw [length_append, length_map] at hle
    omega
  refine batchLoop_rule
    (I := fun after st₁ => (st₁.Consistent ∧ Weaker st st₁ ∧
      ∀ x, excluding = some x → st.isActiveJob x = true → st₁.isActiveJob x = true) ∧
      ∀ x, Conflicts exactTargets mutationPrefix st₁ x → st₁.isActiveJob x = true →
        excluding ≠ some x → ∀ a, after = some a → a < x)
    (Q := fun st₁ => (st₁.Consistent ∧ Weaker st st₁ ∧
      ∀ x, excluding = some x → st.isActiveJob x = true → st₁.isActiveJob x = true) ∧
      ∀ x, Conflicts exactTargets mutationPrefix st₁ x → st₁.isActiveJob x = true →
        excluding = some x)
    (fun after st₁ => countAfter (ids st₁) after) ?_ ?_ hfuel
    ⟨⟨hst, Weaker.refl st, fun _ _ hact => hact⟩,
      fun _ _ _ _ _ hk => absurd hk (Option.some_ne_none _).symm⟩ h
  · rintro after st₁ ⟨hgood, hafter⟩ hnil
    refine ⟨hgood, fun x hconf hact => ?_⟩
    by_contra hne
    obtain ⟨A, hsmall, -, hall⟩ :=
      conflictingJobs_spec st₁ exactTargets mutationPrefix excluding after
    rw [hnil] at hsmall
    rcases hsmall.least x (hall x hconf hact ⟨hne, hafter x hconf hact hne⟩) with hmem | ⟨hlen, -⟩
    · exact not_mem_nil hmem
    · cases hlen
  · rintro after st₁ st₂ last ⟨⟨hcons, hw, hexcluded⟩, hafter⟩ hlast hbatch
    obtain ⟨A, hsmall, hcand, hall⟩ :=
      conflictingJobs_spec st₁ exactTargets mutationPrefix excluding after
    have hstep : ∀ conflict ∈ conflictingJobs exactTargets mutationPrefix excluding st₁ after,
        ∀ s s', (s.Consistent ∧ Weaker st₁ s ∧
          ∀ x, excluding = some x → st₁.isActiveJob x = true → s.isActiveJob x = true) →
        supersedeConflict mutationPrefix now s conflict = .ok s' →
        (s'.Consistent ∧ Weaker st₁ s' ∧
          ∀ x, excluding = some x → st₁.isActiveJob x = true → s'.isActiveJob x = true) ∧
        s'.isActiveJob conflict.1 = false ∧
          ∀ other : Text × Bool, s.isActiveJob other.1 = false → s'.isActiveJob other.1 = false := by
      intro conflict hconflict s s' ⟨hs, hws, hexs⟩ hsup
      obtain ⟨hcons', hw', hdone, hother⟩ := supersedeConflict_spec hs hsup
      have hel := (hcand conflict.1 (hsmall.of_mem _ (mem_map_of_mem hconflict))).2
      refine ⟨⟨hcons', hws.trans hw', fun x hx hact => ?_⟩, hdone, fun other hinactive => ?_⟩
      · exact hother x (fun heq => hel.1 (heq ▸ hx)) (hexs x hx hact)
      · rw [← Bool.not_eq_true] at hinactive ⊢
        exact fun hact => hinactive (hw'.isActiveJob hact)
    obtain ⟨⟨hcons₂, hw₂, hex₂⟩, hdone⟩ := foldlM_forall
      (D := fun conflict s => s.isActiveJob conflict.1 = false) hstep
      ⟨hcons, Weaker.refl st₁, fun _ _ hact => hact⟩ hbatch
    have hmem := mem_of_getLast? hlast
    refine ⟨⟨⟨hcons₂, hw.trans hw₂, fun x hx hact => hex₂ x hx (hexcluded x hx hact)⟩, ?_⟩, ?_⟩
    · rintro x hconf hact hne a ha
      cases ha
      have hconf₁ := hconf.of_weaker hw₂
      have hact₁ := hw₂.isActiveJob hact
      rcases hsmall.least x (hall x hconf₁ hact₁ ⟨hne, hafter x hconf₁ hact₁ hne⟩) with hx | hx
      · obtain ⟨conflict, hconflict, rfl⟩ := mem_map.mp hx
        exact absurd ((hdone conflict hconflict).symm.trans hact) Bool.false_ne_true
      · exact hx.2 last.1 (mem_map_of_mem hmem)
    · obtain ⟨hsource, hel⟩ := hcand last.1 (hsmall.of_mem _ (mem_map_of_mem hmem))
      have hids : ids st₂ = ids st₁ := congrArg (· ++ _) hw₂.ids_eq
      have hlastmem : last.1 ∈ ids st₁ := by
        rcases hsource with hact | ⟨target, htarget, howner⟩
        · obtain ⟨job, hjob, hid, -⟩ := isActiveJob_iff.mp hact
          exact mem_append_left _ (hid ▸ mem_map_of_mem hjob)
        · exact mem_append_right _ (mem_filterMap.mpr ⟨target, htarget, howner⟩)
      simp only [hids]
      exact countAfter_lt hlastmem hel.2

end ConflictingJobs

/-! ## Tokens -/

theorem destinationLe_tokenCleared (d : Destination) : DestinationLe d (tokenCleared d) :=
  ⟨rfl, le_rfl, Or.inl rfl, Or.inr rfl⟩

section Tokens

variable {exactKeys : List Text} {mutationPrefix : Option Text} {key : Text} {now : ℤ}

/-- The row lost at most its token, where the token overlaps. -/
def TokenInvalidated (keys : List Text) (mutationPrefix : Option Text) (d d' : Destination) : Prop :=
  d' = d ∨ d.mutationId.isSome = true ∧ tokenOverlaps keys mutationPrefix d = true ∧
    d' = tokenCleared d

theorem TokenInvalidated.trans {d d' d'' : Destination}
    (h : TokenInvalidated exactKeys mutationPrefix d d')
    (h' : TokenInvalidated exactKeys mutationPrefix d' d'') :
    TokenInvalidated exactKeys mutationPrefix d d'' := by
  rcases h with rfl | ⟨hsome, hover, rfl⟩
  · exact h'
  · rcases h' with rfl | ⟨hsome', -⟩
    · exact Or.inr ⟨hsome, hover, rfl⟩
    · cases hsome'

theorem TokenInvalidated.fence_eq {d d' : Destination}
    (h : TokenInvalidated exactKeys mutationPrefix d d') :
    d'.key = d.key ∧ d'.generation = d.generation ∧ DestinationLe d d' := by
  rcases h with rfl | ⟨-, -, rfl⟩
  · exact ⟨rfl, rfl, DestinationLe.refl _⟩
  · exact ⟨rfl, rfl, destinationLe_tokenCleared d⟩

/-- Only overlapping tokens were cleared. -/
structure Invalidated (keys : List Text) (mutationPrefix : Option Text) (st st' : OwnershipState) :
    Prop where
  destinations :
    List.Forall₂ (TokenInvalidated keys mutationPrefix) st.destinations st'.destinations
  eq : st' = { st with destinations := st'.destinations }

namespace Invalidated

theorem refl (st : OwnershipState) : Invalidated exactKeys mutationPrefix st st :=
  ⟨forall₂_same.mpr fun _ _ => Or.inl rfl, rfl⟩

theorem trans (h : Invalidated exactKeys mutationPrefix st st')
    (h' : Invalidated exactKeys mutationPrefix st' st'') :
    Invalidated exactKeys mutationPrefix st st'' := by
  refine ⟨forall₂_trans (R := TokenInvalidated exactKeys mutationPrefix) (fun _ _ _ => .trans)
    h.destinations h'.destinations, ?_⟩
  rw [h'.eq, h.eq]

theorem destinationsWeaker (h : Invalidated exactKeys mutationPrefix st st') :
    DestinationsWeaker st st' := ⟨h.destinations.imp fun _ _ hrow => hrow.fence_eq.2.2, h.eq⟩

end Invalidated

theorem invalidateToken_spec {a : Destination}
    (hkeys : (st.destinations.map Destination.key).Nodup) (ha : a ∈ st.destinations)
    (h : invalidateToken exactKeys mutationPrefix st a = .ok st') :
    Invalidated exactKeys mutationPrefix st st' ∧
      Settles Destination.key (fun d => d.mutationId.isSome)
        (fun d => tokenOverlaps exactKeys mutationPrefix d = true) st.destinations st'.destinations
        a := by
  have hrow : ∀ d ∈ st.destinations, d.key = a.key → d = a := fun d hd hkey =>
    inj_on_of_nodup_map hkeys hd ha hkey
  rw [invalidateToken] at h
  split_ifs at h with hover
  · cases h
    refine ⟨Invalidated.refl st, rfl, fun d hd => ?_⟩
    by_cases hkey : d.key = a.key
    · refine Or.inr ⟨hkey, fun _ => ?_⟩
      show ¬tokenOverlaps exactKeys mutationPrefix d = true
      rw [hrow d hd hkey, hover]
      exact Bool.false_ne_true
    · exact Or.inl ⟨hd, hkey⟩
  · cases hid : a.mutationId with
    | none =>
      rw [hid] at h
      cases h
    | some mutationId =>
      rw [hid] at h
      obtain ⟨-, h⟩ := of_ensure h
      cases h
      have hkey : ∀ d : Destination, (d.key == a.key && d.mutationId == some mutationId) = true →
          d.key = a.key := fun d hc => beq_iff_eq.mp (Bool.and_eq_true_iff.mp hc).1
      refine ⟨⟨forall₂_updateWhere (fun _ => Or.inl rfl) fun d hd hc => Or.inr ?_, rfl⟩,
        settles_updateWhere (fun d _ => hkey d) (fun d _ _ => ⟨rfl, ?_⟩) fun d hd hc hkey => ?_⟩
      · rw [hrow d hd (hkey d hc)]
        exact ⟨Option.isSome_of_mem hid, Bool.not_eq_false _ ▸ hover, rfl⟩
      · exact fun hsome => absurd hsome Bool.false_ne_true
      · rw [hrow d hd hkey, hid, BEq.rfl, BEq.rfl] at hc
        exact absurd hc (by decide)

/-- **Invalidation clears only overlapping tokens, and leaves none.** -/
theorem invalidateStandardMutations_spec (hkeys : (st.destinations.map Destination.key).Nodup)
    (h : st.invalidateStandardMutations exactKeys mutationPrefix = .ok st') :
    Invalidated exactKeys mutationPrefix st st' ∧
      ∀ d ∈ st'.destinations, d.mutationId.isSome = true →
        tokenOverlaps exactKeys mutationPrefix d = false := by
  obtain ⟨hinv, -, hnone⟩ := sweep OwnershipState.destinations Invalidated.refl Invalidated.trans
    (fun _ _ _ hkeys ha _ => invalidateToken_spec hkeys ha) (by decide) hkeys h
  exact ⟨hinv, fun d hd htoken => Bool.eq_false_iff.mpr (hnone d hd htoken)⟩

theorem not_covers_of_hasOverlappingStandardPrefixMutation (hst : st.Consistent)
    (h : st.hasOverlappingStandardPrefixMutation key = false) {d : Destination}
    (hd : d ∈ st.destinations) (htoken : d.mutationId.isSome = true) {pfx : Text}
    (hpfx : d.mutationPrefix = some pfx) : ¬pfx <+: key := by
  have hstep : ∀ st₁ a st₂, (st₁.destinations.map Destination.key).Nodup →
      a ∈ st₁.destinations → (a.mutationId.isSome && a.mutationPrefix.isSome) = true →
      prefixMisses key st₁ a = .ok st₂ → st₁ = st₂ ∧ Settles Destination.key
        (fun d => d.mutationId.isSome && d.mutationPrefix.isSome)
        (fun d => d.mutationPrefix.any (fun pfx => key.startsWith pfx) = true)
        st₁.destinations st₂.destinations a := by
    intro st₁ a st₂ hkeys ha _ hmiss
    rw [prefixMisses] at hmiss
    split_ifs at hmiss with hcover
    cases hmiss
    refine ⟨rfl, rfl, fun d hd => ?_⟩
    by_cases hkey : d.key = a.key
    · exact Or.inr ⟨hkey, fun _ => inj_on_of_nodup_map hkeys hd ha hkey ▸ hcover⟩
    · exact Or.inl ⟨hd, hkey⟩
  dsimp only [hasOverlappingStandardPrefixMutation] at h
  split at h
  case h_2 => cases h
  case h_1 st₁ hloop =>
    obtain ⟨rfl, -, hmiss⟩ := sweep OwnershipState.destinations Eq.refl Eq.trans hstep (by decide)
      hst.keys_nodup hloop
    have hnot := hmiss d hd (by rw [htoken, hpfx]; rfl)
    rw [hpfx] at hnot
    exact fun hcover => hnot (Text.startsWith_iff.mpr hcover)

end Tokens

/-! ## Dead generations and expired leases -/

/-- No guard of this generation of the key can be valid: the row has gone on, or has no token. -/
def Dead (st : OwnershipState) (key : Text) (generation : ℤ) : Prop :=
  ∃ d ∈ st.destinations, d.key = key ∧
    (generation < d.generation ∨ d.generation = generation ∧ d.mutationId = none)

theorem exists_advanced {P : Destination → Prop} {key : Text} {generation : ℤ} (hadv : Advances st st')
    (hkept : ∀ d d', RowAdvances d d' → d'.generation = d.generation → P d → P d')
    (h : ∃ d ∈ st.destinations, d.key = key ∧
      (generation < d.generation ∨ d.generation = generation ∧ P d)) :
    ∃ d ∈ st'.destinations, d.key = key ∧
      (generation < d.generation ∨ d.generation = generation ∧ P d) := by
  obtain ⟨d, hd, hkey, hgone⟩ := h
  obtain ⟨d', hd', hrow⟩ := hadv d hd
  have hle := hrow.generation_le
  refine ⟨d', hd', hrow.key_eq.trans hkey, ?_⟩
  rcases hgone with hlt | ⟨heq, hP⟩
  · exact Or.inl (hlt.trans_le hle)
  · rcases hle.eq_or_lt with heq' | hlt
    · exact Or.inr ⟨heq'.symm.trans heq, hkept d d' hrow heq'.symm hP⟩
    · exact Or.inl (heq ▸ hlt)

theorem Dead.advances {key : Text} {generation : ℤ} (h : st.Dead key generation)
    (hadv : Advances st st') : st'.Dead key generation := by
  refine exists_advanced hadv (fun d d' hrow hgen hnone => ?_) h
  refine Option.not_isSome_iff_eq_none.mp fun hsome => ?_
  have htoken := (hrow.token hgen hsome).1
  rw [hnone] at htoken
  exact absurd htoken Bool.false_ne_true

section Leases

variable {guard : StandardMutationGuard} {now : ℤ} {requireActive : Bool}

theorem weaker_clearStandardMutation :
    Weaker st (st.clearStandardMutation guard now requireActive).1 :=
  { Weaker.refl st with
    destinations := forall₂_updateWhere DestinationLe.refl
      fun d _ _ => destinationLe_tokenCleared d
    leases := deleteWhere_sublist }

theorem dead_releaseStandardMutation (hst : st.Consistent) {l : MutationLease} (hl : l ∈ st.leases)
    (hguard : leaseIdentity guard l = true) :
    (st.releaseStandardMutation guard now).1.Dead l.key l.generation := by
  have hadv : Advances st (st.releaseStandardMutation guard now).1 :=
    weaker_clearStandardMutation.advances
  obtain ⟨d, hd, hkey, hgen, hid⟩ := hst.lease_row l hl
  rcases hgen.lt_or_eq with hlt | heq
  · exact Dead.advances ⟨d, hd, hkey, Or.inl hlt⟩ hadv
  · cases htoken : d.mutationId with
    | none => exact Dead.advances ⟨d, hd, hkey, Or.inr ⟨heq.symm, htoken⟩⟩ hadv
    | some mutationId =>
      rw [leaseIdentity, Bool.and_eq_true, Bool.and_eq_true, beq_iff_eq, beq_iff_eq,
        beq_iff_eq] at hguard
      obtain ⟨⟨hgkey, hgid⟩, hggen⟩ := hguard
      have howner := hst.token_unowned d hd (by rw [htoken]; rfl)
      have hmutation := hid heq.symm mutationId htoken
      refine ⟨tokenCleared d, mem_updateWhere.mpr ⟨d, hd, if_pos ?_⟩, hkey,
        Or.inr ⟨heq.symm, rfl⟩⟩
      rw [hkey, ← heq, howner, htoken, hmutation, hgkey, hgid, hggen, BEq.rfl, BEq.rfl, BEq.rfl]
      rfl

theorem leaseIdentity_leaseGuard (l : MutationLease) : leaseIdentity (leaseGuard l) l = true := by
  rw [leaseIdentity, leaseGuard, BEq.rfl, BEq.rfl, BEq.rfl]
  rfl

theorem mem_leases_clearStandardMutation {l : MutationLease} :
    l ∈ (st.clearStandardMutation guard now requireActive).1.leases ↔
      l ∈ st.leases ∧ leaseIdentity guard l = false := mem_deleteWhere

/-- What recovery has reached from `st`. -/
structure Recovers (st st' : OwnershipState) : Prop where
  consistent : st'.Consistent
  weaker : Weaker st st'
  jobs_eq : st'.jobs = st.jobs
  dead : ∀ l ∈ st.leases, l ∈ st'.leases ∨ st'.Dead l.key l.generation

theorem Recovers.release (h : Recovers st st') (l : MutationLease) :
    Recovers st (st'.releaseStandardMutation (leaseGuard l) now).1 := by
  have hw : Weaker st' (st'.releaseStandardMutation (leaseGuard l) now).1 :=
    weaker_clearStandardMutation
  refine ⟨h.consistent.weaken_of_jobs_eq hw rfl, h.weaker.trans hw, h.jobs_eq, fun l' hl' => ?_⟩
  rcases h.dead l' hl' with hmem | hdead
  · cases hid : leaseIdentity (leaseGuard l) l' with
    | false => exact Or.inl (mem_leases_clearStandardMutation.mpr ⟨hmem, hid⟩)
    | true => exact Or.inr (dead_releaseStandardMutation h.consistent hmem hid)
  · exact Or.inr (hdead.advances hw.advances)

/-- **No expired lease is left**, and the generation of every lease that is gone is dead. -/
theorem recoverExpiredMutations_spec (hst : st.Consistent)
    (h : st.recoverExpiredMutations now = .ok st') :
    Recovers st st' ∧ ∀ l ∈ st'.leases, activeLease now l = true := by
  have hfuel : (st.leases.filter fun l => !activeLease now l).length < st.leases.length + 1 :=
    Nat.lt_succ_of_le (length_filter_le _ _)
  refine batchLoop_rule (I := fun _ st₁ => Recovers st st₁)
    (Q := fun st₁ => Recovers st st₁ ∧ ∀ l ∈ st₁.leases, activeLease now l = true)
    (fun _ st₁ => (st₁.leases.filter fun l => !activeLease now l).length) ?_ ?_ hfuel
    ⟨hst, Weaker.refl st, rfl, fun l hl => Or.inl hl⟩ h
  · intro after st₁ hrec hnil
    refine ⟨hrec, fun l hl => ?_⟩
    by_contra hactive
    refine notMem_of_page_eq_nil (by decide) hnil hl ?_ fun k hk => ?_
    · rw [Bool.eq_false_iff.mpr hactive]
      rfl
    · cases hk
  · intro after st₁ st₂ last hrec hlast hbatch
    have hstep : ∀ l ∈ expiredLeases now st₁ after, ∀ (s s' : OwnershipState),
        Recovers st s ∧ s.leases.Sublist st₁.leases →
        Except.ok (s.releaseStandardMutation (leaseGuard l) now).1 = (.ok s' : AppResult _) →
        (Recovers st s' ∧ s'.leases.Sublist st₁.leases) ∧ l ∉ s'.leases ∧
          ∀ l', l' ∉ s.leases → l' ∉ s'.leases := by
      intro l _ s s' hs heq
      cases heq
      have hsub : (s.releaseStandardMutation (leaseGuard l) now).1.leases.Sublist s.leases :=
        deleteWhere_sublist
      refine ⟨⟨hs.1.release l, hsub.trans hs.2⟩, fun hmem => ?_, fun l' hl' hmem => ?_⟩
      · have hid := (mem_leases_clearStandardMutation.mp hmem).2
        exact absurd (hid.symm.trans (leaseIdentity_leaseGuard l)) Bool.false_ne_true
      · exact hl' (hsub.subset hmem)
    obtain ⟨⟨hrec₂, hsub⟩, hgone⟩ := foldlM_forall (D := fun l s => l ∉ s.leases) hstep
      ⟨hrec, List.Sublist.refl _⟩ hbatch
    refine ⟨hrec₂, ?_⟩
    have hmem := mem_of_getLast? hlast
    obtain ⟨hleases, hexpired, -⟩ := mem_of_mem_page hmem
    have hfilter := hsub.filter fun l => !activeLease now l
    refine lt_of_le_of_ne hfilter.length_le fun hlen => hgone last hmem ?_
    have hlastmem : last ∈ st₁.leases.filter fun l => !activeLease now l :=
      mem_filter.mpr ⟨hleases, hexpired⟩
    rw [← hfilter.eq_of_length hlen] at hlastmem
    exact (mem_filter.mp hlastmem).1

end Leases

end OwnershipState
end IpfS3.Ownership
