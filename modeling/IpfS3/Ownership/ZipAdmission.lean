import IpfS3.Ownership.Clearing

/-!
# ZIP outputs and their source

`check_zip_outputs_do_not_revoke_source` reads which jobs and tokens the admission of the outputs
would take away, with queries of its own, and refuses when one of them carries authority over the
source.  `sourceSpared_of_admitContentMutations` says that what it reads is all that the admission
takes: the row of the source, the jobs that touch it and the tokens over it come out as they were.

The admission of a ZIP v2 archive first admits the source itself, which takes the source from whoever
held it.  What that leaves is then spared by the outputs.
-/

namespace IpfS3.Ownership
namespace OwnershipState

open Table Fallible Batches Keyset List

variable {st st' : OwnershipState} {sourceKey key : Text} {keys : List Text} {now : ℤ}

/-! ## What the check reads -/

/-- The admission of a key supersedes its owner and the active claimants over it. -/
def Endangers (st : OwnershipState) (key jobId : Text) : Prop :=
  (st.exactTarget key).2 = some jobId ∨
    (∃ c ∈ st.prefixClaims, c.jobId = jobId ∧ sqlStartsWith key c.pfx = true) ∧
      st.isActiveJob jobId = true

/-- The token is installed on the key, or its prefix covers the key. -/
def tokenCovers (key : Text) (d : Destination) : Bool :=
  d.key == key || d.mutationPrefix.any fun pfx => key.startsWith pfx

theorem foldlM_append (affected ids : List Text) :
    ids.foldlM (fun acc jobId => (.ok (acc ++ [jobId]) : AppResult (List Text))) affected =
      .ok (affected ++ ids) := by
  induction ids generalizing affected with
  | nil => rw [foldlM_nil, append_nil]; rfl
  | cons jobId ids ih => rw [foldlM_cons, ok_bind, ih, append_assoc, singleton_append]

theorem affectedJobs_spec {affected affected' : List Text}
    (h : st.affectedJobs affected key = .ok affected') :
    (∀ jobId ∈ affected, jobId ∈ affected') ∧
      ∀ jobId, st.Endangers key jobId → jobId ∈ affected' := by
  rw [affectedJobs] at h
  let candidates := (st.prefixClaims.filter fun c => sqlStartsWith key c.pfx).map (·.jobId)
  have hfuel : countAfter (st.jobs.map ImportJob.id) none < st.jobs.length + 1 := by
    have hle : countAfter (st.jobs.map ImportJob.id) none ≤ _ := countAfter_le_length
    rw [length_map] at hle
    omega
  have hnodup : (candidates.dedup.map id).Nodup := by
    rw [map_id]
    exact nodup_dedup candidates
  have hselect : ∀ {jobId : Text}, st.isActiveJob jobId = true →
      (st.isActiveJob jobId && (none : Option Text) != some jobId) = true := by
    intro jobId hact
    rw [hact]
    rfl
  have hall : (∀ jobId ∈ affected ++ (st.exactTarget key).2.toList, jobId ∈ affected') ∧
      ∀ jobId ∈ candidates, st.isActiveJob jobId = true → jobId ∈ affected' := by
    refine batchLoop_rule
      (I := fun after (acc : List Text) =>
        (∀ jobId ∈ affected ++ (st.exactTarget key).2.toList, jobId ∈ acc) ∧
          ∀ jobId ∈ candidates, st.isActiveJob jobId = true →
            jobId ∈ acc ∨ ∀ a, after = some a → a < jobId)
      (Q := fun acc : List Text =>
        (∀ jobId ∈ affected ++ (st.exactTarget key).2.toList, jobId ∈ acc) ∧
          ∀ jobId ∈ candidates, st.isActiveJob jobId = true → jobId ∈ acc)
      (fun after _ => countAfter (st.jobs.map ImportJob.id) after) ?_ ?_ hfuel
      ⟨fun _ hjob => hjob, fun _ _ _ => Or.inr fun a ha => by cases ha⟩ h
    · rintro after acc ⟨hkept, hclaimants⟩ hnil
      refine ⟨hkept, fun jobId hjob hact => ?_⟩
      refine (hclaimants jobId hjob hact).resolve_right fun hafter => ?_
      exact notMem_of_page_eq_nil (by decide) hnil (mem_dedup.mpr hjob) (hselect hact) hafter
    · rintro after acc acc' last ⟨hkept, hclaimants⟩ hlast hbatch
      rw [foldlM_append] at hbatch
      cases hbatch
      refine ⟨⟨fun jobId hjob => mem_append_left _ (hkept jobId hjob), ?_⟩, ?_⟩
      · intro jobId hjob hact
        rcases hclaimants jobId hjob hact with hold | hafter
        · exact Or.inl (mem_append_left _ hold)
        · by_cases hpage : jobId ∈ st.prefixOwnerJobsForKey key after none
          · exact Or.inl (mem_append_right _ hpage)
          · refine Or.inr fun a ha => ?_
            cases ha
            exact lt_of_notMem_page hnodup hlast (mem_dedup.mpr hjob) (hselect hact) hafter
              hpage
      · obtain ⟨-, hp, hafter⟩ := mem_of_mem_page (mem_of_getLast? hlast)
        obtain ⟨job, hjob, hid, -⟩ := isActiveJob_iff.mp (Bool.and_eq_true_iff.mp hp).1
        exact countAfter_lt (mem_map.mpr ⟨job, hjob, hid⟩) hafter
  refine ⟨fun jobId hjob => hall.1 jobId (mem_append_left _ hjob), fun jobId hjob => ?_⟩
  rcases hjob with howner | ⟨⟨c, hc, hid, hpfx⟩, hact⟩
  · exact hall.1 jobId (mem_append_right _ (Option.mem_toList.mpr howner))
  · exact hall.2 jobId (mem_claimants.mpr ⟨c, hc, hid, hpfx⟩) hact

theorem mem_affected {affected affected' : List Text}
    (h : keys.foldlM st.affectedJobs affected = .ok affected') :
    (∀ jobId ∈ affected, jobId ∈ affected') ∧
      ∀ key ∈ keys, ∀ jobId, st.Endangers key jobId → jobId ∈ affected' := by
  induction keys generalizing affected with
  | nil =>
    cases h
    exact ⟨fun _ hjob => hjob, fun key hkey => absurd hkey not_mem_nil⟩
  | cons k keys ih =>
    obtain ⟨affected₁, hk, h⟩ := of_bind h
    obtain ⟨hkept₁, hk⟩ := affectedJobs_spec hk
    obtain ⟨hkept, hkeys⟩ := ih h
    refine ⟨fun jobId hjob => hkept jobId (hkept₁ jobId hjob), fun key hkey jobId hjob => ?_⟩
    rcases mem_cons.mp hkey with rfl | hkey
    · exact hkept jobId (hk jobId hjob)
    · exact hkeys key hkey jobId hjob

/-- **What the check rules out**: an endangered job that touches the source, and an overlapping token
that covers it. -/
theorem checkZipOutputsDoNotRevokeSource_spec
    (hkeys : (st.destinations.map Destination.key).Nodup)
    (h : st.checkZipOutputsDoNotRevokeSource sourceKey keys = .ok ()) :
    (∀ key ∈ keys, ∀ jobId, st.Endangers key jobId → st.jobTouchesSource sourceKey jobId = false) ∧
      ∀ d ∈ st.destinations, d.mutationId.isSome = true →
        ¬(tokenOverlaps keys none d = true ∧ tokenCovers sourceKey d = true) := by
  obtain ⟨affected, haffected, h⟩ := of_bind h
  obtain ⟨hjobs, h⟩ := of_ensure h
  obtain ⟨st₁, hloop, -⟩ := of_bind h
  refine ⟨fun key hkey jobId hjob => hjobs jobId ?_, ?_⟩
  · exact (mem_sortBy id).mpr (mem_dedup.mpr ((mem_affected haffected).2 key hkey jobId hjob))
  · -- the loop writes nothing, so every active token is read in the one state
    have hstep : ∀ s₁ a s₂, (s₁.destinations.map Destination.key).Nodup →
        a ∈ s₁.destinations → a.mutationId.isSome = true →
        tokenSparesSource sourceKey keys s₁ a = .ok s₂ → s₁ = s₂ ∧
          Settles Destination.key (fun d => d.mutationId.isSome)
            (fun d => tokenOverlaps keys none d = true ∧ tokenCovers sourceKey d = true)
            s₁.destinations s₂.destinations a := by
      intro s₁ a s₂ hnodup ha _ hspare
      obtain ⟨hspared, hspare⟩ := of_ensure hspare
      cases hspare
      refine ⟨rfl, rfl, fun d hd => ?_⟩
      by_cases hkey : d.key = a.key
      · refine Or.inr ⟨hkey, fun _ ⟨hover, hcover⟩ => hspared ?_⟩
        obtain rfl := inj_on_of_nodup_map hnodup hd ha hkey
        rw [tokenOverlaps, Option.any_none, Bool.or_false] at hover
        rw [tokenCovers, Bool.or_eq_true, beq_iff_eq] at hcover
        simp only [Bool.beq_comm (a := d.key)] at hover
        exact ⟨hover, hcover⟩
      · exact Or.inl ⟨hd, hkey⟩
    obtain ⟨rfl, -, hspared⟩ := sweep OwnershipState.destinations Eq.refl Eq.trans hstep (by decide)
      hkeys hloop
    exact hspared

/-! ## What the outputs leave -/

/-- The source comes out as it was: its row, the jobs that touch it with their claims and targets,
and the tokens over it. -/
structure SourceSpared (sourceKey : Text) (st st' : OwnershipState) : Prop where
  destination : st'.findDestination sourceKey = st.findDestination sourceKey
  active : ∀ jobId, st.jobTouchesSource sourceKey jobId = true →
    st'.isActiveJob jobId = st.isActiveJob jobId
  jobs : ∀ jobId, st.jobTouchesSource sourceKey jobId = true →
    st'.jobs.filter (fun j => j.id == jobId) = st.jobs.filter fun j => j.id == jobId
  prefixClaims : ∀ jobId, st.jobTouchesSource sourceKey jobId = true →
    st'.prefixClaims.filter (fun c => c.jobId == jobId) =
      st.prefixClaims.filter fun c => c.jobId == jobId
  targets : ∀ jobId, st.jobTouchesSource sourceKey jobId = true →
    st'.targets.filter (fun t => t.jobId == jobId) = st.targets.filter fun t => t.jobId == jobId
  tokens : ∀ d ∈ st.destinations, d.mutationId.isSome = true → tokenCovers sourceKey d = true →
    ∃ d' ∈ st'.destinations, d'.key = d.key ∧ d'.generation = d.generation ∧
      d'.mutationId = d.mutationId ∧ d'.mutationPrefix = d.mutationPrefix

variable {guards : List StandardMutationGuard} {mutationIds : List (Text × Text)}

theorem frames_of_admitContentMutations {excluding : Option Text} (lost : Text → Prop)
    (hkeys : (st.destinations.map Destination.key).Nodup)
    (hlost : ∀ key ∈ keys, ∀ jobId, st.Endangers key jobId → lost jobId)
    (h : st.admitContentMutations keys mutationIds excluding now = .ok (st', guards)) :
    ∃ st₁ st₂, Released lost st st₁ ∧ Invalidated keys none st₁ st₂ ∧ Admitted keys st₂ st' := by
  obtain ⟨st₁, hsup, h⟩ := of_bind h
  obtain ⟨st₂, hinv, h⟩ := of_bind h
  have hreleased : Released lost st st₁ := by
    refine released_of_supersedeConflicts (fun jobId target htarget hcause => ?_) hsup
    obtain ⟨key, hkey, rfl⟩ := mem_map.mp htarget
    exact hlost key hkey jobId hcause
  have hkeys₁ := hreleased.keys_eq ▸ hkeys
  obtain ⟨hinvalidated, -⟩ := invalidateStandardMutations_spec hkeys₁ hinv
  exact ⟨st₁, st₂, hreleased, hinvalidated,
    admitted_of_admitKeys (hinvalidated.destinationsWeaker.weaker.keys_eq ▸ hkeys₁) h⟩

theorem keys_nodup_of_admitContentMutations {excluding : Option Text}
    (hkeys : (st.destinations.map Destination.key).Nodup)
    (h : st.admitContentMutations keys mutationIds excluding now = .ok (st', guards)) :
    (st'.destinations.map Destination.key).Nodup := by
  obtain ⟨st₁, st₂, hreleased, hinvalidated, hadmitted⟩ :=
    frames_of_admitContentMutations (fun _ => True) hkeys (fun _ _ _ _ => trivial) h
  refine hadmitted.keys_nodup ?_
  rw [hinvalidated.destinationsWeaker.weaker.keys_eq, hreleased.keys_eq]
  exact hkeys

theorem tokenOverlaps_of_mem {d : Destination} (h : d.key ∈ keys) :
    tokenOverlaps keys none d = true := by
  rw [tokenOverlaps, Option.any_none, Bool.or_false, any_eq_true]
  exact ⟨d.key, h, by rw [BEq.rfl, Bool.true_or]⟩

theorem findDestination_of_released {st₁ : OwnershipState}
    (h : Released (fun jobId => st.jobTouchesSource sourceKey jobId = false) st st₁) :
    st₁.findDestination sourceKey = st.findDestination sourceKey := by
  rcases find?_of_forall₂ (p := fun d => d.key == sourceKey) (q := fun d => d.key == sourceKey)
    h.destinations (fun d d' hrow => by rw [hrow.token_eq.1]) with ⟨hnone, hnone'⟩ | hrows
  · exact hnone'.trans hnone.symm
  · obtain ⟨d, d', hd, hd', hrow⟩ := hrows
    refine hd'.trans (Eq.trans (congrArg some ?_) hd.symm)
    rcases hrow with heq | ⟨jobId, hlost, howner, -⟩
    · exact heq
    · -- the owner of the source touches it
      have htarget : (st.exactTarget sourceKey).2 = some jobId :=
        Option.bind_eq_some_iff.mpr ⟨d, hd, howner⟩
      rw [jobTouchesSource, htarget, BEq.rfl] at hlost
      cases hlost

theorem findDestination_of_invalidated {st₁ st₂ : OwnershipState}
    (h : Invalidated keys none st₁ st₂)
    (htoken : ∀ d ∈ st₁.destinations, d.mutationId.isSome = true →
      ¬(tokenOverlaps keys none d = true ∧ tokenCovers sourceKey d = true)) :
    st₂.findDestination sourceKey = st₁.findDestination sourceKey := by
  rcases find?_of_forall₂ (p := fun d => d.key == sourceKey) (q := fun d => d.key == sourceKey)
    h.destinations (fun d d' hrow => by rw [hrow.fence_eq.1]) with ⟨hnone, hnone'⟩ | hrows
  · exact hnone'.trans hnone.symm
  · obtain ⟨d, d', hd, hd', hrow⟩ := hrows
    refine hd'.trans (Eq.trans (congrArg some ?_) hd.symm)
    rcases hrow with heq | ⟨hsome, hover, -⟩
    · exact heq
    · have hcover : tokenCovers sourceKey d = true := by
        rw [tokenCovers, find?_some hd, Bool.true_or]
      exact absurd ⟨hover, hcover⟩ (htoken d (mem_of_find?_eq_some hd) hsome)

/-- **The check is enough**: after it an admission of the outputs spares the source. -/
theorem sourceSpared_of_admitContentMutations
    (hkeys : (st.destinations.map Destination.key).Nodup) (hsource : sourceKey ∉ keys)
    (hcheck : st.checkZipOutputsDoNotRevokeSource sourceKey keys = .ok ())
    (h : st.admitContentMutations keys mutationIds none now = .ok (st', guards)) :
    SourceSpared sourceKey st st' := by
  obtain ⟨hjobs, htokens⟩ := checkZipOutputsDoNotRevokeSource_spec hkeys hcheck
  obtain ⟨st₁, st₂, hreleased, hinvalidated, hadmitted⟩ :=
    frames_of_admitContentMutations _ hkeys hjobs h
  -- a released row has the token of the row before it
  have htokens₁ : ∀ d ∈ st₁.destinations, d.mutationId.isSome = true →
      ¬(tokenOverlaps keys none d = true ∧ tokenCovers sourceKey d = true) := by
    intro d₁ hd₁ hsome
    obtain ⟨d, hd, hrow⟩ := exists_of_forall₂ hreleased.destinations hd₁
    obtain ⟨hkey, -, hid, hpfx⟩ := hrow.token_eq
    rw [tokenOverlaps, tokenCovers, hkey, hpfx]
    exact htokens d hd (hid ▸ hsome)
  have htouches : ∀ {jobId : Text}, st.jobTouchesSource sourceKey jobId = true →
      ¬st.jobTouchesSource sourceKey jobId = false := fun ht hf => by
    rw [ht] at hf
    cases hf
  have heq := hinvalidated.eq
  have hjobs' : ∀ jobId, st.jobTouchesSource sourceKey jobId = true →
      st'.jobs.filter (fun j => j.id == jobId) = st.jobs.filter fun j => j.id == jobId := by
    intro jobId ht
    rw [hadmitted.jobs_eq, heq]
    exact hreleased.jobs jobId (htouches ht)
  refine ⟨?_, fun jobId ht => ?_, hjobs', fun jobId ht => ?_, fun jobId ht => ?_, ?_⟩
  · rw [hadmitted.find_eq sourceKey hsource, findDestination_of_invalidated hinvalidated htokens₁,
      findDestination_of_released hreleased]
  · rw [isActiveJob, isActiveJob, ← any_filter, ← any_filter, hjobs' jobId ht]
  · rw [hadmitted.prefixClaims_eq, heq]
    exact hreleased.prefixClaims jobId (htouches ht)
  · rw [hadmitted.targets_eq, heq]
    exact hreleased.targets jobId (htouches ht)
  · intro d hd hsome hcover
    obtain ⟨d₁, hd₁, hrow⟩ := exists_of_forall₂ hreleased.destinations.flip hd
    obtain ⟨hkey, hgen, hid, hpfx⟩ := OwnerReleased.token_eq hrow
    obtain ⟨d₂, hd₂, hrow₂⟩ := exists_of_forall₂ hinvalidated.destinations.flip hd₁
    have hcover₁ : tokenCovers sourceKey d₁ = true := by
      rw [tokenCovers, hkey, hpfx]
      exact hcover
    have hsome₁ : d₁.mutationId.isSome = true := hid.symm ▸ hsome
    rcases hrow₂ with rfl | ⟨-, hover, -⟩
    · refine ⟨d₂, hadmitted.kept d₂ hd₂ fun hmem => ?_, hkey, hgen, hid, hpfx⟩
      exact htokens₁ d₂ hd₁ hsome₁ ⟨tokenOverlaps_of_mem hmem, hcover₁⟩
    · exact absurd ⟨hover, hcover₁⟩ (htokens₁ d₁ hd₁ hsome₁)

/-! ## Refusals -/

/-- The error of a request that is refused before anything is written. -/
def RefusesOutputs (st : OwnershipState) (sourceKey : Text) (keys : List Text)
    (mutationIds : List (Text × Text)) (e : AppError) : Prop :=
  e = .staleContentMutation ∧ ¬(sourceKey ∉ keys ∧ keys.length = mutationIds.length ∧
      ∀ key ∈ keys, (mutationIds.lookup key).any (fun mutationId => !mutationId.isEmpty) = true) ∨
    st.checkZipOutputsDoNotRevokeSource sourceKey keys = .error e

theorem admitZipOutputsWithoutSource_error {e : AppError} (hst : st.Consistent)
    (h : st.admitZipOutputsWithoutSource sourceKey keys mutationIds now = .error e) :
    st.RefusesOutputs sourceKey keys mutationIds e ∨
      e = .internal "import destination generation exhausted" := by
  rw [admitZipOutputsWithoutSource] at h
  by_cases hpre : sourceKey ∉ keys ∧ keys.length = mutationIds.length ∧
      ∀ key ∈ keys, (mutationIds.lookup key).any (fun mutationId => !mutationId.isEmpty) = true
  · rw [ensure_of hpre, ok_bind] at h
    cases hcheck : st.checkZipOutputsDoNotRevokeSource sourceKey keys with
    | error e' =>
      rw [hcheck] at h
      obtain rfl := Except.error.inj h
      exact Or.inl (Or.inr hcheck)
    | ok =>
      rw [hcheck, ok_bind] at h
      refine Or.inr (admitContentMutations_error hst (fun key hkey => ?_) h)
      cases hid : mutationIds.lookup key with
      | none => simpa [hid] using hpre.2.2 key hkey
      | some mutationId => rfl
  · rw [ensure_of_not hpre] at h
    obtain rfl := Except.error.inj h
    exact Or.inl (Or.inl ⟨rfl, hpre⟩)

/-- **ZIP outputs never revoke their source**: what a successful admission leaves of the source is
what it found, alone or after the admission of the source itself; and a failing one was refused
before it wrote, or met an exhausted generation. -/
theorem zipOutputs_spare_source (sourceKey : Text) (keys : List Text)
    (mutationIds : List (Text × Text)) (now : ℤ)
    (hkeys : (st.destinations.map Destination.key).Nodup) :
    (∀ st' guards, st.admitZipOutputsWithoutSource sourceKey keys mutationIds now =
      .ok (st', guards) → SourceSpared sourceKey st st') ∧
    (∀ mutationId sourceNow st₁ sourceGuards,
      st.admitZipV2Source sourceKey keys mutationId sourceNow = .ok (st₁, sourceGuards) →
      ∀ st' guards, st₁.admitZipOutputsWithoutSource sourceKey keys mutationIds now =
        .ok (st', guards) → SourceSpared sourceKey st₁ st') ∧
    (st.Consistent → ∀ e,
      st.admitZipOutputsWithoutSource sourceKey keys mutationIds now = .error e →
      st.RefusesOutputs sourceKey keys mutationIds e ∨
        e = .internal "import destination generation exhausted") := by
  have hspared : ∀ s s' guards, (s.destinations.map Destination.key).Nodup →
      s.admitZipOutputsWithoutSource sourceKey keys mutationIds now = .ok (s', guards) →
        SourceSpared sourceKey s s' := by
    intro s s' guards hs h
    obtain ⟨hpre, h⟩ := of_ensure h
    obtain ⟨⟨⟩, hcheck, h⟩ := of_bind h
    exact sourceSpared_of_admitContentMutations hs hpre.1 hcheck h
  refine ⟨fun st' guards h => hspared st st' guards hkeys h, ?_,
    fun hst e h => admitZipOutputsWithoutSource_error hst h⟩
  intro mutationId sourceNow st₁ sourceGuards hadmit st' guards h
  obtain ⟨-, hadmit⟩ := of_ensure hadmit
  obtain ⟨⟨⟩, -, hadmit⟩ := of_bind hadmit
  exact hspared st₁ st' guards (keys_nodup_of_admitContentMutations hkeys hadmit) h

/-- The source `s` is owned by one job, the output `o` by another; a token covers `s`. -/
def zipBucket (outputGeneration : ℤ) : OwnershipState where
  destinations := [⟨[115], 4, some [1], none, none⟩, ⟨[111], outputGeneration, some [2], none, none⟩,
    ⟨[116], 1, none, some [7], some [115]⟩]
  jobs := [⟨[1], [115], [], none, none, .queued, 0, 0, none, none, 0, none⟩,
    ⟨[2], [111], [], none, none, .queued, 0, 0, none, none, 0, none⟩]
  prefixClaims := []
  targets := []
  leases := []

theorem zipOutputs_spare_source_zipBucket :
    (((zipBucket 6).admitZipOutputsWithoutSource [115] [[111]] [([111], [9])] 0).map
      fun result => (result.1.isActiveJob [1], result.1.isActiveJob [2])) = .ok (true, false) ∧
    (∀ st' guards, (zipBucket 6).admitZipOutputsWithoutSource [115] [[111]] [([111], [9])] 0 =
      .ok (st', guards) → SourceSpared [115] (zipBucket 6) st') :=
  ⟨by decide +kernel,
    (zipOutputs_spare_source [115] [[111]] [([111], [9])] 0 (by decide +kernel)).1⟩

/-- An exhausted output generation is met after the owner of the output was superseded; and the
admission of a ZIP v2 source supersedes the owner of the source and replaces its generation. -/
theorem zipOutputs_fail_after_superseding :
    (((zipBucket (2 ^ 63 - 1)).checkZipOutputsDoNotRevokeSource [115] [[111]] = .ok () ∧
      (((zipBucket (2 ^ 63 - 1)).supersedeConflicts [([111], some [2])] none none 0).map
        fun st => st.isActiveJob [2]) = .ok false ∧
      (zipBucket (2 ^ 63 - 1)).isActiveJob [2] = true ∧
      (zipBucket (2 ^ 63 - 1)).admitZipOutputsWithoutSource [115] [[111]] [([111], [9])] 0 =
        .error (.internal "import destination generation exhausted"))) ∧
    (do
      let (st, _) ← (zipBucket 6).admitZipV2Source [115] [[111]] [8] 0
      let (st, _) ← st.admitZipOutputsWithoutSource [115] [[111]] [([111], [9])] 0
      .ok ((zipBucket 6).isActiveJob [1], st.isActiveJob [1],
        (st.findDestination [115]).map Destination.generation)) = .ok (true, false, some 5) := by
  decide +kernel

end OwnershipState
end IpfS3.Ownership
