import IpfS3.Text

/-!
# The fair plan of a batch of claims

`store/pinning/jobs.rs`: `select_fair_candidates` takes the next job from the queue of the provider with
the least occupancy, until the batch is full or the queues are empty.  `Fair` is the invariant of the
loop: what has been selected is the beginning of every queue, and no provider with a job left is more
than one job behind another one that was served.
-/

namespace IpfS3.Pinning

open List

/-- `pin_job::Model`, as far as the plan reads it. -/
structure PinJob where
  id : Text
  provider : Text
  deriving DecidableEq

structure RankedClaimCandidate where
  fairRank : ℕ
  candidate : PinJob

inductive EffectiveServiceTicket where
  | existing (ticket : ℕ)
  | selected (rank : ℕ)

def EffectiveServiceTicket.order : EffectiveServiceTicket → ℕ ×ₗ ℕ
  | .existing ticket => toLex (0, ticket)
  | .selected rank => toLex (1, rank)

structure WorkerClaimSchedule where
  inFlightByProvider : Text → Option ℕ
  lastServedTicketByProvider : Text → Option ℕ
  configuredPriorities : Text → Option ℕ

/-- A `BTreeMap` of the queues. -/
abbrev Queues := List (Text × List PinJob)

structure FairPlan where
  candidatesByProvider : Queues
  selectedByProvider : Text → ℕ
  effectiveService : Text → Option EffectiveServiceTicket
  selected : List RankedClaimCandidate

def queueOf : Queues → Text → List PinJob
  | [], _ => []
  | (name, queue) :: queues, provider => if name = provider then queue else queueOf queues provider

/-- The front of a queue is popped, and a queue that is empty then is removed. -/
def popFront (provider : Text) : Queues → Queues
  | [] => []
  | (name, queue) :: queues =>
    if name = provider then
      if queue.tail = [] then queues else (name, queue.tail) :: queues
    else (name, queue) :: popFront provider queues

/-- `usize::MAX`. -/
def usizeMax : ℕ := 2 ^ 64 - 1

section

variable (schedule : WorkerClaimSchedule)

/-- The jobs of a provider that are in flight. -/
def WorkerClaimSchedule.inFlight (provider : Text) : ℕ := (schedule.inFlightByProvider provider).getD 0

def effectiveProviderOccupancy (plan : FairPlan) (provider : Text) : ℕ :=
  min usizeMax (schedule.inFlight provider + plan.selectedByProvider provider)

def FairPlan.order (plan : FairPlan) (provider : Text) : ℕ ×ₗ (ℕ ×ₗ ℕ) ×ₗ ℕ ×ₗ Text :=
  toLex (effectiveProviderOccupancy schedule plan provider,
    toLex (((plan.effectiveService provider).getD (.existing 0)).order,
      toLex ((schedule.configuredPriorities provider).getD (2 ^ 32 - 1), provider)))

/-- A job at the front of its queue is selected. -/
def FairPlan.push (plan : FairPlan) (provider : Text) (candidate : PinJob) : FairPlan where
  candidatesByProvider := popFront provider plan.candidatesByProvider
  selectedByProvider := Function.update plan.selectedByProvider provider
    (plan.selectedByProvider provider + 1)
  effectiveService := Function.update plan.effectiveService provider
    (some (.selected plan.selected.length))
  selected := plan.selected ++ [⟨plan.selected.length, candidate⟩]

def FairPlan.serve (plan : FairPlan) (provider : Text) : FairPlan :=
  match queueOf plan.candidatesByProvider provider with
  | [] => { plan with candidatesByProvider := popFront provider plan.candidatesByProvider }
  | candidate :: _ => plan.push provider candidate

/-- One round of the loop, unless it is over. -/
def FairPlan.next (capacity : ℕ) (plan : FairPlan) : Option FairPlan :=
  if plan.selected.length < capacity then
    ((plan.candidatesByProvider.map Prod.fst).argmin (plan.order schedule)).map plan.serve
  else none

def FairPlan.rounds (capacity : ℕ) : ℕ → FairPlan → FairPlan
  | 0, plan => plan
  | n + 1, plan =>
    match plan.next schedule capacity with
    | none => plan
    | some plan => plan.rounds capacity n

/-- The rounds that the queues allow: one for each job, and one for each queue. -/
def roundsLeft (queues : Queues) : ℕ := (queues.map fun queue => queue.2.length + 1).sum

def FairPlan.start (candidatesByProvider : Queues) : FairPlan where
  candidatesByProvider := candidatesByProvider
  selectedByProvider _ := 0
  effectiveService provider := (schedule.lastServedTicketByProvider provider).map .existing
  selected := []

def selectFairCandidates (candidatesByProvider : Queues) (capacity : ℕ) :
    List RankedClaimCandidate :=
  ((FairPlan.start schedule candidatesByProvider).rounds schedule capacity
    (roundsLeft candidatesByProvider)).selected

end

/-! ## Popping -/

def totalQueued (queues : Queues) : ℕ := (queues.map fun queue => queue.2.length).sum

section

variable {queues : Queues} {provider name : Text}

theorem queueOf_eq_nil (h : provider ∉ queues.map Prod.fst) : queueOf queues provider = [] := by
  induction queues with
  | nil => rfl
  | cons queue queues ih =>
    rw [map_cons, mem_cons, not_or] at h
    rw [queueOf, if_neg (Ne.symm h.1), ih h.2]

theorem popFront_sublist (provider : Text) (queues : Queues) :
    ((popFront provider queues).map Prod.fst).Sublist (queues.map Prod.fst) := by
  induction queues with
  | nil => exact List.Sublist.slnil
  | cons queue queues ih =>
    rw [popFront]
    split_ifs
    · exact sublist_cons_self _ _
    · exact List.Sublist.refl _
    · exact ih.cons_cons _

theorem queueOf_popFront (hnodup : (queues.map Prod.fst).Nodup) (name : Text) :
    queueOf (popFront provider queues) name =
      if name = provider then (queueOf queues provider).tail else queueOf queues name := by
  induction queues with
  | nil => simp [popFront, queueOf]
  | cons queue queues ih =>
    obtain ⟨first, jobs⟩ := queue
    rw [map_cons, nodup_cons] at hnodup
    rw [popFront, queueOf, queueOf]
    by_cases hfirst : first = provider
    · obtain rfl := hfirst
      rw [if_pos rfl, if_pos rfl]
      by_cases hname : name = first
      · -- the queue that is popped: it is dropped when it is then empty
        rw [if_pos hname, hname]
        split_ifs with htail
        · rw [htail, queueOf_eq_nil hnodup.1]
        · exact if_pos rfl
      · rw [if_neg hname, if_neg (Ne.symm hname)]
        split_ifs
        · rfl
        · exact if_neg (Ne.symm hname)
    · rw [if_neg hfirst, if_neg hfirst, queueOf]
      by_cases hname : first = name
      · rw [if_pos hname, if_neg (hname ▸ hfirst), if_pos hname]
      · rw [if_neg hname, ih hnodup.2, if_neg hname]

theorem totalQueued_popFront (provider : Text) (queues : Queues) :
    totalQueued (popFront provider queues) + (if queueOf queues provider = [] then 0 else 1) =
      totalQueued queues := by
  induction queues with
  | nil => rfl
  | cons queue queues ih =>
    obtain ⟨name, queue⟩ := queue
    rw [popFront, queueOf]
    by_cases hname : name = provider
    · rw [if_pos hname, if_pos hname]
      rcases queue with _ | ⟨job, _ | _⟩ <;> simp [totalQueued, Nat.add_comm, Nat.add_assoc]
    · rw [if_neg hname, if_neg hname]
      simp only [totalQueued, map_cons, sum_cons] at ih ⊢
      omega

theorem roundsLeft_popFront (h : provider ∈ queues.map Prod.fst) :
    roundsLeft (popFront provider queues) < roundsLeft queues := by
  induction queues with
  | nil => cases h
  | cons queue queues ih =>
    rw [map_cons, mem_cons] at h
    rw [popFront]
    split_ifs with hname htail
    · simp [roundsLeft]
    · rcases hqueue : queue.2 with _ | _ <;> simp_all [roundsLeft]
    · simpa [roundsLeft] using ih (h.resolve_left (Ne.symm hname))

end

/-! ## The loop -/

/-- The jobs of a provider, among others. -/
def taken (provider : Text) (jobs : List PinJob) : List PinJob :=
  jobs.filter fun job => job.provider = provider

/-- The occupancy of a provider, once it has taken its share of the jobs. -/
def WorkerClaimSchedule.occupancy (schedule : WorkerClaimSchedule) (jobs : List PinJob)
    (provider : Text) : ℕ :=
  schedule.inFlight provider + (taken provider jobs).length

def FairPlan.jobs (plan : FairPlan) : List PinJob := plan.selected.map RankedClaimCandidate.candidate

variable {schedule : WorkerClaimSchedule} {capacity : ℕ} {queues : Queues} {plan : FairPlan}
  {provider : Text}

/-- Of the providers that have a job left and are as occupied, a job goes to one that has had none
before it goes to one that has. -/
def FirstServed (schedule : WorkerClaimSchedule) (queues : Queues) (before : List PinJob)
    (job : PinJob) : Prop :=
  ∀ provider, (taken provider before).length < (queueOf queues provider).length →
    schedule.occupancy before provider = schedule.occupancy before job.provider →
    taken job.provider before ≠ [] → taken provider before ≠ []

/-- **The invariant of the loop.** -/
structure Fair (schedule : WorkerClaimSchedule) (capacity : ℕ) (queues : Queues) (plan : FairPlan) :
    Prop where
  nodup : (plan.candidatesByProvider.map Prod.fst).Nodup
  split : ∀ p, queueOf queues p = taken p plan.jobs ++ queueOf plan.candidatesByProvider p
  total : totalQueued queues = plan.selected.length + totalQueued plan.candidatesByProvider
  ranks : plan.selected.map RankedClaimCandidate.fairRank = range plan.selected.length
  le_capacity : plan.selected.length ≤ capacity
  count : ∀ p, plan.selectedByProvider p = (taken p plan.jobs).length
  ticket : ∀ p, (ofLex ((plan.effectiveService p).getD (.existing 0)).order).1 =
    if taken p plan.jobs = [] then 0 else 1
  balanced : ∀ p r, taken r plan.jobs ≠ [] → queueOf plan.candidatesByProvider p ≠ [] →
    schedule.occupancy plan.jobs r ≤ schedule.occupancy plan.jobs p + 1
  first : ∀ before job after, plan.jobs = before ++ job :: after →
    FirstServed schedule queues before job

theorem taken_append_singleton (p : Text) (jobs : List PinJob) (job : PinJob) :
    taken p (jobs ++ [job]) = taken p jobs ++ if p = job.provider then [job] else [] := by
  rw [taken, filter_append]
  by_cases h : p = job.provider <;> simp [taken, h, eq_comm]

theorem mem_keys_of_queueOf (h : queueOf queues provider ≠ []) : provider ∈ queues.map Prod.fst := by
  by_contra hnot
  exact h (queueOf_eq_nil hnot)

section

variable (hproviders : ∀ p, ∀ job ∈ queueOf queues p, job.provider = p)
  (hsaturation : ∀ p, schedule.inFlight p + (queueOf queues p).length ≤ usizeMax)

include hsaturation in
theorem Fair.least (h : Fair schedule capacity queues plan) {p : Text}
    (hle : plan.order schedule provider ≤ plan.order schedule p) :
    schedule.occupancy plan.jobs provider ≤ schedule.occupancy plan.jobs p ∧
      (schedule.occupancy plan.jobs p = schedule.occupancy plan.jobs provider →
        taken provider plan.jobs ≠ [] → taken p plan.jobs ≠ []) := by
  have hoccupancy (p : Text) :
      effectiveProviderOccupancy schedule plan p = schedule.occupancy plan.jobs p := by
    have hle := hsaturation p
    rw [h.split p, length_append] at hle
    rw [effectiveProviderOccupancy, h.count, WorkerClaimSchedule.occupancy]
    omega
  have hticket := h.ticket provider
  have hticket' := h.ticket p
  rw [FairPlan.order, FairPlan.order, Prod.Lex.toLex_le_toLex, hoccupancy, hoccupancy] at hle
  rcases hle with hlt | ⟨heq, hle⟩
  · exact ⟨hlt.le, fun heq => absurd heq.symm hlt.ne⟩
  · refine ⟨heq.le, fun _ hserved hnot => ?_⟩
    rw [if_neg hserved] at hticket
    rw [if_pos hnot] at hticket'
    have htickets := Prod.Lex.monotone_fst_ofLex (Prod.Lex.monotone_fst_ofLex hle)
    dsimp only [ofLex_toLex] at htickets
    omega

include hproviders hsaturation in
theorem Fair.push (h : Fair schedule capacity queues plan) (hroom : plan.selected.length < capacity)
    (hleast : ∀ p ∈ plan.candidatesByProvider.map Prod.fst,
      plan.order schedule provider ≤ plan.order schedule p) {job : PinJob} {rest : List PinJob}
    (hqueue : queueOf plan.candidatesByProvider provider = job :: rest) :
    Fair schedule capacity queues (plan.push provider job) := by
  have hjob : job.provider = provider := by
    refine hproviders provider job ?_
    rw [h.split, hqueue]
    exact mem_append_right _ mem_cons_self
  have hjobs : (plan.push provider job).jobs = plan.jobs ++ [job] := map_append
  have hselected : (plan.push provider job).selected.length = plan.selected.length + 1 :=
    length_append
  have htaken (p : Text) : taken p (plan.push provider job).jobs =
      taken p plan.jobs ++ if p = provider then [job] else [] := by
    rw [hjobs, taken_append_singleton, hjob]
  have hoccupancy (p : Text) : schedule.occupancy (plan.push provider job).jobs p =
      schedule.occupancy plan.jobs p + if p = provider then 1 else 0 := by
    rw [WorkerClaimSchedule.occupancy, htaken, length_append, ← add_assoc]
    split_ifs <;> rfl
  have hpop (p : Text) : queueOf (plan.push provider job).candidatesByProvider p =
      if p = provider then rest else queueOf plan.candidatesByProvider p :=
    (queueOf_popFront h.nodup p).trans (by rw [hqueue, tail_cons])
  have htotal := totalQueued_popFront provider plan.candidatesByProvider
  rw [hqueue, if_neg (cons_ne_nil _ _)] at htotal
  have hcount := h.total
  refine ⟨(popFront_sublist _ _).nodup h.nodup, fun p => ?_, ?_, ?_, by omega, fun p => ?_,
    fun p => ?_, fun p r hr hp => ?_, fun before job' after hsplit => ?_⟩
  · rw [h.split, htaken, hpop]
    by_cases hp : p = provider <;> simp [hp, hqueue]
  · rw [hselected]
    show _ = _ + totalQueued (popFront provider plan.candidatesByProvider)
    omega
  · rw [hselected, range_succ, ← h.ranks]
    exact map_append
  · rw [htaken, length_append, ← h.count]
    by_cases hp : p = provider <;> simp [FairPlan.push, hp]
  · rw [htaken]
    by_cases hp : p = provider
    · simp [FairPlan.push, hp, EffectiveServiceTicket.order]
    · simp [FairPlan.push, hp, h.ticket]
  · -- the provider that is served was the least occupied of those with a job left
    have hleft : queueOf plan.candidatesByProvider p ≠ [] := by
      rw [hpop] at hp
      split_ifs at hp with heq
      · rw [heq, hqueue]
        exact cons_ne_nil _ _
      · exact hp
    have hocc := (h.least hsaturation (hleast p (mem_keys_of_queueOf hleft))).1
    rw [hoccupancy, hoccupancy]
    by_cases hserved : r = provider
    · subst hserved
      split_ifs <;> omega
    · rw [htaken, if_neg hserved, append_nil] at hr
      have hbalanced := h.balanced p r hr hleft
      split_ifs <;> omega
  · rw [hjobs] at hsplit
    rcases eq_nil_or_concat' after with rfl | ⟨after, last, rfl⟩
    · obtain ⟨rfl, hlast⟩ := append_inj' hsplit rfl
      obtain rfl := (cons.inj hlast).1
      intro p hp heq hserved
      rw [hjob] at heq hserved
      refine (h.least hsaturation (hleast p (mem_keys_of_queueOf fun hnil => ?_))).2 heq hserved
      rw [h.split p, hnil, append_nil] at hp
      exact lt_irrefl _ hp
    · rw [← cons_append, ← append_assoc] at hsplit
      exact h.first before job' after (append_inj' hsplit rfl).1

include hproviders hsaturation in
theorem Fair.serve (h : Fair schedule capacity queues plan) (hroom : plan.selected.length < capacity)
    (hleast : ∀ p ∈ plan.candidatesByProvider.map Prod.fst,
      plan.order schedule provider ≤ plan.order schedule p) :
    Fair schedule capacity queues (plan.serve provider) := by
  unfold FairPlan.serve
  cases hqueue : queueOf plan.candidatesByProvider provider with
  | cons job rest => exact h.push hproviders hsaturation hroom hleast hqueue
  | nil =>
    have htotal := totalQueued_popFront provider plan.candidatesByProvider
    rw [hqueue, if_pos rfl] at htotal
    have hsame (p : Text) : queueOf (popFront provider plan.candidatesByProvider) p =
        queueOf plan.candidatesByProvider p := by
      rw [queueOf_popFront h.nodup, hqueue]
      split_ifs with hp
      · rw [hp, hqueue]
        rfl
      · rfl
    exact
      { h with
        nodup := (popFront_sublist _ _).nodup h.nodup
        split := fun p => (h.split p).trans (by rw [hsame]; rfl)
        total := h.total.trans (by rw [← htotal]; rfl)
        balanced := fun p r hr hp => h.balanced p r hr (hsame p ▸ hp) }

include hproviders hsaturation in
/-- **The loop** keeps the invariant, and ends when the batch is full or the queues are empty. -/
theorem Fair.rounds (h : Fair schedule capacity queues plan) {n : ℕ}
    (hn : roundsLeft plan.candidatesByProvider ≤ n) :
    Fair schedule capacity queues (plan.rounds schedule capacity n) ∧
      ((plan.rounds schedule capacity n).selected.length = capacity ∨
        (plan.rounds schedule capacity n).candidatesByProvider = []) := by
  induction n generalizing plan with
  | zero =>
    refine ⟨h, Or.inr ?_⟩
    rcases hqueues : plan.candidatesByProvider with _ | ⟨queue, rest⟩
    · rw [FairPlan.rounds, hqueues]
    · simp [hqueues, roundsLeft] at hn
  | succ n ih =>
    rw [FairPlan.rounds]
    rcases hnext : plan.next schedule capacity with _ | next
    · refine ⟨h, ?_⟩
      unfold FairPlan.next at hnext
      split_ifs at hnext with hroom
      · exact Or.inr (map_eq_nil_iff.mp (argmin_eq_none.mp (Option.map_eq_none_iff.mp hnext)))
      · exact Or.inl (le_antisymm h.le_capacity (not_lt.mp hroom))
    · unfold FairPlan.next at hnext
      split_ifs at hnext with hroom
      obtain ⟨provider, hprovider, rfl⟩ := Option.map_eq_some_iff.mp hnext
      refine ih (h.serve hproviders hsaturation hroom fun p hp => le_of_mem_argmin hp hprovider)
        (Nat.le_of_lt_succ (lt_of_lt_of_le ?_ hn))
      have hlt := roundsLeft_popFront (argmin_mem hprovider)
      unfold FairPlan.serve
      cases queueOf plan.candidatesByProvider provider with
      | nil => exact hlt
      | cons => exact hlt

end

def plannedJobs (schedule : WorkerClaimSchedule) (queues : Queues) (capacity : ℕ) : List PinJob :=
  (selectFairCandidates schedule queues capacity).map RankedClaimCandidate.candidate

/-- **The plan is fair and work conserving.**  It is full unless the queues run empty, its ranks count
up, it takes the first jobs of every queue, and a provider that is served is at most one job ahead of
any provider with a job left.  Of equally occupied providers, one that has had no job comes first. -/
theorem selectFairCandidates_fair (schedule : WorkerClaimSchedule) (capacity : ℕ) (queues : Queues)
    (hkeys : (queues.map Prod.fst).Nodup)
    (hproviders : ∀ p, ∀ job ∈ queueOf queues p, job.provider = p)
    (hsaturation : ∀ p, schedule.inFlight p + (queueOf queues p).length ≤ usizeMax) :
    (plannedJobs schedule queues capacity).length = min capacity (totalQueued queues) ∧
    (selectFairCandidates schedule queues capacity).map RankedClaimCandidate.fairRank =
      range (plannedJobs schedule queues capacity).length ∧
    (∀ p, taken p (plannedJobs schedule queues capacity) <+: queueOf queues p) ∧
    (∀ p r, taken r (plannedJobs schedule queues capacity) ≠ [] →
      (taken p (plannedJobs schedule queues capacity)).length < (queueOf queues p).length →
      schedule.occupancy (plannedJobs schedule queues capacity) r ≤
        schedule.occupancy (plannedJobs schedule queues capacity) p + 1) ∧
    ∀ before job after, plannedJobs schedule queues capacity = before ++ job :: after →
      FirstServed schedule queues before job := by
  have hstart : Fair schedule capacity queues (.start schedule queues) := by
    refine ⟨hkeys, fun _ => rfl, (Nat.zero_add _).symm, rfl, Nat.zero_le _, fun _ => rfl, fun p => ?_,
      fun _ _ hr => absurd rfl hr, fun before job after h => ?_⟩
    · dsimp only [FairPlan.start, FairPlan.jobs]
      cases schedule.lastServedTicketByProvider p <;> rfl
    · exact absurd h.symm (by simp [FairPlan.jobs, FairPlan.start])
  obtain ⟨hfair, hend⟩ := hstart.rounds hproviders hsaturation (n := roundsLeft queues) le_rfl
  have hlength : (plannedJobs schedule queues capacity).length =
      (selectFairCandidates schedule queues capacity).length := length_map _
  refine ⟨?_, ?_, fun p => ⟨_, (hfair.split p).symm⟩, fun p r hr hp => hfair.balanced p r hr ?_,
    hfair.first⟩
  · have htotal := hfair.total
    have hle := hfair.le_capacity
    rw [hlength, selectFairCandidates]
    rcases hend with hfull | hempty
    · omega
    · rw [hempty] at htotal
      have hnil : totalQueued [] = 0 := rfl
      omega
  · rw [hlength]
    exact hfair.ranks
  · intro hnil
    rw [hfair.split p, hnil, append_nil] at hp
    exact lt_irrefl _ hp

/-- The first of two providers has a job in flight. -/
def busyFirst : WorkerClaimSchedule :=
  ⟨fun p => if p = [1] then some 1 else none, fun _ => none, fun _ => none⟩

def twoQueues : Queues := [([1], [⟨[10], [1]⟩]), ([2], [⟨[20], [2]⟩, ⟨[21], [2]⟩])]

/-- A batch of two starts with the second provider, which has a job left then. -/
theorem selectFairCandidates_fair_two :
    plannedJobs busyFirst twoQueues 2 = [⟨[20], [2]⟩, ⟨[10], [1]⟩] ∧
      taken [2] (plannedJobs busyFirst twoQueues 2) <+: queueOf twoQueues [2] ∧
      busyFirst.occupancy (plannedJobs busyFirst twoQueues 2) [1] ≤
        busyFirst.occupancy (plannedJobs busyFirst twoQueues 2) [2] + 1 ∧
      FirstServed busyFirst twoQueues [⟨[20], [2]⟩] ⟨[10], [1]⟩ := by
  have hplanned : plannedJobs busyFirst twoQueues 2 = [⟨[20], [2]⟩, ⟨[10], [1]⟩] := by
    decide +kernel
  obtain ⟨-, -, hprefix, hbalanced, hfirst⟩ := selectFairCandidates_fair busyFirst 2 twoQueues
    (by decide)
    (fun p => by
      simp only [twoQueues, queueOf]
      split_ifs with h h' <;> simp_all)
    fun p => by
      simp only [twoQueues, queueOf, busyFirst, WorkerClaimSchedule.inFlight, usizeMax]
      split_ifs <;> simp
  refine ⟨hplanned, hprefix [2], hbalanced [2] [1] ?_ ?_, hfirst _ _ [] hplanned⟩
  · rw [hplanned]
    decide
  · rw [hplanned]
    decide

end IpfS3.Pinning
