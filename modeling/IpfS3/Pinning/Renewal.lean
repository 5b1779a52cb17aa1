import IpfS3.Lifecycle.Actions
import IpfS3.Pinning.PolicyIdentity

/-!
# Renewals of a manual lease

`pinning/tags.rs` reads a pin control out of the tags of an object, and `pinning/policy.rs` decides
what a replacement of the tags does to the manual lease of the object.  An accepted replacement never
takes away what a lease has promised (`renewal_never_weakens`).
-/

namespace IpfS3.Pinning

open Config (ValidatedPolicy parseDuration)
open Lifecycle (ObjectTag)
open Fallible Transactions

/-! ## Tags -/

inductive ContentMode where
  | object
  | decompressed
  deriving DecidableEq

/-- `PinControl`, with durations in seconds and instants in nanoseconds. -/
inductive PinControl where
  | absent
  | cancel
  | request (duration : Option ℕ) (content : ContentMode)
  | renew (retainUntil : ℤ)
  deriving DecidableEq

def reservedKeys : List String :=
  ["ipfs-s3:pin", "ipfs-s3:duration", "ipfs-s3:content", "ipfs-s3:retain-until", "ipfs-s3:zip-root"]

def parseZipRootValue : String → Except String Bool
  | "true" => .ok true
  | "false" => .ok false
  | _ => .error "ipfs-s3:zip-root must be exactly true or false"

/-- The checks of one tag, after those with the given keys. -/
def validateTag (keys : List String) (tag : ObjectTag) : Except String Unit := do
  ensure (tag.key ≠ "") "tag key must not be empty"
  ensure (tag.key.length ≤ 128) "tag key exceeds the maximum of 128 characters"
  ensure (tag.value.length ≤ 256) "tag value exceeds the maximum of 256 characters"
  ensure (keys.contains tag.key = false) "duplicate tag key"
  ensure ("ipfs-s3:".toList.isPrefixOf tag.key.toList = true → reservedKeys.contains tag.key = true)
    "unknown ipfs-s3 reserved tag key"
  if tag.key = "ipfs-s3:zip-root" then (parseZipRootValue tag.value).map fun _ => () else .ok ()

/-- The loop of `validate_tag_set`. -/
def validateTags : List String → List ObjectTag → Except String Unit
  | _, [] => .ok ()
  | keys, tag :: tags => do
    validateTag keys tag
    validateTags (tag.key :: keys) tags

def validateTagSet (tags : List ObjectTag) : Except String Unit := do
  ensure (tags.length ≤ 10) "tag set exceeds the maximum of 10 tags"
  validateTags [] tags

def reservedValue (tags : List ObjectTag) (key : String) : Option String :=
  (tags.find? fun tag => tag.key == key).map ObjectTag.value

/-- `ipfs-s3:duration`; every error of `LeaseDuration::parse` has the same text. -/
def parseTagDuration (raw : String) : Except String ℕ :=
  (parseDuration (Percent.utf8 raw)).mapError fun _ => "invalid lease duration"

/-- `ipfs-s3:content`. -/
def parseContent : Option String → Except String ContentMode
  | none | some "object" => .ok .object
  | some "decompressed" => .ok .decompressed
  | some _ => .error "invalid ipfs-s3:content"

section

variable (parseFromRfc3339 : String → Option ℤ)

/-- The branch of `ipfs-s3:pin=true`. -/
def requestFromTags (duration content : Option String) :
    Option String → Except String PinControl
  | some retainUntil => do
    ensure (duration = none ∧ content = none)
      "ipfs-s3:retain-until cannot be combined with request parameters"
    match parseFromRfc3339 retainUntil with
    | none => .error "invalid ipfs-s3:retain-until"
    | some retainUntil => .ok (.renew retainUntil)
  | none => do
    let duration ← duration.mapM parseTagDuration
    let content ← parseContent content
    .ok (.request duration content)

def fromTags (tags : List ObjectTag) : Except String PinControl := do
  validateTagSet tags
  let duration := reservedValue tags "ipfs-s3:duration"
  let content := reservedValue tags "ipfs-s3:content"
  let retainUntil := reservedValue tags "ipfs-s3:retain-until"
  match reservedValue tags "ipfs-s3:pin" with
  | none => do
    ensure (duration = none ∧ content = none ∧ retainUntil = none)
      "pin control parameters require ipfs-s3:pin"
    .ok .absent
  | some "false" => do
    ensure (duration = none ∧ content = none ∧ retainUntil = none)
      "ipfs-s3:pin=false cannot be combined with pin parameters"
    .ok .cancel
  | some "true" => requestFromTags parseFromRfc3339 duration content retainUntil
  | some _ => .error "ipfs-s3:pin must be exactly true or false"

end

/-! ## Policies -/

inductive ExistingManualLeaseState where
  | active
  | expired
  | cancelled
  | evicted
  deriving DecidableEq

/-- `ExistingManualLease`, as far as a replacement reads it. -/
structure ExistingManualLease where
  policyId : Text
  expiresAt : ℤ
  state : ExistingManualLeaseState
  deriving DecidableEq

inductive ManualLeaseMutation where
  | keep
  | renew (retainUntil : ℤ)
  | cancel
  deriving DecidableEq

/-- `maximum_retain_until`; a `TimeDelta` has at most `i64::MAX` milliseconds. -/
def maximumRetainUntil (now : ℤ) (maxDuration : ℕ) : Except String ℤ := do
  ensure (maxDuration ≤ (2 ^ 63 - 1) / 1000) "policy maximum duration is out of range"
  match Lifecycle.checkedAddSigned now (maxDuration * Lifecycle.secondNanos) with
  | none => .error "policy maximum retention timestamp is out of range"
  | some maximum => .ok maximum

def capturedPolicy (policies : List ValidatedPolicy) (existing : ExistingManualLease) :
    Option ValidatedPolicy :=
  policies.find? fun policy => policy.identity == existing.policyId

/-- The comparisons at the end of `evaluate_renewal`. -/
def renewLease (existing : ExistingManualLease) (retainUntil now : ℤ) :
    Except String ManualLeaseMutation :=
  match existing.state with
  | .active =>
    if retainUntil = existing.expiresAt then .ok .keep
    else if retainUntil < existing.expiresAt then
      .error "retention timestamp cannot shorten a manual pin lease"
    else .ok (.renew retainUntil)
  | .expired => do
    ensure (¬(retainUntil ≤ existing.expiresAt ∨ retainUntil ≤ now))
      "expired manual pin lease renewal must extend beyond its expiry and now"
    .ok (.renew retainUntil)
  | .cancelled | .evicted => .error "cancelled or evicted manual pin lease cannot be renewed"

def evaluateRenewal (policies : List ValidatedPolicy) (existing : ExistingManualLease)
    (retainUntil now : ℤ) : Except String ManualLeaseMutation :=
  match capturedPolicy policies existing with
  | none => .error "captured pinning policy is unknown"
  | some policy => do
    let maximum ← maximumRetainUntil now policy.maxDuration
    ensure (retainUntil ≤ maximum) "retention timestamp exceeds policy maximum duration"
    renewLease existing retainUntil now

def evaluateTagReplacement (parseFromRfc3339 : String → Option ℤ) (policies : List ValidatedPolicy)
    (existingManual : Option ExistingManualLease) (replacement : List ObjectTag) (now : ℤ) :
    Except String ManualLeaseMutation := do
  let control ← fromTags parseFromRfc3339 replacement
  match existingManual, control with
  | none, .absent | none, .cancel => .ok .keep
  | none, _ => .error "manual pin lease does not exist"
  | some existing, .absent | some existing, .cancel =>
    .ok (if existing.state = .active then .cancel else .keep)
  | some _, .request _ _ =>
    .error "ipfs-s3:retain-until is required to renew a manual pin lease"
  | some existing, .renew retainUntil => evaluateRenewal policies existing retainUntil now

/-! ## Runs -/

def ExistingManualLease.apply (lease : ExistingManualLease) : ManualLeaseMutation →
    ExistingManualLease
  | .keep => lease
  | .renew retainUntil => { lease with expiresAt := retainUntil, state := .active }
  | .cancel => { lease with state := .cancelled }

/-- What happens to a lease: the tags are replaced, under the policies of that time, or it expires. -/
inductive LeaseEvent where
  | replace (policies : List ValidatedPolicy) (replacement : List ObjectTag) (now : ℤ)
  | expire (now : ℤ)

/-- One event; a replacement that is refused changes nothing. -/
def transactLease (parseFromRfc3339 : String → Option ℤ) (lease : ExistingManualLease) :
    LeaseEvent → Except String ExistingManualLease
  | .replace policies replacement now => do
    let mutation ← evaluateTagReplacement parseFromRfc3339 policies (some lease) replacement now
    .ok (lease.apply mutation)
  | .expire now =>
    .ok (if lease.state = .active ∧ lease.expiresAt ≤ now then { lease with state := .expired }
      else lease)

def leaseAfter (parseFromRfc3339 : String → Option ℤ) (lease : ExistingManualLease)
    (events : List LeaseEvent) : ExistingManualLease :=
  run (transactLease parseFromRfc3339) lease events

section

variable {parseFromRfc3339 : String → Option ℤ} {policies : List ValidatedPolicy} {lease : ExistingManualLease}
  {replacement : List ObjectTag} {retainUntil now : ℤ} {mutation : ManualLeaseMutation}

/-- What an accepted renewal has passed. -/
structure Renewable (policies : List ValidatedPolicy) (lease : ExistingManualLease)
    (retainUntil now : ℤ) : Prop where
  live : lease.state = .active ∨ lease.state = .expired
  later : lease.expiresAt < retainUntil
  future : lease.state = .expired → now < retainUntil
  bounded : ∃ policy, capturedPolicy policies lease = some policy ∧
    retainUntil ≤ now + policy.maxDuration * Lifecycle.secondNanos

theorem eq_of_maximumRetainUntil {maxDuration : ℕ} {maximum : ℤ}
    (h : maximumRetainUntil now maxDuration = .ok maximum) :
    maximum = now + maxDuration * Lifecycle.secondNanos := by
  obtain ⟨-, h⟩ := of_ensure h
  unfold Lifecycle.checkedAddSigned at h
  split_ifs at h
  cases h
  rfl

/-- **What `evaluate_renewal` accepts.** -/
theorem of_evaluateRenewal (h : evaluateRenewal policies lease retainUntil now = .ok mutation) :
    mutation = .keep ∨ mutation = .renew retainUntil ∧ Renewable policies lease retainUntil now := by
  unfold evaluateRenewal at h
  cases hpolicy : capturedPolicy policies lease with
  | none => simp [hpolicy] at h
  | some policy =>
    rw [hpolicy] at h
    obtain ⟨maximum, hmaximum, h⟩ := of_bind h
    obtain ⟨hle, h⟩ := of_ensure h
    rw [eq_of_maximumRetainUntil hmaximum] at hle
    unfold renewLease at h
    cases hstate : lease.state with
    | active =>
      simp only [hstate] at h
      split_ifs at h with heq hlt
      · exact Or.inl (Except.ok.inj h).symm
      · have hlater : lease.expiresAt < retainUntil := by omega
        exact Or.inr ⟨(Except.ok.inj h).symm, Or.inl hstate, hlater, by simp [hstate], policy, hpolicy,
          hle⟩
    | expired =>
      simp only [hstate] at h
      obtain ⟨hnot, h⟩ := of_ensure h
      exact Or.inr ⟨(Except.ok.inj h).symm, Or.inr hstate, by omega, fun _ => by omega, policy, hpolicy,
        hle⟩
    | cancelled => simp [hstate] at h
    | evicted => simp [hstate] at h

/-- **What a replacement does to a lease.** -/
theorem of_evaluateTagReplacement
    (h : evaluateTagReplacement parseFromRfc3339 policies (some lease) replacement now = .ok mutation) :
    mutation = .keep ∨ mutation = .cancel ∧ lease.state = .active ∨
      ∃ retainUntil, mutation = .renew retainUntil ∧ Renewable policies lease retainUntil now := by
  obtain ⟨control, -, h⟩ := of_bind h
  have hcancel (h : (.ok (if lease.state = .active then .cancel else .keep) :
      Except String ManualLeaseMutation) = .ok mutation) :
      mutation = .keep ∨ mutation = .cancel ∧ lease.state = .active := by
    split_ifs at h with hactive <;> simp_all
  cases control with
  | absent => exact (hcancel h).imp_right Or.inl
  | cancel => exact (hcancel h).imp_right Or.inl
  | request duration content => cases h
  | renew retainUntil =>
    exact (of_evaluateRenewal h).imp_right fun hrenew => Or.inr ⟨retainUntil, hrenew⟩

/-- A valid tag set without parameters of a pin. -/
structure Unparameterised (replacement : List ObjectTag) : Prop where
  valid : validateTagSet replacement = .ok ()
  none : reservedValue replacement "ipfs-s3:duration" = .none ∧
    reservedValue replacement "ipfs-s3:content" = .none ∧
    reservedValue replacement "ipfs-s3:retain-until" = .none

theorem removed_eq_ok_iff (hpin : reservedValue replacement "ipfs-s3:pin" = none ∨
      reservedValue replacement "ipfs-s3:pin" = some "false") :
    evaluateTagReplacement parseFromRfc3339 policies (some lease) replacement now = .ok mutation ↔
      Unparameterised replacement ∧
        mutation = if lease.state = .active then .cancel else .keep := by
  rw [evaluateTagReplacement, fromTags]
  -- an absent and a cancelling control are treated alike
  rcases hpin with hpin | hpin <;> rw [hpin] <;> simp only [bind_eq_ok_iff]
  all_goals
    constructor
    · rintro ⟨_, ⟨⟨⟩, hvalid, ⟨⟩, hnone, hcontrol⟩, h⟩
      cases hcontrol
      exact ⟨⟨hvalid, ensure_eq_ok_iff.mp hnone⟩, (Except.ok.inj h).symm⟩
    · rintro ⟨h, rfl⟩
      exact ⟨_, ⟨(), h.valid, (), ensure_of h.none, rfl⟩, rfl⟩

theorem transactLease_spec {lease' : ExistingManualLease} {event : LeaseEvent}
    (h : transactLease parseFromRfc3339 lease event = .ok lease') : lease.expiresAt ≤ lease'.expiresAt ∧
      (lease.state = .cancelled ∨ lease.state = .evicted → lease' = lease) := by
  cases event with
  | expire now =>
    cases h
    split_ifs with hexpired
    · exact ⟨le_rfl, by simp [hexpired.1]⟩
    · exact ⟨le_rfl, fun _ => rfl⟩
  | replace policies replacement now =>
    obtain ⟨mutation, hmutation, h⟩ := of_bind h
    cases h
    rcases of_evaluateTagReplacement hmutation with rfl | ⟨rfl, hactive⟩ | ⟨retainUntil, rfl, hrenew⟩
    · exact ⟨le_rfl, fun _ => rfl⟩
    · exact ⟨le_rfl, by simp [hactive]⟩
    · refine ⟨hrenew.later.le, fun hended => ?_⟩
      rcases hrenew.live with hlive | hlive <;> simp [hlive] at hended

end

/-- **Renewal never weakens retention.**  Over every run, under policies that may change: the expiry
never moves back, and a lease that was cancelled or evicted stays so.  An accepted renewal moves the
expiry forward, of an expired lease beyond now, and at most to the maximum of the captured policy;
`Keep` changes nothing; and a replacement that removes the pin is accepted unless it is invalid or has
other parameters of a pin, and cancels the lease iff it is active. -/
theorem renewal_never_weakens (parseFromRfc3339 : String → Option ℤ) (start : ExistingManualLease)
    (events : List LeaseEvent) :
    (∀ events', (leaseAfter parseFromRfc3339 start events).expiresAt ≤
      (leaseAfter parseFromRfc3339 start (events ++ events')).expiresAt) ∧
    ((leaseAfter parseFromRfc3339 start events).state = .cancelled ∨
        (leaseAfter parseFromRfc3339 start events).state = .evicted →
      ∀ events', leaseAfter parseFromRfc3339 start (events ++ events') =
        leaseAfter parseFromRfc3339 start events) ∧
    (∀ policies replacement now mutation, evaluateTagReplacement parseFromRfc3339 policies
        (some (leaseAfter parseFromRfc3339 start events)) replacement now = .ok mutation →
      leaseAfter parseFromRfc3339 start (events ++ [.replace policies replacement now]) =
        (leaseAfter parseFromRfc3339 start events).apply mutation ∧
      ∀ retainUntil, mutation = .renew retainUntil →
        Renewable policies (leaseAfter parseFromRfc3339 start events) retainUntil now) ∧
    ∀ policies replacement now mutation, reservedValue replacement "ipfs-s3:pin" = none ∨
        reservedValue replacement "ipfs-s3:pin" = some "false" →
      (evaluateTagReplacement parseFromRfc3339 policies
          (some (leaseAfter parseFromRfc3339 start events)) replacement now = .ok mutation ↔
        Unparameterised replacement ∧ mutation =
          if (leaseAfter parseFromRfc3339 start events).state = .active then .cancel else .keep) := by
  refine ⟨fun events' => ?_, fun hended events' => ?_, fun policies replacement now mutation h => ?_,
    fun policies replacement now mutation hpin => removed_eq_ok_iff hpin⟩
  · rw [leaseAfter, leaseAfter, run_append]
    generalize run (transactLease parseFromRfc3339) start events = lease
    have hstep (l event l') (hle : lease.expiresAt ≤ l.expiresAt)
        (h : transactLease parseFromRfc3339 l event = .ok l') : lease.expiresAt ≤ l'.expiresAt :=
      hle.trans (transactLease_spec h).1
    exact run_invariant hstep le_rfl events'
  · rw [leaseAfter, leaseAfter, run_append]
    exact run_invariant (fun _ _ _ heq hstep => ((transactLease_spec hstep).2 (heq ▸ hended)).trans heq)
      rfl events'
  · refine ⟨?_, fun retainUntil hmutation => ?_⟩
    · rw [leaseAfter] at h
      rw [leaseAfter, run_append, run_cons, run_nil, commit, transactLease, h]
      rfl
    · rcases of_evaluateTagReplacement h with rfl | ⟨rfl, -⟩ | ⟨retainUntil', rfl, hrenew⟩
      · cases hmutation
      · cases hmutation
      · cases hmutation
        exact hrenew

def tenSeconds : ValidatedPolicy := ⟨[112], [98], [], .always, .one, [[113]], 1, 10, false⟩

/-- A replacement of the tags that renews a lease until the second 9. -/
def renewingTags : List ObjectTag := [⟨"ipfs-s3:pin", "true"⟩, ⟨"ipfs-s3:retain-until", "9 s"⟩]

/-- A lease until the second 5 is renewed, and cancelled when its tags are removed. -/
theorem renewal_never_weakens_nineSeconds :
    let lease := leaseAfter (fun _ => some (9 * Lifecycle.secondNanos))
      ⟨[112], 5 * Lifecycle.secondNanos, .active⟩ [.replace [tenSeconds] renewingTags 0]
    lease = ⟨[112], 9 * Lifecycle.secondNanos, .active⟩ ∧
      Renewable [tenSeconds] ⟨[112], 5 * Lifecycle.secondNanos, .active⟩
        (9 * Lifecycle.secondNanos) 0 ∧
      evaluateTagReplacement (fun _ => some (9 * Lifecycle.secondNanos)) [] (some lease) [] 1 =
        .ok .cancel := by
  have hstart := renewal_never_weakens (fun _ => some (9 * Lifecycle.secondNanos))
    ⟨[112], 5 * Lifecycle.secondNanos, .active⟩ []
  have hrenewed := renewal_never_weakens (fun _ => some (9 * Lifecycle.secondNanos))
    ⟨[112], 5 * Lifecycle.secondNanos, .active⟩ [.replace [tenSeconds] renewingTags 0]
  have haccepted := hstart.2.2.1 [tenSeconds] renewingTags 0
    (.renew (9 * Lifecycle.secondNanos)) (by decide +kernel)
  refine ⟨haccepted.1, haccepted.2 _ rfl, ?_⟩
  exact (hrenewed.2.2.2 [] [] 1 .cancel (Or.inl rfl)).mpr
    ⟨⟨by decide +kernel, rfl, rfl, rfl⟩, by decide +kernel⟩

end IpfS3.Pinning
