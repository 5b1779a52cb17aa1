import IpfS3.Foundations.Decimal
import IpfS3.Pinning.Quota

/-!
# The identities of policies

`pinning/config.rs` validates the policies of a configuration.  The identity of a policy is a digest
of its fields, each with its length in front.  Two functions write the fields: `policy_identity` for
the validation, and `refresh_identity` for a policy that was changed afterwards.  They write the same
bytes, and from these all fields are read back (`policy_identities`).
-/

namespace IpfS3.Pinning
namespace Config

open Fallible Text

inductive PolicyTrigger where
  | always
  | request
  deriving DecidableEq

def PolicyTrigger.asStr : PolicyTrigger → Text
  | .always => ascii "always".toList
  | .request => ascii "request".toList

def PolicyTrigger.parse (raw : Text) : Except Text PolicyTrigger :=
  if raw = ascii "always".toList then .ok .always
  else if raw = ascii "request".toList then .ok .request
  else .error (ascii "unknown policy trigger `".toList ++ raw ++ ascii "`".toList)

inductive ProviderMode where
  | one
  | all
  deriving DecidableEq

def ProviderMode.asStr : ProviderMode → Text
  | .one => ascii "one".toList
  | .all => ascii "all".toList

def ProviderMode.parse (raw : Text) : Except Text ProviderMode :=
  if raw = ascii "one".toList then .ok .one
  else if raw = ascii "all".toList then .ok .all
  else .error (ascii "unknown provider mode `".toList ++ raw ++ ascii "`".toList)

/-- The seconds of a unit of a duration. -/
def unitSeconds (unit : UInt8) : Option ℕ :=
  if unit = 115 then some 1
  else if unit = 109 then some 60
  else if unit = 104 then some 3600
  else if unit = 100 then some 86400
  else none

/-- `LeaseDuration::parse`, in seconds.  A unit of several bytes leaves a number that is none. -/
def parseDuration (raw : Text) : Except Text ℕ := do
  let invalid := ascii "invalid lease duration".toList
  let unit ← raw.getLast?.elim (.error invalid) .ok
  let number := raw.dropLast
  ensure (number ≠ [] ∧ number.all fun byte => 48 ≤ byte && byte ≤ 57) invalid
  let value := number.foldl (fun value byte => 10 * value + (byte.toNat - 48)) 0
  ensure (value < 2 ^ 64 ∧ value ≠ 0) invalid
  let multiplier ← (unitSeconds unit).elim (.error invalid) .ok
  ensure (value * multiplier < 2 ^ 63) invalid
  .ok (value * multiplier)

inductive OptionalPinControlMode where
  | strict
  | warn
  deriving DecidableEq

structure PolicyConfig where
  bucket : Text
  pfx : Text
  trigger : Text
  providerMode : Text
  providers : List Text
  defaultDuration : Text
  maxDuration : Text
  allowDecompressed : Bool

/-- `ValidatedPolicy`; the durations are in seconds. -/
@[ext]
structure ValidatedPolicy where
  identity : Text
  bucket : Text
  pfx : Text
  trigger : PolicyTrigger
  providerMode : ProviderMode
  providers : List Text
  defaultDuration : ℕ
  maxDuration : ℕ
  allowDecompressed : Bool

def appendCanonicalField (canonical value : Text) : Text :=
  canonical ++ decimal value.length ++ ascii ":".toList ++ value ++ ascii "|".toList

def flagStr (flag : Bool) : Text :=
  if flag = true then ascii "true".toList else ascii "false".toList

/-- `format!("policy:{index}:{}")`; the digest is in hexadecimal. -/
def identityOf (digest : Text → Text) (index : ℕ) (canonical : Text) : Text :=
  ascii "policy:".toList ++ decimal index ++ ascii ":".toList ++ digest canonical

/-- What `policy_identity` hashes. -/
def policyCanonical (policy : PolicyConfig) (trigger : PolicyTrigger) (providerMode : ProviderMode)
    (providers : List Text) (defaultDuration maxDuration : ℕ) : Text :=
  let canonical := appendCanonicalField [] policy.bucket
  let canonical := appendCanonicalField canonical policy.pfx
  let canonical := appendCanonicalField canonical trigger.asStr
  let canonical := appendCanonicalField canonical providerMode.asStr
  let canonical := appendCanonicalField canonical (decimal providers.length)
  let canonical := providers.foldl appendCanonicalField canonical
  let canonical := appendCanonicalField canonical (decimal defaultDuration)
  let canonical := appendCanonicalField canonical (decimal maxDuration)
  appendCanonicalField canonical (flagStr policy.allowDecompressed)

section Identity

variable (digest : Text → Text) (index : ℕ)

def policyIdentity (policy : PolicyConfig) (trigger : PolicyTrigger) (providerMode : ProviderMode)
    (providers : List Text) (defaultDuration maxDuration : ℕ) : Text :=
  identityOf digest index
    (policyCanonical policy trigger providerMode providers defaultDuration maxDuration)

/-- What `refresh_identity` hashes. -/
def ValidatedPolicy.canonical (self : ValidatedPolicy) : Text :=
  let canonical := [self.bucket, self.pfx, self.trigger.asStr, self.providerMode.asStr].foldl
    appendCanonicalField []
  let canonical := appendCanonicalField canonical (decimal self.providers.length)
  let canonical := self.providers.foldl appendCanonicalField canonical
  let canonical := appendCanonicalField canonical (decimal self.defaultDuration)
  let canonical := appendCanonicalField canonical (decimal self.maxDuration)
  appendCanonicalField canonical (flagStr self.allowDecompressed)

def ValidatedPolicy.refreshIdentity (self : ValidatedPolicy) : ValidatedPolicy :=
  { self with identity := identityOf digest index self.canonical }

def policyError (bucket : Text) (message : String) : Text :=
  ascii "policy `".toList ++ bucket ++ ascii message.toList

/-- The loop over the providers of a policy. -/
def checkProviders (bucket : Text) (limits : List (Text × ProviderLimits)) :
    List Text → List Text → Except Text Unit
  | _, [] => .ok ()
  | seen, name :: names => do
    ensure (name ≠ []) (policyError bucket "` references an empty provider name")
    ensure ((limits.lookup name).isSome = true)
      (policyError bucket "` references unknown provider `" ++ name ++ ascii "`".toList)
    ensure (name ∉ seen) (ascii "policy '".toList ++ bucket ++
      ascii "' contains duplicate provider '".toList ++ name ++ ascii "'".toList)
    checkProviders bucket limits (name :: seen) names

/-- The order of the providers: by priority, then by name. -/
def providerLe (limits : List (Text × ProviderLimits)) (left right : Text) : Bool :=
  let priority (name : Text) := (limits.lookup name).elim 0 ProviderLimits.priority
  decide (priority left < priority right ∨ priority left = priority right ∧ left ≤ right)

def validatePolicy (policy : PolicyConfig) (limits : List (Text × ProviderLimits))
    (control : OptionalPinControlMode) : Except Text ValidatedPolicy := do
  ensure (policy.bucket ≠ [] ∧ (policy.bucket.contains 42 → policy.bucket = [42]))
    (ascii "policy bucket must be a non-empty exact name or `*`".toList)
  ensure (policy.providers ≠ []) (policyError policy.bucket "` must reference at least one provider")
  let trigger ← PolicyTrigger.parse policy.trigger
  let providerMode ← ProviderMode.parse policy.providerMode
  let defaultDuration ← parseDuration policy.defaultDuration
  let maxDuration ← parseDuration policy.maxDuration
  ensure (defaultDuration ≤ maxDuration)
    (policyError policy.bucket "` default duration exceeds max duration")
  checkProviders policy.bucket limits [] policy.providers
  ensure ((∃ name ∈ policy.providers, ((limits.lookup name).any (·.enabled)) = true) ∨
      control = .warn ∧ trigger = .request)
    (policyError policy.bucket "` must reference at least one enabled provider")
  let providers := policy.providers.mergeSort (providerLe limits)
  let identity := policyIdentity digest index policy trigger providerMode providers defaultDuration
    maxDuration
  .ok ⟨identity, policy.bucket, policy.pfx, trigger, providerMode, providers, defaultDuration,
    maxDuration, policy.allowDecompressed⟩

end Identity

/-- The fields of a policy, as they are written. -/
def ValidatedPolicy.fields (self : ValidatedPolicy) : List Text :=
  self.bucket :: self.pfx :: self.trigger.asStr :: self.providerMode.asStr ::
    decimal self.providers.length :: (self.providers ++
      [decimal self.defaultDuration, decimal self.maxDuration, flagStr self.allowDecompressed])

theorem appendCanonicalField_eq (canonical value : Text) :
    appendCanonicalField canonical value = canonical ++ lengthField value := by
  simp [appendCanonicalField, lengthField, ascii]

theorem foldl_appendCanonicalField (fields : List Text) (canonical : Text) :
    fields.foldl appendCanonicalField canonical = canonical ++ fields.flatMap lengthField := by
  induction fields generalizing canonical with
  | nil => simp
  | cons value fields ih =>
    rw [List.foldl_cons, ih, appendCanonicalField_eq, List.flatMap_cons, List.append_assoc]

theorem ValidatedPolicy.canonical_eq (self : ValidatedPolicy) :
    self.canonical = self.fields.flatMap lengthField := by
  rw [← List.nil_append (self.fields.flatMap lengthField), ← foldl_appendCanonicalField, fields]
  simp only [List.foldl_cons, List.foldl_append, List.foldl_nil]
  rfl

theorem trigger_asStr_injective : Function.Injective PolicyTrigger.asStr := by
  intro a b h
  cases a <;> cases b <;> first | rfl | exact absurd h (by decide)

theorem mode_asStr_injective : Function.Injective ProviderMode.asStr := by
  intro a b h
  cases a <;> cases b <;> first | rfl | exact absurd h (by decide)

theorem flagStr_injective : Function.Injective flagStr := by decide

theorem policyCanonical_eq {digest : Text → Text} {index : ℕ} {policy : PolicyConfig}
    {limits : List (Text × ProviderLimits)} {control : OptionalPinControlMode} {p : ValidatedPolicy}
    (h : validatePolicy digest index policy limits control = .ok p) :
    policyCanonical policy p.trigger p.providerMode p.providers p.defaultDuration p.maxDuration =
        p.canonical ∧
      p.identity = policyIdentity digest index policy p.trigger p.providerMode p.providers
        p.defaultDuration p.maxDuration := by
  obtain ⟨-, h⟩ := of_ensure h
  obtain ⟨-, h⟩ := of_ensure h
  obtain ⟨trigger, -, h⟩ := of_bind h
  obtain ⟨providerMode, -, h⟩ := of_bind h
  obtain ⟨defaultDuration, -, h⟩ := of_bind h
  obtain ⟨maxDuration, -, h⟩ := of_bind h
  obtain ⟨-, h⟩ := of_ensure h
  obtain ⟨-, -, h⟩ := of_bind h
  obtain ⟨-, h⟩ := of_ensure h
  obtain rfl := Except.ok.inj h
  exact ⟨rfl, rfl⟩

/-- **The identities of policies.**  What is hashed for two policies is equal exactly when all their
fields are; and for a policy that validation has produced, both computations hash the same text, so
`refresh_identity` brings its identity back from any other. -/
theorem policy_identities (digest : Text → Text) :
    (∀ p q : ValidatedPolicy, p.canonical = q.canonical ↔
      p.bucket = q.bucket ∧ p.pfx = q.pfx ∧ p.trigger = q.trigger ∧
        p.providerMode = q.providerMode ∧ p.providers = q.providers ∧
        p.defaultDuration = q.defaultDuration ∧ p.maxDuration = q.maxDuration ∧
        p.allowDecompressed = q.allowDecompressed) ∧
    ∀ index policy limits control p,
      validatePolicy digest index policy limits control = .ok p →
        policyCanonical policy p.trigger p.providerMode p.providers p.defaultDuration
            p.maxDuration = p.canonical ∧
          p.identity = policyIdentity digest index policy p.trigger p.providerMode p.providers
            p.defaultDuration p.maxDuration ∧
          ∀ stale, { p with identity := stale }.refreshIdentity digest index = p := by
  refine ⟨fun p q => ⟨fun h => ?_, ?_⟩, fun index policy limits control p h => ?_⟩
  · rw [p.canonical_eq, q.canonical_eq] at h
    have hfields := flatMap_lengthField_injective h
    simp only [ValidatedPolicy.fields, List.cons.injEq] at hfields
    obtain ⟨hbucket, hpfx, htrigger, hmode, hcount, htail⟩ := hfields
    -- The count says where the providers end.
    obtain ⟨hproviders, hrest⟩ := List.append_inj htail (decimal_injective hcount)
    simp only [List.cons.injEq, and_true] at hrest
    obtain ⟨hdefault, hmax, hflag⟩ := hrest
    exact ⟨hbucket, hpfx, trigger_asStr_injective htrigger, mode_asStr_injective hmode, hproviders,
      decimal_injective hdefault, decimal_injective hmax, flagStr_injective hflag⟩
  · rintro ⟨hbucket, hpfx, htrigger, hmode, hproviders, hdefault, hmax, hflag⟩
    rw [p.canonical_eq, q.canonical_eq, ValidatedPolicy.fields, hbucket, hpfx, htrigger, hmode,
      hproviders, hdefault, hmax, hflag]
    rfl
  · obtain ⟨hcanonical, hidentity⟩ := policyCanonical_eq h
    refine ⟨hcanonical, hidentity, fun stale => ValidatedPolicy.ext ?_ rfl rfl rfl rfl rfl rfl rfl rfl⟩
    rw [hidentity, policyIdentity, hcanonical]
    rfl

def samplePolicy : PolicyConfig where
  bucket := [98]
  pfx := []
  trigger := ascii "always".toList
  providerMode := ascii "one".toList
  providers := [[112]]
  defaultDuration := ascii "1h".toList
  maxDuration := ascii "7d".toList
  allowDecompressed := true

/-- It is valid, and its identity is brought back from an empty one. -/
theorem policy_identities_samplePolicy :
    ∃ p, validatePolicy id 0 samplePolicy [([112], ⟨1, 10, 10, true⟩)] .strict = .ok p ∧
      p.maxDuration = 604800 ∧ { p with identity := [] }.refreshIdentity id 0 = p := by
  have hmax : (validatePolicy id 0 samplePolicy [([112], ⟨1, 10, 10, true⟩)] .strict).map
      ValidatedPolicy.maxDuration = .ok 604800 := by decide +kernel
  cases hvalid : validatePolicy id 0 samplePolicy [([112], ⟨1, 10, 10, true⟩)] .strict with
  | error message =>
    rw [hvalid] at hmax
    cases hmax
  | ok p =>
    rw [hvalid] at hmax
    exact ⟨p, rfl, Except.ok.inj hmax, ((policy_identities id).2 _ _ _ _ p hvalid).2.2 []⟩

end Config
end IpfS3.Pinning
