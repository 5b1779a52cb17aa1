import IpfS3.Lifecycle.Execution
import IpfS3.Lifecycle.Winner

/-!
# The names of rules

An action stores the rule that proposed it as a text: `id:` and its ID, or `ordinal:` and its place
(`persistedRuleIdentity`).  The execution of a multipart action reads that text back (`namedRule`,
from `lifecycle/actions.rs`).

`NamesRule` says which rule a text names, by the scheduler's own encoding.  The reader finds exactly
that rule (`namesRule_of_namedRule`, `namedRule_of_namesRule`): an ID that looks like a place is still
read as an ID, since the prefixes differ, and a place is only read in the decimal form that the
scheduler writes.
-/

namespace IpfS3.Lifecycle

open Fallible List Option

/-! ## Decimal numbers -/

/-- The sign of `u16::from_str`. -/
def withoutPlus : Text → Text
  | 43 :: digits => digits
  | digits => digits

/-- `u16::from_str`. -/
def parseU16 (text : Text) : Option UInt16 :=
  if (withoutPlus text).isEmpty = true then none
  else (parseDigits (withoutPlus text) 0).bind fun value =>
    if value < 2 ^ 16 then some (UInt16.ofNat value) else none

theorem withoutPlus_eq_self {text : Text} {n : ℕ} (h : parseDigits text 0 = some n) :
    withoutPlus text = text := by
  unfold withoutPlus
  split
  · rw [parseDigits, if_neg (by decide)] at h
    cases h
  · rfl

theorem parseU16_decimal {n : ℕ} (hn : n < 2 ^ 16) : parseU16 (decimal n) = some (UInt16.ofNat n) := by
  have hparse := parseDigits_decimal n
  unfold parseU16
  rw [withoutPlus_eq_self hparse, if_neg (by simpa using decimal_ne_nil n), hparse, bind_some,
    if_pos hn]

/-! ## The reader -/

def idPrefix : Text := Text.ascii ['i', 'd', ':']

def ordinalPrefix : Text := Text.ascii ['o', 'r', 'd', 'i', 'n', 'a', 'l', ':']

/-- The rule of a place, if it is written in its decimal form and the rule has no ID. -/
def ordinalRule (configuration : CanonicalLifecycleConfiguration) (ordinal : Text) :
    Option CanonicalLifecycleRule :=
  (((parseU16 ordinal).filter fun parsed => decimal parsed.toNat == ordinal).bind
    fun parsed => configuration.rules[parsed.toNat]?).filter fun rule => rule.id.isNone

/-- The rule that `execute_multipart_in_transaction` resolves for the text of an action. -/
def namedRule (configuration : CanonicalLifecycleConfiguration) (ruleId : Text) :
    Option CanonicalLifecycleRule :=
  match Text.stripPrefix ruleId idPrefix with
  | some id => configuration.rules.find? fun rule => rule.id == some id
  | none => (Text.stripPrefix ruleId ordinalPrefix).bind (ordinalRule configuration)

/-! ## The scheduler's names -/

/-- A text that the scheduler writes for a rule of a configuration. -/
def NamesRule (configuration : CanonicalLifecycleConfiguration) (ruleId : Text)
    (rule : CanonicalLifecycleRule) : Prop :=
  ∃ (ordinal : ℕ) (identity : RuleIdentity × Text), configuration.rules[ordinal]? = some rule ∧
    ruleIdentity rule.id ordinal = .ok identity ∧ persistedRuleIdentity identity.1 = ruleId

variable {configuration : CanonicalLifecycleConfiguration} {ruleId : Text}
  {rule : CanonicalLifecycleRule}

theorem stripPrefix_ordinal (text : Text) :
    Text.stripPrefix (ordinalPrefix ++ text) idPrefix = none := by
  rw [Text.stripPrefix_eq_none_iff]
  rintro ⟨rest, hrest⟩
  exact absurd (cons.inj hrest).1 (by decide)

theorem namesRule_of_namedRule (h : namedRule configuration ruleId = some rule) :
    NamesRule configuration ruleId rule := by
  unfold namedRule at h
  cases hid : Text.stripPrefix ruleId idPrefix with
  | some id =>
    rw [hid] at h
    have hfound := find?_some h
    obtain ⟨ordinal, hget⟩ := getElem?_of_mem (mem_of_find?_eq_some h)
    have hrule : rule.id = some id := beq_iff_eq.mp hfound
    refine ⟨ordinal, (.id id, idPrefix ++ id), hget, ?_, (Text.stripPrefix_eq_some_iff.mp hid).symm⟩
    rw [hrule]
    rfl
  | none =>
    rw [hid] at h
    obtain ⟨text, htext, h⟩ := bind_eq_some_iff.mp h
    obtain ⟨h, hnone⟩ := filter_eq_some_iff.mp h
    obtain ⟨parsed, hparsed, hget⟩ := bind_eq_some_iff.mp h
    obtain ⟨-, hdecimal⟩ := filter_eq_some_iff.mp hparsed
    have hidentity : ruleIdentity rule.id parsed.toNat =
        .ok (.ordinal parsed, ordinalPrefix ++ fiveDigits parsed.toNat) := by
      rw [isNone_iff_eq_none.mp hnone]
      unfold ruleIdentity
      dsimp only
      rw [ensure_of parsed.toNat_lt, ok_bind, UInt16.ofNat_toNat]
      rfl
    refine ⟨parsed.toNat, _, hget, hidentity, ?_⟩
    rw [Text.stripPrefix_eq_some_iff.mp htext, ← beq_iff_eq.mp hdecimal]
    rfl

/-- **The reader finds the rule that the scheduler has named.** -/
theorem namedRule_of_namesRule (hvalidated : Validated configuration)
    (h : NamesRule configuration ruleId rule) : namedRule configuration ruleId = some rule := by
  obtain ⟨ordinal, identity, hget, hidentity, rfl⟩ := h
  cases hid : rule.id with
  | some id =>
    rw [hid] at hidentity
    cases hidentity
    have hstrip : Text.stripPrefix (persistedRuleIdentity (.id id)) idPrefix = some id :=
      Text.stripPrefix_eq_some_iff.mpr rfl
    unfold namedRule
    rw [hstrip]
    dsimp only
    cases hfind : configuration.rules.find? fun rule => rule.id == some id with
    | none =>
      have hnot := find?_eq_none.mp hfind rule (mem_of_getElem? hget)
      rw [hid] at hnot
      exact absurd (beq_self_eq_true _) hnot
    | some other =>
      -- the IDs of a validated configuration are distinct
      have hother := find?_some hfind
      obtain ⟨ordinal', hget'⟩ := getElem?_of_mem (mem_of_find?_eq_some hfind)
      obtain rfl := eq_of_id_eq hvalidated.ids_nodup hget' hget (beq_iff_eq.mp hother) hid
      exact hget'.symm.trans hget
  | none =>
    rw [hid] at hidentity
    obtain ⟨hlt, hidentity⟩ := of_ensure hidentity
    cases hidentity
    have hordinal : (UInt16.ofNat ordinal).toNat = ordinal := UInt16.toNat_ofNat_of_lt' hlt
    have hname : persistedRuleIdentity (.ordinal (UInt16.ofNat ordinal)) =
        ordinalPrefix ++ decimal ordinal := by
      rw [persistedRuleIdentity, hordinal]
      rfl
    have hstrip : Text.stripPrefix (ordinalPrefix ++ decimal ordinal) ordinalPrefix =
        some (decimal ordinal) := Text.stripPrefix_eq_some_iff.mpr rfl
    unfold namedRule
    rw [hname, stripPrefix_ordinal]
    rw [hstrip, bind_some, ordinalRule, parseU16_decimal hlt, filter_some,
      if_pos (by rw [hordinal]; exact beq_self_eq_true _), bind_some, hordinal, hget,
      filter_some, if_pos (by rw [hid]; rfl)]

end IpfS3.Lifecycle
