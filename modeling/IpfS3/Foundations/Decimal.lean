import IpfS3.Foundations.Splitting

/-!
# Decimal numerals

The decimal digits of a number as bytes: they are digits, and the number is read back from them.  A
text with its decimal length in front ends where the length says, so a sequence of such fields is read
back whatever the texts contain (`flatMap_lengthField_injective`).
-/

namespace IpfS3

/-- The decimal digits of a natural number. -/
def decimal (n : ℕ) : List UInt8 := (Nat.toDigits 10 n).map fun c => UInt8.ofNat c.toNat

/-- Reading digits, from a value on. -/
def parseDigits : List UInt8 → ℕ → Option ℕ
  | [], value => some value
  | byte :: rest, value =>
    if (48 ≤ byte && byte ≤ 57) = true then parseDigits rest (10 * value + (byte.toNat - 48))
    else none

theorem parseDigits_append (a b : List UInt8) (value : ℕ) :
    parseDigits (a ++ b) value = (parseDigits a value).bind (parseDigits b) := by
  induction a generalizing value with
  | nil => rfl
  | cons byte a ih =>
    rw [List.cons_append, parseDigits, parseDigits]
    split_ifs
    · exact ih _
    · rfl

theorem decimal_of_ge {n : ℕ} (h : 10 ≤ n) : decimal n = decimal (n / 10) ++ decimal (n % 10) := by
  rw [decimal, Nat.toDigits_of_base_le (by norm_num) h, List.map_append, decimal, decimal,
    Nat.toDigits_of_lt_base (Nat.mod_lt n (by norm_num))]

theorem parseDigits_digit {d : ℕ} (hd : d < 10) (value : ℕ) :
    parseDigits (decimal d) value = some (10 * value + d) := by
  have hdigit : ∀ d : Fin 10,
      (48 ≤ UInt8.ofNat (Nat.digitChar d).toNat && UInt8.ofNat (Nat.digitChar d).toNat ≤ 57) = true ∧
        (UInt8.ofNat (Nat.digitChar d).toNat).toNat - 48 = d := by decide
  obtain ⟨hrange, hvalue⟩ := hdigit ⟨d, hd⟩
  rw [decimal, Nat.toDigits_of_lt_base hd, List.map_singleton, parseDigits, if_pos hrange, hvalue,
    parseDigits]

/-- **A number is read back from its digits.** -/
theorem parseDigits_decimal (n : ℕ) : parseDigits (decimal n) 0 = some n := by
  -- along the digits from the left: all but the last one are those of `n / 10`
  induction n using Nat.strong_induction_on with
  | h n ih =>
    rcases lt_or_ge n 10 with hlt | hge
    · rw [parseDigits_digit hlt, Nat.mul_zero, Nat.zero_add]
    · rw [decimal_of_ge hge, parseDigits_append, ih (n / 10) (by omega), Option.bind_some,
        parseDigits_digit (Nat.mod_lt n (by norm_num)), Nat.div_add_mod]

theorem decimal_injective : Function.Injective decimal := by
  intro m n h
  have hread := parseDigits_decimal m
  rw [h, parseDigits_decimal] at hread
  exact (Option.some.inj hread).symm

theorem decimal_ne_nil (n : ℕ) : decimal n ≠ [] :=
  List.map_eq_nil_iff.not.mpr Nat.toDigits_ne_nil

theorem digit_of_parseDigits {text : List UInt8} {value n : ℕ} (h : parseDigits text value = some n)
    {byte : UInt8} (hbyte : byte ∈ text) : 48 ≤ byte ∧ byte ≤ 57 := by
  induction text generalizing value with
  | nil => cases hbyte
  | cons first rest ih =>
    rw [parseDigits] at h
    split_ifs at h with hfirst
    rcases List.mem_cons.mp hbyte with rfl | hrest
    · simpa using hfirst
    · exact ih h hrest

/-- A text with its length before and a bar behind it. -/
def lengthField (value : List UInt8) : List UInt8 :=
  decimal value.length ++ 58 :: (value ++ [124])

theorem lengthField_append_inj {a b rest rest' : List UInt8}
    (h : lengthField a ++ rest = lengthField b ++ rest') : a = b ∧ rest = rest' := by
  -- The colon behind the length is the first one.
  have hsplit (value rest : List UInt8) : Splitting.splitOnce 58 (lengthField value ++ rest) =
      some (decimal value.length, value ++ 124 :: rest) :=
    Splitting.splitOnce_eq_some_iff.mpr ⟨by simp [lengthField],
      fun hmem => absurd (digit_of_parseDigits (parseDigits_decimal _) hmem).2 (by decide)⟩
  have hparts := hsplit a rest
  rw [h, hsplit, Option.some_inj, Prod.mk.injEq] at hparts
  obtain ⟨rfl, hrest⟩ := List.append_inj hparts.2 (decimal_injective hparts.1)
  exact ⟨rfl, (List.cons.inj hrest).2.symm⟩

theorem lengthField_ne_nil (value : List UInt8) : lengthField value ≠ [] :=
  List.append_ne_nil_of_right_ne_nil _ (List.cons_ne_nil _ _)

/-- **Fields are read back.** -/
theorem flatMap_lengthField_injective : Function.Injective (List.flatMap lengthField) := by
  intro fields fields' h
  induction fields generalizing fields' with
  | nil =>
    cases fields' with
    | nil => rfl
    | cons value fields' =>
      exact absurd (List.append_eq_nil_iff.mp h.symm).1 (lengthField_ne_nil value)
  | cons value fields ih =>
    cases fields' with
    | nil => exact absurd (List.append_eq_nil_iff.mp h).1 (lengthField_ne_nil value)
    | cons value' fields' =>
      obtain ⟨rfl, hfields⟩ := lengthField_append_inj h
      rw [ih hfields]

end IpfS3
