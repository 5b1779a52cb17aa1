import IpfS3.Text

/-!
# Percent encoding

A byte of the encode set is written as a percent sign and two hexadecimal digits, any other byte as
itself.  The reader of forms takes a plus sign for a space first; it reads back what was written
whenever the percent sign and the plus sign are in the encode set (`formDecode_percentEncode`).
-/

namespace IpfS3.Percent

/-! ## UTF-8 -/

/-- The bytes of a string. -/
def utf8 (s : String) : List UInt8 := s.toUTF8.data.toList

/-- The string with the given bytes, if they are well formed. -/
def fromUtf8 (bytes : List UInt8) : Option String := String.fromUTF8? ⟨bytes.toArray⟩

@[simp] theorem fromUtf8_utf8 (s : String) : fromUtf8 (utf8 s) = some s := dif_pos s.isValidUTF8

/-! ## Escapes -/

variable {set : UInt8 → Bool} {bytes : List UInt8}

/-- The bytes that one byte is written as. -/
def encodeByte (set : UInt8 → Bool) (b : UInt8) : List UInt8 :=
  if set b = true then [37, Text.hexDigit (b >>> 4), Text.hexDigit (b &&& 15)] else [b]

/-- Every byte of the encode set is escaped. -/
def percentEncode (set : UInt8 → Bool) (bytes : List UInt8) : List UInt8 :=
  bytes.flatMap (encodeByte set)

/-- The value of a hexadecimal digit of either case. -/
def hexValue? (b : UInt8) : Option UInt8 :=
  if 48 ≤ b ∧ b ≤ 57 then some (b - 48)
  else if 65 ≤ b ∧ b ≤ 70 then some (b - 55)
  else if 97 ≤ b ∧ b ≤ 102 then some (b - 87) else none

/-- The byte that two digits stand for. -/
def hexPair (b c : UInt8) : Option UInt8 :=
  (hexValue? b).bind fun high => (hexValue? c).map fun low => high <<< 4 ||| low

/-- The escapes are read; a percent sign without two digits stands for itself. -/
def percentDecode : List UInt8 → List UInt8
  | a :: b :: c :: rest =>
    match if a = 37 then hexPair b c else none with
    | some byte => byte :: percentDecode rest
    | none => a :: percentDecode (b :: c :: rest)
  | rest => rest

/-- Every percent sign is followed by two digits. -/
def wellEscaped : List UInt8 → Bool
  | [] => true
  | a :: rest =>
    (a != 37 || (hexValue? (rest.getD 0 0)).isSome && (hexValue? (rest.getD 1 0)).isSome) &&
      wellEscaped rest

/-- The escapes of a form component are read, after every plus sign has become a space. -/
def formDecode (bytes : List UInt8) : List UInt8 :=
  percentDecode (bytes.map fun b => if b = 43 then 32 else b)

theorem hexDigit_spec (n : Fin 16) :
    hexValue? (Text.hexDigit (UInt8.ofNat n)) = some (UInt8.ofNat n) ∧
      Text.hexDigit (UInt8.ofNat n) ≠ 37 ∧ Text.hexDigit (UInt8.ofNat n) ≠ 38 ∧
      Text.hexDigit (UInt8.ofNat n) ≠ 43 ∧ Text.hexDigit (UInt8.ofNat n) ≠ 61 := by
  revert n
  decide

theorem halves_spec (b : UInt8) : (∃ n : Fin 16, b >>> 4 = UInt8.ofNat n) ∧
    (∃ n : Fin 16, b &&& 15 = UInt8.ofNat n) ∧ (b >>> 4) <<< 4 ||| b &&& 15 = b := by
  have hall : ∀ n : Fin 256, (∃ m : Fin 16, UInt8.ofFin n >>> 4 = UInt8.ofNat m) ∧
      (∃ m : Fin 16, UInt8.ofFin n &&& 15 = UInt8.ofNat m) ∧
      (UInt8.ofFin n >>> 4) <<< 4 ||| UInt8.ofFin n &&& 15 = UInt8.ofFin n := by decide +kernel
  exact hall b.toFin

theorem escape_spec (b : UInt8) :
    hexPair (Text.hexDigit (b >>> 4)) (Text.hexDigit (b &&& 15)) = some b ∧
    ∀ c ∈ [Text.hexDigit (b >>> 4), Text.hexDigit (b &&& 15)],
      (hexValue? c).isSome = true ∧ c ≠ 37 ∧ c ≠ 38 ∧ c ≠ 43 ∧ c ≠ 61 := by
  obtain ⟨⟨high, hhigh⟩, ⟨low, hlow⟩, hjoin⟩ := halves_spec b
  obtain ⟨hvalue, hsigns⟩ := hexDigit_spec high
  obtain ⟨hvalue', hsigns'⟩ := hexDigit_spec low
  rw [← hhigh] at hvalue hsigns
  rw [← hlow] at hvalue' hsigns'
  refine ⟨?_, fun c hc => ?_⟩
  · rw [hexPair, hvalue, hvalue', Option.bind_some, Option.map_some, hjoin]
  · rcases List.mem_pair.mp hc with rfl | rfl
    · exact ⟨Option.isSome_iff_exists.mpr ⟨_, hvalue⟩, hsigns⟩
    · exact ⟨Option.isSome_iff_exists.mpr ⟨_, hvalue'⟩, hsigns'⟩

theorem percentDecode_cons_of_ne {a : UInt8} (h : a ≠ 37) (rest : List UInt8) :
    percentDecode (a :: rest) = a :: percentDecode rest := by
  rcases rest with _ | ⟨b, _ | ⟨c, rest⟩⟩ <;> simp [percentDecode, h]

theorem percentDecode_percentEncode (h : set 37 = true) :
    percentDecode (percentEncode set bytes) = bytes := by
  induction bytes with
  | nil => simp [percentEncode, percentDecode]
  | cons b bytes ih =>
    rw [percentEncode, List.flatMap_cons, encodeByte, ← percentEncode]
    split_ifs with hb
    · simp [percentDecode, (escape_spec b).1, ih]
    · have hne : b ≠ 37 := fun h37 => hb (h37 ▸ h)
      simp [percentDecode_cons_of_ne hne, ih]

theorem wellEscaped_percentEncode (h : set 37 = true) : wellEscaped (percentEncode set bytes) = true := by
  induction bytes with
  | nil => rfl
  | cons b bytes ih =>
    rw [percentEncode, List.flatMap_cons, encodeByte, ← percentEncode]
    split_ifs with hb
    · have hdigits := (escape_spec b).2
      simp only [List.forall_mem_cons] at hdigits
      simp [wellEscaped, hdigits, ih]
    · have hne : b ≠ 37 := fun h37 => hb (h37 ▸ h)
      simp [wellEscaped, hne, ih]

theorem notMem_percentEncode {c : UInt8} (hc : c = 38 ∨ c = 43 ∨ c = 61) (h : set c = true) :
    c ∉ percentEncode set bytes := by
  rw [percentEncode, List.mem_flatMap]
  rintro ⟨b, -, hmem⟩
  unfold encodeByte at hmem
  split_ifs at hmem with hb
  · rcases List.mem_cons.mp hmem with rfl | hmem
    · simp at hc
    · have := (escape_spec b).2 c hmem
      grind
  · simp_all

/-- **What was encoded is read back.** -/
theorem formDecode_percentEncode (hpercent : set 37 = true) (hplus : set 43 = true) :
    formDecode (percentEncode set bytes) = bytes := by
  rw [formDecode, List.map_congr_left (g := id), List.map_id, percentDecode_percentEncode hpercent]
  intro b hb
  have hne : b ≠ 43 := fun h => notMem_percentEncode (.inr (.inl rfl)) hplus (h ▸ hb)
  simp [hne]

end IpfS3.Percent
