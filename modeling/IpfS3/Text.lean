import IpfS3.Foundations.PrefixOrder

/-!
# Texts as byte strings

A Rust `String` is the list of its UTF-8 bytes.  UTF-8 is self-synchronising, so searching,
stripping a prefix and slicing at a match do the same on bytes as on characters, and comparing
bytes is the order both databases use for a key.
-/

namespace IpfS3

instance instLinearOrderUInt8 : LinearOrder UInt8 where
  le_refl := UInt8.le_refl
  le_trans _ _ _ := UInt8.le_trans
  le_antisymm _ _ := UInt8.le_antisymm
  le_total := UInt8.le_total
  lt_iff_le_not_ge a b := by
    rw [UInt8.not_le]
    exact ⟨fun h => ⟨UInt8.le_of_lt h, h⟩, fun h => h.2⟩
  toDecidableLE := inferInstance
  toDecidableEq := inferInstance
  toDecidableLT := inferInstance

abbrev Text := List UInt8

namespace Text

def ascii (cs : List Char) : Text := cs.map fun c => UInt8.ofNat c.toNat

/-- The upper-case hexadecimal digit of a number below sixteen. -/
def hexDigit (n : UInt8) : UInt8 := if n < 10 then 48 + n else 55 + n

/-- The value of an upper-case hexadecimal digit. -/
def hexValue (c : UInt8) : UInt8 := if c < 65 then c - 48 else c - 55

theorem hexValue_hexDigit (b : UInt8) :
    hexValue (hexDigit (b >>> 4)) <<< 4 ||| hexValue (hexDigit (b &&& 15)) = b := by
  have hvalue : ∀ n : Fin 256, hexValue (hexDigit (UInt8.ofFin n >>> 4)) <<< 4 |||
      hexValue (hexDigit (UInt8.ofFin n &&& 15)) = UInt8.ofFin n := by decide +kernel
  have hb := hvalue b.toFin
  rwa [UInt8.ofFin_toFin] at hb

def startsWith (s p : Text) : Bool := p.isPrefixOf s

def stripPrefix (s p : Text) : Option Text := if p <+: s then some (s.drop p.length) else none

/-- `str::find`: the first byte position at which `d` starts. -/
def find (s d : Text) : Option ℕ := PrefixOrder.firstOccurrence d s

/-- A text up to its first NUL, which is all that the text functions of SQLite read of it. -/
def untilNul (s : Text) : Text := s.takeWhile (· != 0)

@[simp] theorem startsWith_iff {s p : Text} : startsWith s p = true ↔ p <+: s :=
  List.isPrefixOf_iff_prefix

theorem not_mem_untilNul (s : Text) : 0 ∉ untilNul s :=
  fun h => absurd (List.mem_takeWhile_imp h) (by decide)

theorem untilNul_append {p : Text} (h : 0 ∉ p) (t : Text) :
    untilNul (p ++ t) = p ++ untilNul t :=
  List.takeWhile_append_of_pos fun _ hc => bne_iff_ne.mpr fun h0 => h (h0 ▸ hc)

theorem untilNul_of_not_mem {p : Text} (h : 0 ∉ p) : untilNul p = p := by
  rw [← List.append_nil p, untilNul_append h]
  rfl

theorem isPrefix_untilNul_iff {p s : Text} (h : 0 ∉ p) : p <+: untilNul s ↔ p <+: s := by
  refine ⟨fun hp => hp.trans (List.takeWhile_prefix _), ?_⟩
  rintro ⟨t, rfl⟩
  rw [untilNul_append h]
  exact List.prefix_append _ _

theorem stripPrefix_eq_some_iff {s p r : Text} : stripPrefix s p = some r ↔ s = p ++ r := by
  rw [stripPrefix]
  constructor
  · intro h
    split_ifs at h with hp
    obtain ⟨t, rfl⟩ := hp
    rw [List.drop_left] at h
    rw [Option.some.inj h]
  · rintro rfl
    rw [if_pos (List.prefix_append p r), List.drop_left]

theorem stripPrefix_eq_none_iff {s p : Text} : stripPrefix s p = none ↔ ¬p <+: s := by
  rw [stripPrefix]
  split_ifs with hp
  · simp [hp]
  · simp [hp]

end Text
end IpfS3
