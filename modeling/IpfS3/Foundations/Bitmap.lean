import Mathlib

/-!
# Big-endian bitmaps

A bitmap is a list of bytes whose last byte holds the bits `0` to `7`.  `mark` sets one bit,
`isMarked` reads one, and leading zero bytes do not matter (`isMarked_trim`).
-/

namespace IpfS3.Bitmap

open List Option

/-- Sets a bit. -/
def mark (bits : List UInt8) (b : UInt8) : List UInt8 :=
  bits.modify (bits.length - 1 - (b / 8).toNat) fun byte => byte ||| (1 <<< (b % 8))

/-- Whether a bit is set. -/
def isMarked (bits : List UInt8) (b : UInt8) : Bool :=
  (bits.reverse.getD (b / 8).toNat 0).toNat.testBit (b % 8).toNat

/-- A bitmap without its leading zero bytes. -/
def trim (bits : List UInt8) : List UInt8 := bits.drop (bits.findIdx fun byte => byte != 0)

theorem length_mark (bits : List UInt8) (b : UInt8) : (mark bits b).length = bits.length :=
  length_modify _ _ _

theorem toNat_shift (a : UInt8) : ((1 : UInt8) <<< (a % 8)).toNat = 2 ^ (a.toNat % 8) := by
  have hlt : a.toNat % 8 < 8 := Nat.mod_lt _ (by decide)
  have hpow : 2 ^ (a.toNat % 8) < 2 ^ 8 := Nat.pow_lt_pow_right (by decide) hlt
  rw [UInt8.toNat_shiftLeft, UInt8.toNat_mod]
  have hone : (1 : UInt8).toNat = 1 := rfl
  have height : (8 : UInt8).toNat = 8 := rfl
  rw [hone, height, Nat.mod_mod, Nat.one_shiftLeft, Nat.mod_eq_of_lt hpow]

theorem eq_iff_div_mod {a b : UInt8} :
    a = b ↔ a.toNat / 8 = b.toNat / 8 ∧ a.toNat % 8 = b.toNat % 8 := by
  rw [← UInt8.toNat_inj]
  omega

/-- **Setting a bit** sets that bit only. -/
theorem isMarked_mark {bits : List UInt8} (h : bits.length = 32) (a b : UInt8) :
    isMarked (mark bits a) b = (a == b || isMarked bits b) := by
  have ha : a.toNat / 8 < 32 := by
    have := a.toNat_lt
    omega
  have hb : b.toNat / 8 < 32 := by
    have := b.toNat_lt
    omega
  have hdiv : ∀ c : UInt8, (c / 8).toNat = c.toNat / 8 := fun c => UInt8.toNat_div c 8
  have hmod : (b % 8).toNat = b.toNat % 8 := UInt8.toNat_mod b 8
  rw [isMarked, isMarked, getD_eq_getElem?_getD, getD_eq_getElem?_getD, hdiv, hmod,
    getElem?_reverse (by rw [length_mark, h]; exact hb),
    getElem?_reverse (by rw [h]; exact hb), length_mark, h, mark, h, hdiv,
    getElem?_modify]
  have hget : bits[32 - 1 - b.toNat / 8]? = some (bits[32 - 1 - b.toNat / 8]) :=
    getElem?_eq_getElem (by omega)
  rw [hget, Option.map_eq_map, Option.map_some, Option.getD_some, Option.getD_some]
  split_ifs with hbyte
  · have hbyte' : a.toNat / 8 = b.toNat / 8 := by omega
    rw [UInt8.toNat_or, Nat.testBit_or, toNat_shift, Nat.testBit_two_pow, Bool.or_comm]
    congr 1
    rw [Bool.eq_iff_iff, decide_eq_true_iff, beq_iff_eq, eq_iff_div_mod]
    exact ⟨fun hmod => ⟨hbyte', hmod⟩, And.right⟩
  · have hne : (a == b) = false := by
      rw [beq_eq_false_iff_ne]
      rintro rfl
      exact hbyte rfl
    rw [hne, Bool.false_or]

theorem getD_replicate_zero (n i : ℕ) : (replicate n (0 : UInt8)).getD i 0 = 0 := by
  by_cases hi : i < n
  · exact getD_replicate 0 hi
  · exact getD_eq_default _ _ (by rw [length_replicate]; exact not_lt.mp hi)

theorem isMarked_replicate (n : ℕ) (b : UInt8) : isMarked (replicate n 0) b = false := by
  rw [isMarked, reverse_replicate, getD_replicate_zero]
  exact Nat.zero_testBit _

theorem getD_append_replicate (l : List UInt8) (n i : ℕ) :
    (l ++ replicate n 0).getD i 0 = l.getD i 0 := by
  by_cases hi : i < l.length
  · exact getD_append _ _ _ _ hi
  · rw [getD_append_right _ _ _ _ (not_lt.mp hi), getD_replicate_zero,
      getD_eq_default _ _ (not_lt.mp hi)]

/-- **Trimming** keeps every bit. -/
theorem isMarked_trim (bits : List UInt8) (b : UInt8) :
    isMarked (trim bits) b = isMarked bits b := by
  have hzeros : ∃ n, bits = replicate n 0 ++ trim bits := by
    refine ⟨(bits.take (bits.findIdx fun byte => byte != 0)).length, ?_⟩
    have hreplicate : bits.take (bits.findIdx fun byte => byte != 0) =
        replicate (bits.take (bits.findIdx fun byte => byte != 0)).length 0 := by
      rw [eq_replicate_iff]
      refine ⟨rfl, fun byte hbyte => ?_⟩
      obtain ⟨i, hi, rfl⟩ := mem_take_iff_getElem.mp hbyte
      have hnot := not_of_lt_findIdx (lt_of_lt_of_le hi (min_le_left _ _))
      simpa using hnot
    rw [← hreplicate, trim, take_append_drop]
  obtain ⟨n, hn⟩ := hzeros
  have hreverse : bits.reverse = (trim bits).reverse ++ replicate n 0 := by
    conv_lhs => rw [hn]
    rw [reverse_append, reverse_replicate]
  rw [isMarked, isMarked, hreverse, getD_append_replicate]

end IpfS3.Bitmap
