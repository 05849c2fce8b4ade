import Mathlib.Data.UInt

/-!
# Words in Two Halves

A 64-bit word that is read or written as two 32-bit words. `join` puts the halves together
as C code does, with a shift and an or; on numbers this is `high * 2 ^ 32 + low`, so
comparisons of words become comparisons of their halves (`join_le_join`), and two words
with the same high half differ in the low half only. Halves that are signed are joined by the
same expression with another result, in the last section.
-/

namespace Egos.Lib

def lowHalf (x : UInt64) : UInt32 := x.toUInt32

def highHalf (x : UInt64) : UInt32 := (x >>> 32).toUInt32

def join (high low : UInt32) : UInt64 := (high.toUInt64 <<< 32) ||| low.toUInt64

theorem toNat_lowHalf (x : UInt64) : (lowHalf x).toNat = x.toNat % 2 ^ 32 :=
  UInt64.toNat_toUInt32 x

theorem toNat_highHalf (x : UInt64) : (highHalf x).toNat = x.toNat / 2 ^ 32 := by
  have hx := x.toNat_lt
  have hshift : (x >>> 32).toNat = x.toNat / 2 ^ 32 := by
    rw [UInt64.toNat_shiftRight, Nat.shiftRight_eq_div_pow]
    rfl
  rw [highHalf, UInt64.toNat_toUInt32, hshift]
  omega

theorem toNat_join (high low : UInt32) :
    (join high low).toNat = high.toNat * 2 ^ 32 + low.toNat := by
  have hhigh := high.toNat_lt
  have hlow := low.toNat_lt
  have hshift : (high.toUInt64 <<< 32).toNat = high.toNat <<< 32 := by
    rw [UInt64.toNat_shiftLeft, UInt32.toNat_toUInt64]
    show high.toNat <<< 32 % 2 ^ 64 = high.toNat <<< 32
    rw [Nat.shiftLeft_eq]
    omega
  rw [join, UInt64.toNat_or, hshift, UInt32.toNat_toUInt64,
    ← Nat.shiftLeft_add_eq_or_of_lt hlow, Nat.shiftLeft_eq]

@[simp] theorem join_halves (x : UInt64) : join (highHalf x) (lowHalf x) = x := by
  rw [← UInt64.toNat_inj, toNat_join, toNat_highHalf, toNat_lowHalf]
  omega

theorem highHalf_mono {x y : UInt64} (h : x ≤ y) : highHalf x ≤ highHalf y := by
  rw [UInt64.le_iff_toNat_le] at h
  rw [UInt32.le_iff_toNat_le, toNat_highHalf, toNat_highHalf]
  omega

theorem join_le_join {high high' low low' : UInt32} (hhigh : high ≤ high') (hlow : low ≤ low') :
    join high low ≤ join high' low' := by
  rw [UInt32.le_iff_toNat_le] at hhigh hlow
  rw [UInt64.le_iff_toNat_le, toNat_join, toNat_join]
  omega

/-- No word is above one with the largest high half and its own low half. -/
theorem join_le_join_max (high low : UInt32) : join high low ≤ join 0xFFFFFFFF low := by
  apply join_le_join _ (UInt32.le_refl low)
  have hlt := high.toNat_lt
  rw [UInt32.le_iff_toNat_le]
  show high.toNat ≤ 2 ^ 32 - 1
  omega

/-! ## Signed halves

The same shift and or on halves that are extended with their sign: a low half with its top
bit clear is joined as before, a negative one overwrites the high half with ones. -/

theorem signExtend_or_of_msb {high low : BitVec 32} (h : low.msb = true) :
    high.signExtend 64 <<< 32 ||| low.signExtend 64 = low.signExtend 64 := by
  ext i hi
  simp only [BitVec.getElem_or, BitVec.getElem_shiftLeft, BitVec.getElem_signExtend, h]
  by_cases hlow : i < 32
  · simp [hlow]
  · simp [hlow]

theorem signExtend_or_of_not_msb {high low : BitVec 32} (h : low.msb = false) :
    high.signExtend 64 <<< 32 ||| low.signExtend 64 = high ++ low := by
  ext i hi
  simp only [BitVec.getElem_or, BitVec.getElem_shiftLeft, BitVec.getElem_signExtend, h]
  rw [BitVec.getElem_append]
  by_cases hlow : i < 32
  · simp [hlow]
  · have hhigh : i - 32 < 32 := by omega
    simp [hlow, hhigh]

end Egos.Lib
