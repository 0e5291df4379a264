import HashRatio.Crc16
import HashRatio.Lib.CrcPoly

/-!
# crc16 as division of polynomials

A buffer is a polynomial over GF(2), the first byte's most significant bit first.
-/

namespace HashRatio.Crc16
open Bytes Crc Polynomial

theorem genPoly_generator : genPoly generator = X ^ 16 + X ^ 12 + X ^ 5 + 1 := by
  have hword : wordPoly generator = X ^ 12 + X ^ 5 + 1 := by
    ext i
    rw [wordPoly_coeff, coeff_add, coeff_add, coeff_X_pow, coeff_X_pow, coeff_one]
    by_cases hi : i < 16
    · interval_cases i <;> decide
    · rw [BitVec.getLsbD_of_ge _ _ (by omega), if_neg (by omega), if_neg (by omega),
        if_neg (by omega)]
      decide
  rw [genPoly, hword, ← add_assoc, ← add_assoc]

/-- The byte that the register meets clears its high half. -/
theorem crc16Step_high (c : Reg) : crc16Step c ((c >>> 8).setWidth 8) = c <<< 8 := by
  have hhigh : (((c >>> 8).setWidth 8 : Byte).setWidth 16 : Reg) = c >>> 8 := by
    apply BitVec.eq_of_getLsbD_eq
    intro i hi
    simp only [BitVec.getLsbD_setWidth, BitVec.getLsbD_ushiftRight]
    interval_cases i <;> simp
  rw [crc16Step, hhigh, BitVec.xor_self, BitVec.zero_and]
  exact BitVec.zero_xor

theorem crc16Step_low (c : Reg) : crc16Step (c <<< 8) (c.setWidth 8) = 0 := by
  have hlow : (c <<< 8 >>> 8).setWidth 8 = c.setWidth 8 := by
    apply BitVec.eq_of_getLsbD_eq
    intro i hi
    simp only [BitVec.getLsbD_setWidth, BitVec.getLsbD_ushiftRight, BitVec.getLsbD_shiftLeft]
    interval_cases i <;> simp
  rw [← hlow, crc16Step_high, ← BitVec.shiftLeft_add]
  exact BitVec.shiftLeft_eq_zero (Nat.le_refl 16)

/-- **`crc16` is the remainder of the buffer times `X ^ 16`; with it at the end, high byte first,
the remainder is zero.** -/
theorem crc16_remainder (buffer : List Byte) :
    wordPoly (crc16 buffer) = (bitsPoly (bits buffer) * X ^ 16) %ₘ (X ^ 16 + X ^ 12 + X ^ 5 + 1) ∧
      crc16 (buffer ++ [(crc16 buffer >>> 8).setWidth 8, (crc16 buffer).setWidth 8]) = 0 := by
  constructor
  · rw [← genPoly_generator, ← bitsPoly_zeros, crc16_eq_rem]
    exact wordPoly_rem generator (by decide) _
  · have hsplit : crc16 (buffer ++ [(crc16 buffer >>> 8).setWidth 8, (crc16 buffer).setWidth 8]) =
        crc16Step (crc16Step (crc16 buffer) ((crc16 buffer >>> 8).setWidth 8))
          ((crc16 buffer).setWidth 8) :=
      List.foldl_append
    rw [hsplit, crc16Step_high, crc16Step_low]

end HashRatio.Crc16
