import HashRatio.Lib.Crc
import Mathlib.Algebra.Polynomial.Div
import Mathlib.Algebra.Polynomial.OfFn

/-!
# The remainder as a polynomial

Words and bit strings as polynomials over GF(2). The register of a cyclic code
holds the remainder of the string modulo its generator.
-/

namespace HashRatio.Crc
open Polynomial

variable {n : ℕ}

def bit (b : Bool) : ZMod 2 := if b then 1 else 0

theorem bit_xor (a b : Bool) : bit (a ^^ b) = bit a + bit b := by
  cases a <;> cases b <;> decide

theorem bit_add_self (a : Bool) : bit a + bit a = 0 := by
  cases a <;> decide

theorem bit_and (a b : Bool) : bit (a && b) = bit a * bit b := by
  cases a <;> cases b <;> decide

/-- Bit `i` is the coefficient of `X ^ i`. -/
noncomputable def wordPoly (c : BitVec n) : (ZMod 2)[X] := ofFn n fun i => bit (c.getLsbD i)

/-- A bit string, highest degree first. -/
noncomputable def bitsPoly (bs : List Bool) : (ZMod 2)[X] :=
  bs.foldl (fun p b => p * X + C (bit b)) 0

/-- The generator with its leading term. -/
noncomputable def genPoly (g : BitVec n) : (ZMod 2)[X] := X ^ n + wordPoly g

theorem wordPoly_coeff (c : BitVec n) (i : ℕ) : (wordPoly c).coeff i = bit (c.getLsbD i) := by
  by_cases hi : i < n
  · exact ofFn_coeff_eq_val_of_lt _ hi
  · rw [wordPoly, ofFn_coeff_eq_zero_of_ge _ (by omega), BitVec.getLsbD_of_ge _ _ (by omega)]
    rfl

theorem wordPoly_degree_lt (c : BitVec n) : (wordPoly c).degree < n := ofFn_degree_lt _

theorem wordPoly_xor (a b : BitVec n) : wordPoly (a ^^^ b) = wordPoly a + wordPoly b := by
  ext i
  rw [coeff_add, wordPoly_coeff, wordPoly_coeff, wordPoly_coeff, BitVec.getLsbD_xor, bit_xor]

theorem genPoly_monic (g : BitVec n) : (genPoly g).Monic := monic_X_pow_add (wordPoly_degree_lt g)

theorem genPoly_degree (g : BitVec n) : (genPoly g).degree = n := by
  rw [genPoly, degree_add_eq_left_of_degree_lt]
  · exact degree_X_pow n
  · rw [degree_X_pow]
    exact wordPoly_degree_lt g

theorem bitsPoly_append (bs : List Bool) (b : Bool) :
    bitsPoly (bs ++ [b]) = bitsPoly bs * X + C (bit b) := by
  rw [bitsPoly, List.foldl_append]
  rfl

theorem bitsPoly_zeros (bs : List Bool) (k : ℕ) :
    bitsPoly (bs ++ List.replicate k false) = bitsPoly bs * X ^ k := by
  induction k with
  | zero => rw [List.replicate_zero, List.append_nil, pow_zero, mul_one]
  | succ k ih =>
    have hzero : C (bit false) = 0 := C_0
    rw [List.replicate_succ', ← List.append_assoc, bitsPoly_append, ih, hzero, add_zero,
      pow_succ, mul_assoc]

theorem wordPoly_bitWord (h : 0 < n) (b : Bool) : wordPoly (bitWord n b) = C (bit b) := by
  ext i
  rw [wordPoly_coeff, coeff_C]
  cases b with
  | false =>
    rw [bitWord, if_neg Bool.false_ne_true, BitVec.getLsbD_zero]
    split <;> rfl
  | true =>
    rw [bitWord, if_pos rfl, BitVec.getLsbD_one]
    cases i with
    | zero => simp [h]
    | succ i => simp [bit]

/-- The term that is shifted out. -/
theorem wordPoly_shiftLeft (c : BitVec n) :
    wordPoly (c <<< 1) + C (bit c.msb) * X ^ n = wordPoly c * X := by
  ext i
  rw [coeff_add, coeff_C_mul, coeff_X_pow, wordPoly_coeff, BitVec.getLsbD_shiftLeft,
    BitVec.msb_eq_getLsbD_last]
  cases i with
  | zero =>
    rw [coeff_mul_X_zero]
    by_cases hn : n = 0
    · subst hn
      simp [bit]
    · simp [bit, Ne.symm hn]
  | succ i =>
    rw [coeff_mul_X, wordPoly_coeff]
    rcases Nat.lt_trichotomy (i + 1) n with hlt | rfl | hgt
    · simp [bit, hlt, Nat.ne_of_lt hlt]
    · simp [bit]
    · have hout : c.getLsbD i = false := BitVec.getLsbD_of_ge c i (by omega)
      simp [bit, hout, Nat.ne_of_gt hgt, Nat.not_lt_of_gt hgt]

/-- Multiplying by `X` takes the generator away when a term of degree `n` appears. -/
theorem wordPoly_mulX (g c : BitVec n) :
    wordPoly (mulX g c) + genPoly g * C (bit c.msb) = wordPoly c * X := by
  have hmask : wordPoly (if c.msb then g else 0#n) = wordPoly g * C (bit c.msb) := by
    ext i
    rw [coeff_mul_C, wordPoly_coeff, wordPoly_coeff, ← bit_and]
    cases c.msb <;> simp
  have hdouble : wordPoly g * C (bit c.msb) + wordPoly g * C (bit c.msb) = 0 := by
    rw [← mul_add, ← C_add, bit_add_self, C_0, mul_zero]
  calc wordPoly (mulX g c) + genPoly g * C (bit c.msb)
      = wordPoly (c <<< 1) + C (bit c.msb) * X ^ n +
        (wordPoly g * C (bit c.msb) + wordPoly g * C (bit c.msb)) := by
        rw [mulX, wordPoly_xor, hmask, genPoly]
        ring
    _ = wordPoly c * X := by rw [wordPoly_shiftLeft, hdouble, add_zero]

/-- **The remainder in the register is the remainder of the polynomial.** -/
theorem wordPoly_rem (g : BitVec n) (h : 0 < n) (bs : List Bool) :
    wordPoly (rem g bs) = bitsPoly bs %ₘ genPoly g := by
  induction bs using List.reverseRecOn with
  | nil =>
    have hzero : wordPoly (rem g []) = 0 := by
      ext i
      rw [wordPoly_coeff, rem, List.foldl_nil, BitVec.getLsbD_zero]
      rfl
    rw [hzero, bitsPoly, List.foldl_nil, zero_modByMonic]
  | append_singleton bs b ih =>
    have hmonic := genPoly_monic g
    have hstep : wordPoly (rem g (bs ++ [b])) = wordPoly (mulX g (rem g bs)) + C (bit b) := by
      rw [rem_append, List.foldl_cons, List.foldl_nil, remStep, wordPoly_xor, wordPoly_bitWord h]
    have hdivide := modByMonic_add_div (bitsPoly bs) (genPoly g)
    refine ((div_modByMonic_unique (bitsPoly bs /ₘ genPoly g * X + C (bit (rem g bs).msb))
      _ hmonic ⟨?_, ?_⟩).2).symm
    · calc wordPoly (rem g (bs ++ [b])) + genPoly g *
          (bitsPoly bs /ₘ genPoly g * X + C (bit (rem g bs).msb))
          = wordPoly (mulX g (rem g bs)) + genPoly g * C (bit (rem g bs).msb) +
              genPoly g * (bitsPoly bs /ₘ genPoly g) * X + C (bit b) := by
            rw [hstep]
            ring
        _ = (bitsPoly bs %ₘ genPoly g + genPoly g * (bitsPoly bs /ₘ genPoly g)) *
          X + C (bit b) := by
            rw [wordPoly_mulX, ih]
            ring
        _ = bitsPoly (bs ++ [b]) := by rw [hdivide, bitsPoly_append]
    · rw [genPoly_degree]
      exact wordPoly_degree_lt _

end HashRatio.Crc
