import HashRatio.Packets

/-!
# Damaged frames

The decoder reads DATA and the two checksum bytes, high byte first, as one
codeword of 272 bits: a frame is accepted exactly when the remainder of that
string is zero. The generator is of even weight and `x` has an order above 271,
so bursts up to sixteen bits, odd numbers of flips and pairs of flips are all
seen, before `decode_pkg` has touched anything.
-/

namespace HashRatio.Corruption
open Bytes Protocol Crc16 Crc Drivers State Packets

variable {σ : Type}

/-! ### Accepted frames are codewords -/

def checked (p : Pkg) : List Byte := List.ofFn fun i : Fin 34 => p ⟨5 + i, by omega⟩

theorem checked_eq (p : Pkg) : checked p = pkgData p ++ [p 37, p 38] := by
  apply List.ext_getElem
  · simp [checked]
  · intro i h1 _
    simp only [checked, List.length_ofFn] at h1
    by_cases hi : i < 32
    · rw [List.getElem_append_left (by simpa using hi)]
      simp only [checked, pkgData, List.getElem_ofFn]
    · rw [List.getElem_append_right (by simp; omega)]
      interval_cases i
      · rfl
      · rfl

theorem rem_two (h l : Byte) : rem generator (bits [h, l]) = h ++ l := by
  apply BitVec.eq_of_getLsbD_eq
  intro i hi
  rw [rem_short generator (bits [h, l]) (by simp) i, BitVec.getLsbD_append]
  interval_cases i <;> simp [bits, byteBits, List.range_succ]

theorem rem_checked (p : Pkg) :
    rem generator (bits (checked p)) = crc16 (pkgData p) ^^^ (p 37 ++ p 38) := by
  have hlen : (bits [p 37, p 38]).length = 16 := by simp
  rw [checked_eq, bits_append, append_eq_xorBits,
    rem_xor _ _ _ (by simp only [List.length_append, List.length_replicate]),
      rem_zeros_before, hlen,
    ← crc16_eq_rem, rem_two]

/-- **The check of `decode_pkg`** asks whether bytes 5 to 38 form a codeword. -/
theorem crcOk_iff_codeword (p : Pkg) : CrcOk p ↔ rem generator (bits (checked p)) = 0 := by
  rw [crcOk_iff, rem_checked]
  constructor
  · intro h
    rw [h]
    exact BitVec.xor_self
  · intro h
    exact (BitVec.xor_eq_zero_iff.mp h).symm

/-! ### The error pattern -/

/-- Flip the bits of `e` in bytes 5 to 38. -/
def corrupt (p : Pkg) (e : Fin 34 → Byte) : Pkg :=
  fun i => if h : 5 ≤ i.val then p i ^^^ e ⟨i - 5, by omega⟩ else p i

/-- The pattern, byte 5 first and the most significant bit of a byte first. -/
def pattern (e : Fin 34 → Byte) : List Bool := bits (List.ofFn e)

@[simp] theorem pattern_length (e : Fin 34 → Byte) : (pattern e).length = 272 := by
  simp [pattern]

theorem checked_corrupt (p : Pkg) (e : Fin 34 → Byte) :
    checked (corrupt p e) = List.zipWith (· ^^^ ·) (checked p) (List.ofFn e) := by
  apply List.ext_getElem
  · simp [checked]
  · intro i _ _
    simp [checked, corrupt]

theorem bits_zipWith (as bs : List Byte) (h : as.length = bs.length) :
    bits (List.zipWith (· ^^^ ·) as bs) = xorBits (bits as) (bits bs) := by
  induction as generalizing bs with
  | nil => rfl
  | cons a as ih =>
    cases bs with
    | nil => simp at h
    | cons b bs =>
      have hrest := ih bs (by simpa using h)
      simp only [bits] at hrest
      simp only [bits, List.zipWith_cons_cons, List.flatMap_cons, byteBits_xor, hrest]
      exact (xorBits_append (byteBits a) _ (byteBits b) _ rfl).symm

theorem bits_checked_corrupt (p : Pkg) (e : Fin 34 → Byte) :
    bits (checked (corrupt p e)) = xorBits (bits (checked p)) (pattern e) := by
  rw [checked_corrupt]
  exact bits_zipWith _ _ (by simp [checked])

/-! ### The generator -/

theorem generator_odd : generator.getLsbD 0 = true := by decide

theorem generator_parity : parity generator = 1 := by decide

theorem generator_order : ∀ d, d + 1 < 272 → (mulX generator)^[d + 1] 1#16 ≠ 1#16 := by
  have hall : ∀ d < 271, (mulX generator)^[d + 1] 1#16 ≠ 1#16 := by decide +kernel
  intro d hd
  exact hall d (by omega)

theorem corrupt_not_crcOk (p : Pkg) (e : Fin 34 → Byte) (h : CrcOk p) (hne : true ∈ pattern e)
    (he : Detectable 16 (pattern e)) : ¬CrcOk (corrupt p e) := by
  -- the remainder of the sum is that of the pattern, and those patterns leave one
  rw [crcOk_iff_codeword] at h ⊢
  rw [bits_checked_corrupt]
  exact detected 15 272 generator generator_odd generator_parity generator_order
    (bits (checked p)) (pattern e) (by simp [checked]) (by simp) h hne he

/-- **Corruption is detected**: `decode_pkg` returns 1 and the state is the one before the call. -/
theorem decodePkg_corrupt (b : Board σ) (s : Fw σ) (p : Pkg) (e : Fin 34 → Byte) (h : CrcOk p)
    (hne : true ∈ pattern e) (he : Detectable 16 (pattern e)) :
    decodePkg b s (corrupt p e) = (s, true) :=
  decodePkg_reject b s _ (corrupt_not_crcOk p e h hne he)

def twoFlips : Fin 34 → Byte := fun i => if i = 31 then 0x01 else if i = 32 then 0x80 else 0

theorem decodePkg_corrupt_twoFlips :
    decodePkg (stillBoard 7) (Fw.init ()) (corrupt (hostPkg .detect 1 1 [1]) twoFlips) =
      (Fw.init (), true) :=
  decodePkg_corrupt (stillBoard 7) (Fw.init ()) (hostPkg .detect 1 1 [1]) twoFlips
    (hostPkg_crcOk _ _ _ _) (by decide +kernel) (Detectable.pair (by decide +kernel))

end HashRatio.Corruption
