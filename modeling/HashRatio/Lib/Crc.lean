import Mathlib.Algebra.BigOperators.Fin
import Mathlib.Data.List.GetD
import Mathlib.Algebra.Field.ZMod

/-!
# Cyclic codes over GF(2)

Remainders modulo a generator `x^n + g` kept in an `n`-bit register: `mulX` is
multiplication by `x`, `rem` the remainder of a bit string read as a polynomial,
highest degree first. The register update of a table-free CRC (`crcStep`) is the
same remainder of the string followed by `n` zero bits. The last section is the
classical detection theorem: bursts no longer than `n`, odd numbers of flips
(generator of even weight) and pairs of flips closer than the order of `x`.
-/

namespace HashRatio.Crc

variable {n : ℕ}

/-- Multiplication by `x` modulo `x^n + g`. -/
def mulX (g c : BitVec n) : BitVec n := (c <<< 1) ^^^ (if c.msb then g else 0#n)

def bitWord (n : ℕ) (b : Bool) : BitVec n := if b then 1#n else 0#n

def remStep (g c : BitVec n) (b : Bool) : BitVec n := mulX g c ^^^ bitWord n b

def rem (g : BitVec n) (bs : List Bool) : BitVec n := bs.foldl (remStep g) 0#n

/-- One step of the CRC register: the incoming bit meets the outgoing one. -/
def crcStep (g c : BitVec n) (b : Bool) : BitVec n := (c <<< 1) ^^^ (if c.msb ^^ b then g else 0#n)

def xorBits (as bs : List Bool) : List Bool := List.zipWith (· ^^ ·) as bs

/-! ### Linearity -/

theorem bitWord_xor (a b : Bool) : bitWord n (a ^^ b) = bitWord n a ^^^ bitWord n b := by
  cases a <;> cases b <;> simp [bitWord]

theorem ite_xor (g : BitVec n) (a b : Bool) :
    (if a ^^ b then g else 0#n) = (if a then g else 0#n) ^^^ (if b then g else 0#n) := by
  cases a <;> cases b <;> simp

theorem xor_regroup (a b c d : BitVec n) : (a ^^^ b) ^^^ (c ^^^ d) = (a ^^^ c) ^^^ (b ^^^ d) := by
  ac_rfl

theorem mulX_xor (g a b : BitVec n) : mulX g (a ^^^ b) = mulX g a ^^^ mulX g b := by
  simp only [mulX, BitVec.shiftLeft_xor_distrib, BitVec.msb_xor, ite_xor]
  exact xor_regroup _ _ _ _

theorem mulX_zero (g : BitVec n) : mulX g 0#n = 0#n := by
  simp [mulX]

theorem remStep_xor (g c d : BitVec n) (a b : Bool) :
    remStep g (c ^^^ d) (a ^^ b) = remStep g c a ^^^ remStep g d b := by
  simp only [remStep, mulX_xor, bitWord_xor]
  exact xor_regroup _ _ _ _

theorem crcStep_xor (g c d : BitVec n) (a b : Bool) :
    crcStep g (c ^^^ d) (a ^^ b) = crcStep g c a ^^^ crcStep g d b := by
  have hmsb : ((c ^^^ d).msb ^^ (a ^^ b)) = ((c.msb ^^ a) ^^ (d.msb ^^ b)) := by
    rw [BitVec.msb_xor]
    cases c.msb <;> cases d.msb <;> cases a <;> cases b <;> rfl
  simp only [crcStep, hmsb, ite_xor, BitVec.shiftLeft_xor_distrib]
  exact xor_regroup _ _ _ _

theorem foldl_xor (step : BitVec n → Bool → BitVec n)
    (hstep : ∀ c d a b, step (c ^^^ d) (a ^^ b) = step c a ^^^ step d b)
    (as bs : List Bool) (h : as.length = bs.length) (c d : BitVec n) :
    (xorBits as bs).foldl step (c ^^^ d) = as.foldl step c ^^^ bs.foldl step d := by
  induction as generalizing bs c d with
  | nil =>
    have hb : bs = [] := List.eq_nil_of_length_eq_zero h.symm
    subst hb
    rfl
  | cons a as ih =>
    cases bs with
    | nil => simp at h
    | cons b bs =>
      simp only [xorBits, List.zipWith_cons_cons, List.foldl_cons, hstep]
      exact ih bs (by simpa using h) _ _

theorem rem_xor (g : BitVec n) (as bs : List Bool) (h : as.length = bs.length) :
    rem g (xorBits as bs) = rem g as ^^^ rem g bs := by
  have hfold := foldl_xor (remStep g) (remStep_xor g) as bs h 0#n 0#n
  rwa [BitVec.xor_zero] at hfold

theorem xorBits_append (as bs cs ds : List Bool) (h : as.length = cs.length) :
    xorBits (as ++ bs) (cs ++ ds) = xorBits as cs ++ xorBits bs ds := List.zipWith_append h

theorem xorBits_zeros_right (bs : List Bool) :
    xorBits bs (List.replicate bs.length false) = bs := by
  induction bs with
  | nil => rfl
  | cons b bs ih =>
    simp only [xorBits] at ih
    simp [xorBits, List.replicate_succ, ih]

theorem xorBits_zeros_left (bs : List Bool) : xorBits (List.replicate bs.length false) bs = bs := by
  induction bs with
  | nil => rfl
  | cons b bs ih =>
    simp only [xorBits] at ih
    simp [xorBits, List.replicate_succ, ih]

theorem append_eq_xorBits (as bs : List Bool) :
    as ++ bs =
      xorBits (as ++ List.replicate bs.length false) (List.replicate as.length false ++ bs) := by
  rw [xorBits_append _ _ _ _ (by simp), xorBits_zeros_right, xorBits_zeros_left]

/-! ### Zeros before and after -/

theorem rem_append (g : BitVec n) (as bs : List Bool) :
    rem g (as ++ bs) = bs.foldl (remStep g) (rem g as) := List.foldl_append

theorem foldl_zeros (g c : BitVec n) (k : ℕ) :
    (List.replicate k false).foldl (remStep g) c = (mulX g)^[k] c := by
  induction k generalizing c with
  | zero => rfl
  | succ k ih =>
    have hstep : remStep g c false = mulX g c := by simp [remStep, bitWord]
    rw [List.replicate_succ, List.foldl_cons, hstep, ih, Function.iterate_succ_apply]

theorem iterate_mulX_zero (g : BitVec n) (k : ℕ) : (mulX g)^[k] 0#n = 0#n := by
  induction k with
  | zero => rfl
  | succ k ih => rw [Function.iterate_succ_apply, mulX_zero, ih]

theorem iterate_mulX_xor (g a b : BitVec n) (k : ℕ) :
    (mulX g)^[k] (a ^^^ b) = (mulX g)^[k] a ^^^ (mulX g)^[k] b := by
  induction k generalizing a b with
  | zero => rfl
  | succ k ih => simp only [Function.iterate_succ_apply, mulX_xor, ih]

theorem rem_zeros_after (g : BitVec n) (bs : List Bool) (k : ℕ) :
    rem g (bs ++ List.replicate k false) = (mulX g)^[k] (rem g bs) := by
  rw [rem_append, foldl_zeros]

theorem rem_zeros_before (g : BitVec n) (bs : List Bool) (k : ℕ) :
    rem g (List.replicate k false ++ bs) = rem g bs := by
  have hz : rem g (List.replicate k false) = 0#n := by
    rw [rem, foldl_zeros, iterate_mulX_zero]
  rw [rem_append, hz, rem]

/-! ### The register and the remainder -/

theorem iterate_mulX_one (g : BitVec n) (k : ℕ) (h : k < n) : (mulX g)^[k] 1#n = 1#n <<< k := by
  induction k with
  | zero => simp
  | succ k ih =>
    have hmsb : (1#n <<< k).msb = false := by
      rw [BitVec.msb_eq_getLsbD_last, BitVec.getLsbD_shiftLeft]
      have hne : n - 1 - k ≠ 0 := by omega
      simp [hne]
    rw [Function.iterate_succ_apply', ih (by omega), mulX, hmsb, ← BitVec.shiftLeft_add]
    simp

theorem iterate_mulX_width (g : BitVec n) (h : 0 < n) : (mulX g)^[n] 1#n = g := by
  obtain ⟨m, rfl⟩ : ∃ m, n = m + 1 := ⟨n - 1, by omega⟩
  have hmsb : (1#(m + 1) <<< m).msb = true := by
    simp [BitVec.msb_eq_getLsbD_last]
  have hover : 1#(m + 1) <<< m <<< 1 = 0#(m + 1) := by
    rw [← BitVec.shiftLeft_add]
    exact BitVec.shiftLeft_eq_zero (Nat.le_refl _)
  rw [Function.iterate_succ_apply', iterate_mulX_one g m (by omega), mulX, hmsb, hover]
  simp

theorem crcStep_eq (g c : BitVec n) (b : Bool) :
    crcStep g c b = mulX g c ^^^ (if b then g else 0#n) := by
  rw [crcStep, mulX, ite_xor, BitVec.xor_assoc]

theorem crc_foldl (g r : BitVec n) (h : 0 < n) (bs : List Bool) :
    bs.foldl (crcStep g) ((mulX g)^[n] r) = (mulX g)^[n] (bs.foldl (remStep g) r) := by
  induction bs generalizing r with
  | nil => rfl
  | cons b bs ih =>
    have hbit : (mulX g)^[n] (bitWord n b) = if b then g else 0#n := by
      cases b
      · exact iterate_mulX_zero g n
      · exact iterate_mulX_width g h
    have hstep : crcStep g ((mulX g)^[n] r) b = (mulX g)^[n] (remStep g r b) := by
      rw [crcStep_eq, remStep, iterate_mulX_xor, hbit, ← Function.iterate_succ_apply,
        Function.iterate_succ_apply']
    rw [List.foldl_cons, List.foldl_cons, hstep, ih]

/-- The CRC of a bit string is the remainder of the string times `x^n`. -/
theorem crc_eq_rem (g : BitVec n) (h : 0 < n) (bs : List Bool) :
    bs.foldl (crcStep g) 0#n = rem g (bs ++ List.replicate n false) := by
  have hfold := crc_foldl g 0#n h bs
  rw [iterate_mulX_zero] at hfold
  rw [hfold, rem_zeros_after, rem]

/-! ### Which error patterns leave a remainder -/

theorem mulX_eq_zero (g c : BitVec n) (hg : g.getLsbD 0 = true) (h : mulX g c = 0#n) : c = 0#n := by
  have hn : 0 < n := by
    by_contra hz
    simp [BitVec.getLsbD_of_ge g 0 (by omega)] at hg
  have hbit (i : ℕ) : (mulX g c).getLsbD i = false := by rw [h]; simp
  have hmsb : c.msb = false := by
    cases hm : c.msb
    · rfl
    · have h0 := hbit 0
      simp [mulX, hm, hg] at h0
  apply BitVec.eq_of_getLsbD_eq
  intro i hi
  have hnext := hbit (i + 1)
  simp only [mulX, hmsb, Bool.false_eq_true, if_false, BitVec.xor_zero,
    BitVec.getLsbD_shiftLeft] at hnext
  by_cases hlast : i + 1 < n
  · simpa [hlast] using hnext
  · have hi' : i = n - 1 := by omega
    subst hi'
    rw [BitVec.msb_eq_getLsbD_last] at hmsb
    simpa using hmsb

theorem iterate_mulX_eq_zero (g c : BitVec n) (hg : g.getLsbD 0 = true) (k : ℕ)
    (h : (mulX g)^[k] c = 0#n) : c = 0#n := by
  induction k with
  | zero => exact h
  | succ k ih =>
    rw [Function.iterate_succ_apply'] at h
    exact ih (mulX_eq_zero g _ hg h)

/-- A string no longer than the register is its own remainder. -/
theorem rem_short (g : BitVec n) (bs : List Bool) (h : bs.length ≤ n) (i : ℕ) :
    (rem g bs).getLsbD i = bs.reverse.getD i false := by
  induction bs using List.reverseRecOn generalizing i with
  | nil => simp [rem]
  | append_singleton bs b ih =>
    simp only [List.length_append, List.length_cons, List.length_nil] at h
    have hmsb : (rem g bs).msb = false := by
      rw [BitVec.msb_eq_getLsbD_last, ih (by omega)]
      exact List.getD_eq_default _ _ (by simp; omega)
    have hrem : rem g (bs ++ [b]) = (rem g bs <<< 1) ^^^ bitWord n b := by
      rw [rem_append]
      simp [remStep, mulX, hmsb]
    rw [hrem, List.reverse_append, BitVec.getLsbD_xor, BitVec.getLsbD_shiftLeft]
    cases i with
    | zero =>
      have hn : 0 < n := by omega
      cases b <;> simp [bitWord, hn]
    | succ i =>
      have hb : (bitWord n b).getLsbD (i + 1) = false := by cases b <;> simp [bitWord]
      have hget : ([b].reverse ++ bs.reverse).getD (i + 1) false = bs.reverse.getD i false := rfl
      rw [hget, hb, Bool.xor_false]
      by_cases hi : i + 1 < n
      · simp [hi, ih (by omega) i]
      · have hout : bs.reverse.getD i false = false := List.getD_eq_default _ _ (by simp; omega)
        rw [hout]
        simp [hi]

theorem rem_burst (g : BitVec n) (hg : g.getLsbD 0 = true) (a k : ℕ) (w : List Bool)
    (hw : w.length ≤ n) (hne : true ∈ w) :
    rem g (List.replicate a false ++ w ++ List.replicate k false) ≠ 0#n := by
  intro h
  rw [rem_zeros_after, rem_zeros_before] at h
  have hz := iterate_mulX_eq_zero g _ hg k h
  obtain ⟨i, hi, he⟩ := List.getElem_of_mem (List.mem_reverse.mpr hne)
  have hbit := rem_short g w hw i
  rw [hz, List.getD_eq_getElem _ _ hi, he] at hbit
  simp at hbit

def parity (c : BitVec n) : ZMod 2 := ∑ i : Fin n, if c.getLsbD i then 1 else 0

theorem parity_xor (a b : BitVec n) : parity (a ^^^ b) = parity a + parity b := by
  simp only [parity, ← Finset.sum_add_distrib, BitVec.getLsbD_xor]
  apply Finset.sum_congr rfl
  intro i _
  cases a.getLsbD i <;> cases b.getLsbD i <;> simp
  decide

theorem parity_shift (m : ℕ) (c : BitVec (m + 1)) :
    parity (c <<< 1) + (if c.msb then 1 else 0) = parity c := by
  have h0 : (c <<< 1).getLsbD (0 : Fin (m + 1)) = false := by simp
  have hs (i : Fin m) : (c <<< 1).getLsbD i.succ = c.getLsbD i.castSucc := by
    rw [BitVec.getLsbD_shiftLeft]
    simp
  have hlast : c.msb = c.getLsbD (Fin.last m) := by simp [BitVec.msb_eq_getLsbD_last]
  simp only [parity]
  rw [Fin.sum_univ_succ, Fin.sum_univ_castSucc, h0, hlast]
  simp only [hs, Bool.false_eq_true, if_false, zero_add]

theorem parity_mulX (m : ℕ) (g c : BitVec (m + 1)) (hg : parity g = 1) :
    parity (mulX g c) = parity c := by
  have hshift := parity_shift m c
  cases hm : c.msb
  · simpa [mulX, hm, parity_xor] using hshift
  · simpa [mulX, hm, parity_xor, hg] using hshift

theorem parity_bitWord (m : ℕ) (b : Bool) : parity (bitWord (m + 1) b) = if b then 1 else 0 := by
  cases b
  · simp [parity, bitWord]
  · simp [parity, bitWord]

theorem parity_rem (m : ℕ) (g : BitVec (m + 1)) (hg : parity g = 1) (bs : List Bool) :
    parity (rem g bs) = (bs.count true : ℕ) := by
  induction bs using List.reverseRecOn with
  | nil => simp [rem, parity]
  | append_singleton bs b ih =>
    have hrem : rem g (bs ++ [b]) = mulX g (rem g bs) ^^^ bitWord (m + 1) b := by
      rw [rem_append]
      rfl
    rw [hrem, parity_xor, parity_mulX m g _ hg, ih, parity_bitWord, List.count_append]
    cases b <;> simp

theorem rem_odd (m : ℕ) (g : BitVec (m + 1)) (hg : parity g = 1) (bs : List Bool)
    (h : bs.count true % 2 = 1) : rem g bs ≠ 0#(m + 1) := by
  intro hz
  have hpar := parity_rem m g hg bs
  rw [hz] at hpar
  have hzero : parity 0#(m + 1) = 0 := by simp [parity]
  rw [hzero, ← Nat.mod_add_div (bs.count true) 2, h] at hpar
  revert hpar
  push_cast
  rw [show (2 : ZMod 2) = 0 from rfl, zero_mul, add_zero]
  decide

theorem eq_replicate_of_count (bs : List Bool) (h : bs.count true = 0) :
    bs = List.replicate bs.length false := by
  apply List.eq_replicate_of_mem
  intro b hb
  cases b
  · rfl
  · exact absurd hb (List.count_eq_zero.mp h)

theorem split_first (bs : List Bool) (k : ℕ) (h : bs.count true = k + 1) :
    ∃ a rest, bs = List.replicate a false ++ true :: rest ∧ rest.count true = k := by
  induction bs with
  | nil => simp at h
  | cons b bs ih =>
    cases b
    · obtain ⟨a, rest, hbs, hrest⟩ := ih (by simpa using h)
      exact ⟨a + 1, rest, by rw [hbs]; rfl, hrest⟩
    · exact ⟨0, bs, rfl, by simpa using h⟩

theorem rem_pair (g : BitVec n) (hg : g.getLsbD 0 = true) (L : ℕ)
    (horder : ∀ d, d + 1 < L → (mulX g)^[d + 1] 1#n ≠ 1#n) (bs : List Bool)
    (hlen : bs.length ≤ L) (h : bs.count true = 2) : rem g bs ≠ 0#n := by
  obtain ⟨a, r1, rfl, h1⟩ := split_first bs 1 h
  obtain ⟨d, r2, rfl, h2⟩ := split_first r1 0 h1
  rw [eq_replicate_of_count r2 h2] at hlen ⊢
  simp only [List.length_append, List.length_replicate, List.length_cons] at hlen
  intro hz
  -- the zeros around the pair do not matter, what is left is `x^(d+1) + 1`
  have hshape :
      List.replicate a false ++ true ::
        (List.replicate d false ++ true :: List.replicate r2.length false) =
      List.replicate a false ++
        ((true :: (List.replicate d false ++ [true])) ++ List.replicate r2.length false) := by
    simp
  rw [hshape, rem_zeros_before, rem_zeros_after] at hz
  have hcore := iterate_mulX_eq_zero g _ hg _ hz
  have hone : rem g [true] = 1#n := by
    simp [rem, remStep, bitWord, mulX_zero]
  have hrem : rem g (true :: (List.replicate d false ++ [true])) =
      (mulX g)^[d + 1] 1#n ^^^ 1#n := by
    rw [show true :: (List.replicate d false ++ [true]) =
      ([true] ++ List.replicate d false) ++ [true] from rfl,
      rem_append, rem_zeros_after, hone]
    simp [remStep, bitWord, Function.iterate_succ_apply']
  rw [hrem] at hcore
  exact horder d (by omega) (BitVec.xor_eq_zero_iff.mp hcore)

/-- The error patterns a cyclic code is used for. -/
inductive Detectable (n : ℕ) (e : List Bool) : Prop where
  | burst (a k : ℕ) (w : List Bool)
      (shape : e = List.replicate a false ++ w ++ List.replicate k false)
      (short : w.length ≤ n)
  | odd (h : e.count true % 2 = 1)
  | pair (h : e.count true = 2)

/-- A non-empty detectable pattern turns no codeword into another one. -/
theorem detected (m L : ℕ) (g : BitVec (m + 1)) (hg : g.getLsbD 0 = true) (hpar : parity g = 1)
    (horder : ∀ d, d + 1 < L → (mulX g)^[d + 1] 1#(m + 1) ≠ 1#(m + 1))
    (cw e : List Bool) (hlen : cw.length = e.length) (hL : e.length ≤ L)
    (hcw : rem g cw = 0#(m + 1)) (hne : true ∈ e) (he : Detectable (m + 1) e) :
    rem g (xorBits cw e) ≠ 0#(m + 1) := by
  rw [rem_xor g cw e hlen, hcw, BitVec.zero_xor]
  cases he with
  | burst a k w shape short =>
    have hw : true ∈ w := by
      rw [shape] at hne
      simpa using hne
    rw [shape]
    exact rem_burst g hg a k w short hw
  | odd h => exact rem_odd m g hpar e h
  | pair h => exact rem_pair g hg L horder e hL h

end HashRatio.Crc
