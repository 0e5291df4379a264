import HashRatio.Lib.Sha256

/-!
# sha_core.v

The SHA-256 core clock by clock. A word is taken with `vld` in rounds 0 to 15;
the rest of a block runs by itself. `Wt` and `Kt` are registered one round ahead of
the working variables, and the schedule slides through fifteen registers.
-/

namespace HashRatio.ShaCore
open Bytes Sha256

/-! ### Registers and wires -/

/-- `hReg` are H0..H7, `abc` the working variables A..H, `w` the registers W0..W14. -/
structure Core where
  round : ℕ
  busy : Bool
  hReg : Chain
  w : ℕ → Word
  wt : Word
  kt : Word
  abc : Chain
  a0 : Word
  a1 : Word
  a2 : Word
  e0 : Word
  e1 : Word
  e2 : Word
  done : Bool

/-- `shaH` are SHA256_H0..SHA256_H7. -/
structure Pins where
  rst : Bool
  shaH : Chain
  init : Bool
  vld : Bool
  din : Word

def f1 (e f g : Word) : Word := (e &&& f) ^^^ (~~~e &&& g)
def f2 (a b c : Word) : Word := (a &&& b) ^^^ (b &&& c) ^^^ (a &&& c)

def f3 (a : Word) : Word :=
  (a.extractLsb 1 0 ++ a.extractLsb 31 2) ^^^ (a.extractLsb 12 0 ++ a.extractLsb 31 13) ^^^
    (a.extractLsb 21 0 ++ a.extractLsb 31 22)

def f4 (e : Word) : Word :=
  (e.extractLsb 5 0 ++ e.extractLsb 31 6) ^^^ (e.extractLsb 10 0 ++ e.extractLsb 31 11) ^^^
    (e.extractLsb 24 0 ++ e.extractLsb 31 25)

def f5 (w1 : Word) : Word :=
  (w1.extractLsb 6 0 ++ w1.extractLsb 31 7) ^^^ (w1.extractLsb 17 0 ++ w1.extractLsb 31 18) ^^^
    ((0 : BitVec 3) ++ w1.extractLsb 31 3)

def f6 (w14 : Word) : Word :=
  (w14.extractLsb 16 0 ++ w14.extractLsb 31 17) ^^^
    (w14.extractLsb 18 0 ++ w14.extractLsb 31 19) ^^^
    ((0 : BitVec 10) ++ w14.extractLsb 31 10)

section wires
variable (c : Core)

def t1 : Word := c.abc.h + f4 c.abc.e + f1 c.abc.e c.abc.f c.abc.g + c.kt + c.wt
def t2 : Word := f3 c.abc.a + f2 c.abc.a c.abc.b c.abc.c
def nextWt : Word := f6 (c.w 14) + c.w 9 + f5 (c.w 1) + c.w 0
def nextE : Word := c.abc.d + t1 c
def nextA : Word := t1 c + t2 c

def shifted : Chain := ⟨nextA c, c.abc.a, c.abc.b, c.abc.c, nextE c, c.abc.e, c.abc.f, c.abc.g⟩

end wires

def kTable : List Word := [
  0x428a2f98, 0x71374491, 0xb5c0fbcf, 0xe9b5dba5, 0x3956c25b, 0x59f111f1, 0x923f82a4, 0xab1c5ed5,
  0xd807aa98, 0x12835b01, 0x243185be, 0x550c7dc3, 0x72be5d74, 0x80deb1fe, 0x9bdc06a7, 0xc19bf174,
  0xe49b69c1, 0xefbe4786, 0x0fc19dc6, 0x240ca1cc, 0x2de92c6f, 0x4a7484aa, 0x5cb0a9dc, 0x76f988da,
  0x983e5152, 0xa831c66d, 0xb00327c8, 0xbf597fc7, 0xc6e00bf3, 0xd5a79147, 0x06ca6351, 0x14292967,
  0x27b70a85, 0x2e1b2138, 0x4d2c6dfc, 0x53380d13, 0x650a7354, 0x766a0abb, 0x81c2c92e, 0x92722c85,
  0xa2bfe8a1, 0xa81a664b, 0xc24b8b70, 0xc76c51a3, 0xd192e819, 0xd6990624, 0xf40e3585, 0x106aa070,
  0x19a4c116, 0x1e376c08, 0x2748774c, 0x34b0bcb5, 0x391c0cb3, 0x4ed8aa4a, 0x5b9cca4f, 0x682e6ff3,
  0x748f82ee, 0x78a5636f, 0x84c87814, 0x8cc70208, 0x90befffa, 0xa4506ceb, 0xbef9a3f7, 0xc67178f2]

/-! ### The clock -/

/-- Rounds 0 to 15 with `vld`: the word is stored, and from round 1 on the one before is worked
in. -/
def takeWord (c : Core) (din : Word) : Core :=
  {c with
    round := c.round + 1
    busy := if c.round = 0 then true else c.busy
    w := fun k => if k = c.round ∧ c.round < 15 then din else c.w k
    wt := din
    abc := if c.round = 0 then c.abc else shifted c
    a0 := if c.round = 1 then nextA c else c.a0
    e0 := if c.round = 1 then nextE c else c.e0
    a1 := if c.round = 2 then nextA c else c.a1
    e1 := if c.round = 2 then nextE c else c.e1
    a2 := if c.round = 3 then nextA c else c.a2
    e2 := if c.round = 3 then nextE c else c.e2}

/-- Rounds 16 to 63. -/
def slide (c : Core) : Core :=
  {c with
    round := c.round + 1
    w := fun k => if k = 14 then c.wt else c.w (k + 1)
    wt := nextWt c
    abc := shifted c}

def feedForward (c : Core) : Core :=
  {c with round := 0, busy := false, abc := (shifted c).add c.hReg}

def nextRound (c : Core) (i : Pins) : Core :=
  if i.rst then
    {c with round := 0, busy := false, w := fun _ => 0, wt := 0, abc := ⟨0, 0, 0, 0, 0, 0, 0, 0⟩}
  else if i.init then {c with abc := i.shaH}
  else if c.round ≤ 15 then (if i.vld then takeWord c i.din else c)
  else if c.round ≤ 63 then slide c
  else if c.round = 64 then feedForward c
  else {c with round := 0, busy := false}

def nextHReg (c : Core) (i : Pins) : Chain :=
  if i.init then i.shaH else if c.done then c.abc else c.hReg

def nextKt (c : Core) (i : Pins) : Word :=
  if i.rst then 0
  else if c.round ≤ 15 then (if i.vld then kTable.getD c.round 0 else c.kt)
  else if c.round ≤ 63 then kTable.getD c.round 0
  else 0

def nextDone (c : Core) (i : Pins) : Bool := if i.rst then false else c.round == 64

def next (c : Core) (i : Pins) : Core :=
  {nextRound c i with hReg := nextHReg c i, kt := nextKt c i, done := nextDone c i}

/-! ### The functions of the standard -/

theorem rotr (x : Word) (n : ℕ) (h0 : 0 < n) (h : n < 32) :
    (x.extractLsb (n - 1) 0 ++ x.extractLsb 31 n).cast (by omega) = x.rotateRight n := by
  apply BitVec.eq_of_getLsbD_eq
  intro i hi
  rw [BitVec.getLsbD_cast, BitVec.getLsbD_append, BitVec.getLsbD_extractLsb,
    BitVec.getLsbD_extractLsb, BitVec.getLsbD_rotateRight, Nat.mod_eq_of_lt h]
  by_cases hlow : i < 32 - n
  · rw [if_pos (by omega), decide_eq_true hlow, cond_true, decide_eq_true (by omega), Bool.true_and]
  · rw [if_neg (by omega), decide_eq_false hlow, cond_false, decide_eq_true (by omega),
      decide_eq_true hi, Bool.true_and, Bool.true_and, Nat.zero_add]
    congr 1
    omega

theorem shr (x : Word) (n : ℕ) (h : n < 32) :
    ((0 : BitVec n) ++ x.extractLsb 31 n).cast (by omega) = x >>> n := by
  apply BitVec.eq_of_getLsbD_eq
  intro i hi
  rw [BitVec.getLsbD_cast, BitVec.getLsbD_append, BitVec.getLsbD_extractLsb,
    BitVec.getLsbD_ushiftRight]
  by_cases hlow : i < 32 - n
  · rw [if_pos (by omega), decide_eq_true (by omega), Bool.true_and]
  · rw [if_neg (by omega), BitVec.getLsbD_of_ge x _ (by omega)]
    exact BitVec.getLsbD_zero

theorem f2_eq (a b c : Word) : f2 a b c = maj a b c := by
  rw [f2, maj, BitVec.xor_assoc, BitVec.xor_comm (b &&& c), ← BitVec.xor_assoc]

theorem f3_eq (a : Word) : f3 a = bigSigma0 a := by
  rw [bigSigma0, ← rotr a 2 (by decide) (by decide), ← rotr a 13 (by decide) (by decide),
    ← rotr a 22 (by decide) (by decide)]
  rfl

theorem f4_eq (e : Word) : f4 e = bigSigma1 e := by
  rw [bigSigma1, ← rotr e 6 (by decide) (by decide), ← rotr e 11 (by decide) (by decide),
    ← rotr e 25 (by decide) (by decide)]
  rfl

theorem f5_eq (w1 : Word) : f5 w1 = smallSigma0 w1 := by
  rw [smallSigma0, ← rotr w1 7 (by decide) (by decide), ← rotr w1 18 (by decide) (by decide),
    ← shr w1 3 (by decide)]
  rfl

theorem f6_eq (w14 : Word) : f6 w14 = smallSigma1 w14 := by
  rw [smallSigma1, ← rotr w14 17 (by decide) (by decide), ← rotr w14 19 (by decide) (by decide),
    ← shr w14 10 (by decide)]
  rfl

theorem kTable_eq : kTable = roundConstants := by decide

/-- With `Kt` and `Wt` of a round in the registers, the wires compute the round. -/
theorem shifted_eq (c : Core) : shifted c = Sha256.round c.abc (c.kt, c.wt) := by
  simp only [shifted, nextA, nextE, t1, t2, f2_eq, f3_eq, f4_eq, Sha256.round]
  rfl

theorem nextWt_eq (c : Core) :
    nextWt c = smallSigma1 (c.w 14) + c.w 9 + smallSigma0 (c.w 1) + c.w 0 := by
  rw [nextWt, f5_eq, f6_eq]

end HashRatio.ShaCore
