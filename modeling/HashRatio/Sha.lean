import HashRatio.ShaCore

/-!
# sha.v and dbl_sha.v

The engine on the bus, clock by clock. CMD, DIN, HASH, HI and PRE are at 0x0, 0x4, 0x8,
0xc and 0x10. A write sets a strobe register for one cycle; the double hash unit feeds the
hash it caught at `done` to the core again, with the padding of a message of 32 bytes.
RST_I is taken at the clock edge.
-/

namespace HashRatio.Sha
open Bytes Sha256 ShaCore

/-! ### dbl_sha.v -/

structure Dbl where
  start : Bool
  cnt : BitVec 4
  hashR : Chain

def shl32 (c : Chain) : Chain := ⟨c.b, c.c, c.d, c.e, c.f, c.g, c.h, 0⟩

/-- 256'h80000000_00000000_.._00000100. -/
def padding : Chain := ⟨0x80000000, 0, 0, 0, 0, 0, 0, 0x100⟩

def Dbl.next (d : Dbl) (rst regDbl done : Bool) (hash : Chain) : Dbl where
  start := if rst then false else if regDbl then true else if d.cnt = 15 then false else d.start
  cnt := if rst then 0 else if d.start then d.cnt + 1 else d.cnt
  hashR :=
    if done then hash
    else if d.start ∧ d.cnt ≠ 7 then shl32 d.hashR
    else if d.start then padding
    else d.hashR

/-! ### sha.v -/

structure Wires where
  rst : Bool
  stb : Bool
  we : Bool
  adr : BitVec 5
  dat : Word

/-- `hx` is SHA256_Hx. -/
structure Regs where
  ack : Bool
  regInit : Bool
  regDone : Bool
  regRst : Bool
  regDbl : Bool
  regDin : Word
  vld : Bool
  hashCnt : BitVec 3
  hashRdEnR : Bool
  hx : Chain
  preCnt : BitVec 3
  preRdEnR : Bool
  cmdRdEnF : Bool
  hashRdEnF : Bool
  dbl : Dbl
  core : Core

section wires
variable (s : Regs) (b : Wires)

def cmdWrEn : Bool := b.stb && b.we && b.adr == 0x0 && !s.ack
def dinWrEn : Bool := b.stb && b.we && b.adr == 0x4 && !s.ack
def hiWrEn : Bool := b.stb && b.we && b.adr == 0xc && !s.ack
def cmdRdEn : Bool := b.stb && !b.we && b.adr == 0x0 && !s.ack
def hashRdEn : Bool := b.stb && !b.we && b.adr == 0x8 && !s.ack
def preRdEn : Bool := b.stb && !b.we && b.adr == 0x10 && !s.ack

def corePins : Pins where
  rst := b.rst
  shaH := s.hx
  init := s.regInit
  vld := s.vld || s.dbl.start
  din := if s.dbl.start then s.dbl.hashR.a else s.regDin

/-- DEF_SHA256_H0..DEF_SHA256_H7. -/
def defH : Chain :=
  ⟨0x6a09e667, 0xbb67ae85, 0x3c6ef372, 0xa54ff53a, 0x510e527f, 0x9b05688c, 0x1f83d9ab, 0x5be0cd19⟩

def shiftIn (c : Chain) (w : Word) : Chain := ⟨c.b, c.c, c.d, c.e, c.f, c.g, c.h, w⟩

def clock : Regs where
  ack := if b.rst then false else b.stb && !s.ack
  regInit := if b.rst then false else cmdWrEn s b && (b.dat.getLsbD 0 || b.dat.getLsbD 3)
  regDone :=
    if b.rst then false
    else if s.core.done then true
    else if dinWrEn s b || (cmdWrEn s b && b.dat.getLsbD 3) then false
    else s.regDone
  regRst := if b.rst then false else cmdWrEn s b && b.dat.getLsbD 2
  regDbl := if b.rst then false else cmdWrEn s b && b.dat.getLsbD 3
  regDin := if b.rst then 0 else if dinWrEn s b then b.dat else s.regDin
  vld := if b.rst then false else dinWrEn s b
  hashCnt := if b.rst || s.regInit then 0 else if s.hashRdEnR then s.hashCnt + 1 else s.hashCnt
  hashRdEnR := hashRdEn s b
  hx := if b.rst || s.regRst then defH else if hiWrEn s b then shiftIn s.hx b.dat else s.hx
  preCnt := if b.rst || s.regInit then 0 else if s.preRdEnR then s.preCnt + 1 else s.preCnt
  preRdEnR := preRdEn s b
  cmdRdEnF := if b.rst then false else cmdRdEn s b
  hashRdEnF := if b.rst then false else hashRdEn s b
  dbl := s.dbl.next b.rst s.regDbl s.core.done s.core.abc
  core := next s.core (corePins s b)

def regHash : Word := s.core.abc.words.getD s.hashCnt.toNat 0
def regPre : Word :=
  [s.core.a0, s.core.a1, s.core.a2, s.core.e0, s.core.e1, s.core.e2].getD s.preCnt.toNat 0

def datO : Word :=
  if s.cmdRdEnF then (0 : BitVec 30) ++ BitVec.ofBool s.regDone ++ (0 : BitVec 1)
  else if s.hashRdEnF then regHash s
  else regPre s

end wires

theorem defH_eq : defH = initial := rfl

/-! ### The double hash unit -/

def Dbl.rest (r : Chain) : Dbl := ⟨false, 0, r⟩

/-- `hash_r` after `k` words of the second block. -/
def feedReg (v : Chain) : ℕ → Chain
  | 0 => v
  | k + 1 => if k = 7 then padding else shl32 (feedReg v k)

def Dbl.feed (v : Chain) (k : ℕ) : Dbl := ⟨true, BitVec.ofNat 4 k, feedReg v k⟩

/-- The block a hash is padded to. -/
def second (v : Chain) : List Word := v.words ++ padding.words

theorem Dbl.next_rest (r h : Chain) : (Dbl.rest r).next false false false h = Dbl.rest r := rfl

theorem Dbl.next_done (r h : Chain) : (Dbl.rest r).next false false true h = Dbl.rest h := rfl

theorem Dbl.next_start (r h : Chain) : (Dbl.rest r).next false true false h = Dbl.feed r 0 := rfl

theorem Dbl.feed_fields (v h : Chain) (k : ℕ) : (Dbl.feed v k).next false false false h =
    ⟨!decide (BitVec.ofNat 4 k = 15), BitVec.ofNat 4 k + 1,
      if BitVec.ofNat 4 k = 7 then padding else shl32 (feedReg v k)⟩ := by
  by_cases hlast : BitVec.ofNat 4 k = 15#4 <;> simp [Dbl.next, Dbl.feed, hlast]

theorem cnt_eq {k m : ℕ} (hk : k < 16) (hm : m < 16) :
    BitVec.ofNat 4 k = BitVec.ofNat 4 m ↔ k = m := by
  rw [← BitVec.toNat_inj, BitVec.toNat_ofNat, BitVec.toNat_ofNat]
  omega

theorem Dbl.next_feed (v h : Chain) {k : ℕ} (hk : k < 15) :
    (Dbl.feed v k).next false false false h = Dbl.feed v (k + 1) := by
  have hlast : ¬BitVec.ofNat 4 k = 15 := fun h => by
    have := (cnt_eq (m := 15) (by omega) (by decide)).mp h
    omega
  have hseven : BitVec.ofNat 4 k = 7 ↔ k = 7 := cnt_eq (by omega) (by decide)
  rw [Dbl.feed_fields, decide_eq_false hlast, Dbl.feed, feedReg, BitVec.ofNat_add,
    if_congr hseven rfl rfl]
  rfl

theorem Dbl.next_last (v h : Chain) :
    (Dbl.feed v 15).next false false false h = Dbl.rest (feedReg v 16) := by
  rw [Dbl.feed_fields, decide_eq_true (by decide), if_neg (by decide)]
  rfl

theorem feedReg_a (v : Chain) {k : ℕ} (hk : k < 16) : (feedReg v k).a = (second v).getD k 0 := by
  interval_cases k <;> rfl

/-! ### Cycles without a command -/

/-- No strobe reaches the core or the double hash unit. -/
structure Calm (s : Regs) : Prop where
  init : s.regInit = false
  dbl : s.regDbl = false
  vld : s.vld = false

structure Low (s : Regs) : Prop extends Calm s where
  rst : s.regRst = false
  hashRd : s.hashRdEnR = false

/-- The bus neither writes nor reads HASH. -/
structure Still (s : Regs) (b : Wires) : Prop where
  rst : b.rst = false
  cmdWr : cmdWrEn s b = false
  dinWr : dinWrEn s b = false
  hiWr : hiWrEn s b = false
  hashRd : hashRdEn s b = false

section cycle
variable {s : Regs} {b : Wires}

theorem still_low (hb : Still s b) : Low (clock s b) := by
  refine ⟨⟨?_, ?_, ?_⟩, ?_, hb.hashRd⟩
  · simp only [clock, hb.rst, hb.cmdWr, Bool.false_and, Bool.false_eq_true, if_false]
  · simp only [clock, hb.rst, hb.cmdWr, Bool.false_and, Bool.false_eq_true, if_false]
  · simp only [clock, hb.rst, hb.dinWr, Bool.false_eq_true, if_false]
  · simp only [clock, hb.rst, hb.cmdWr, Bool.false_and, Bool.false_eq_true, if_false]

theorem still_done (hb : Still s b) : (clock s b).regDone = (s.core.done || s.regDone) := by
  simp only [clock, hb.rst, hb.cmdWr, hb.dinWr, Bool.false_and, Bool.or_false,
    Bool.false_eq_true, if_false]
  cases s.core.done <;> rfl

theorem still_busy (hb : Still s b) (hcore : s.core.done = false) (hreg : s.regDone = false) :
    (clock s b).regDone = false := by
  rw [still_done hb, hcore, hreg]
  rfl

theorem clock_hx (hr : b.rst = false) (hw : hiWrEn s b = false) :
    (clock s b).hx = if s.regRst then initial else s.hx := by
  simp only [clock, hr, hw, Bool.false_or, Bool.false_eq_true, if_false, defH_eq]

theorem clock_hashCnt (hr : b.rst = false) :
    (clock s b).hashCnt = if s.regInit then 0 else if s.hashRdEnR then s.hashCnt + 1
      else s.hashCnt := by
  simp only [clock, hr, Bool.false_or]

theorem clock_dbl (hr : b.rst = false) :
    (clock s b).dbl = s.dbl.next false s.regDbl s.core.done s.core.abc := by
  simp only [clock, hr]

end cycle

end HashRatio.Sha
