import HashRatio.Lib.Bytes

/-!
# The two-wire master (twi_core.v)

One counter times every command; the bit counter, the shift register, DONE and the
two line registers react to its value, clock edge by clock edge.
-/

namespace HashRatio.TwiCore
open Bytes

/-! ### Registers -/

def startSda : ℕ := 1201
def sdaSet : ℕ := 1401
def sdaWait : ℕ := 1201
def startScl : ℕ := startSda + 101
def twiDone : ℕ := startScl + 1301
def stopScl : ℕ := 51

/-- The last count of a bit. -/
def bitEnd : ℕ := sdaSet * 2 + sdaWait

@[simp] theorem startSda_eq : startSda = 1201 := rfl
@[simp] theorem sdaSet_eq : sdaSet = 1401 := rfl
@[simp] theorem sdaWait_eq : sdaWait = 1201 := rfl
@[simp] theorem startScl_eq : startScl = 1302 := rfl
@[simp] theorem twiDone_eq : twiDone = 2603 := rfl
@[simp] theorem stopScl_eq : stopScl = 51 := rfl
@[simp] theorem bitEnd_eq : bitEnd = 4003 := rfl

def i2crAddr : Byte := 0x00
def i2wdAddr : Byte := 0x04

/-- `cnt` has 12 bits, `byte_cnt` 4; `sda_oen` is the released level. -/
structure Core where
  rdBuf : Byte
  cnt : ℕ
  done : Bool
  byteCnt : ℕ
  i2wdR : Byte
  enR : Bool
  initR : Bool
  cmdR : BitVec 3
  sclO : Bool
  sdaOen : Bool
  deriving DecidableEq, Repr

def Core.reset : Core := ⟨0, 0, false, 0, 0, false, false, 0, true, true⟩

structure In where
  rst : Bool
  wr : Bool
  dataIn : Byte
  wrAddr : Byte
  twiSdaI : Bool
  deriving DecidableEq, Repr

section wires
variable (s : Core)

def Core.cmdStart : Bool := s.cmdR == 0 && s.enR
def Core.cmdWr : Bool := s.cmdR == 1 && s.enR
def Core.cmdRd : Bool := s.cmdR == 2 && s.enR
def Core.cmdStop : Bool := s.cmdR == 3 && s.enR
def Core.cmdRdNo : Bool := s.cmdR == 4 && s.enR

def Core.i2cr : Byte :=
  0#1 ++ s.cmdR ++ 0#1 ++ BitVec.ofBool s.done ++ BitVec.ofBool s.initR ++ BitVec.ofBool s.enR

def Core.i2rd : Byte := s.rdBuf

end wires

def next (s : Core) (i : In) : Core where
  enR :=
    if i.rst then false
    else if i.wrAddr == i2crAddr && i.wr then i.dataIn.getLsbD 0
    else s.enR
  initR :=
    if i.rst then false
    else if i.wrAddr == i2crAddr && i.wr then i.dataIn.getLsbD 1
    else false
  cmdR :=
    if i.rst then 0
    else if i.wrAddr == i2crAddr && i.wr then i.dataIn.extractLsb' 4 3
    else s.cmdR
  i2wdR :=
    if i.rst then 0
    else if i.wrAddr == i2wdAddr && i.wr then i.dataIn
    -- unlike `byte_cnt` and `cnt`, not held back by `init_r`
    else if s.cmdWr && s.cnt == bitEnd then shiftIn s.i2wdR true
    else s.i2wdR
  done :=
    if i.rst then false
    else if i.wrAddr == i2crAddr && i.wr then i.dataIn.getLsbD 2
    else if s.initR then false
    else if (s.cmdStart || s.cmdStop) && s.cnt == twiDone then true
    else if (s.cmdWr || s.cmdRd) && s.byteCnt == 9 then true
    else s.done
  byteCnt :=
    if i.rst then 0
    else if s.initR then 0
    else if (s.cmdWr || s.cmdRd) && s.cnt == bitEnd then (s.byteCnt + 1) % 16
    else s.byteCnt
  cnt :=
    if i.rst || !s.enR then 0
    else if (s.cmdStart || s.cmdStop) && s.initR then 1
    else if (s.cmdStart || s.cmdStop) && s.cnt != 0 then (s.cnt + 1) % 4096
    else if (s.cmdWr || s.cmdRd) && s.initR then 0
    else if (s.cmdWr || s.cmdRd) ∧ s.cnt < bitEnd ∧ s.byteCnt < 9 then (s.cnt + 1) % 4096
    else if (s.cmdWr || s.cmdRd) && s.cnt == bitEnd then 0
    else s.cnt
  sclO :=
    if i.rst || !s.enR then true
    else if s.cmdStart then (if s.cnt == startScl then false else s.sclO)
    else if s.cmdWr || s.cmdRd then
      if s.cnt == 0 then false
      else if s.cnt == sdaSet then true
      else if s.cnt == sdaSet + sdaWait then false
      else s.sclO
    else if s.cmdStop && s.cnt == sdaSet then true
    else s.sclO
  sdaOen :=
    if i.rst || !s.enR then true
    else if s.cmdStart then (if s.cnt == startSda then false else s.sdaOen)
    else if s.cmdWr then s.i2wdR.getLsbD 7
    else if s.cmdRd then !(s.byteCnt == 8 || s.byteCnt == 9)
    else if s.cmdStop then
      if s.initR then false
      else if s.cnt == stopScl + sdaSet then true
      else s.sdaOen
    else if s.cmdRdNo then true
    else s.sdaOen
  rdBuf :=
    if i.rst then 0
    else if s.cmdRd && s.cnt == sdaSet + 100 && decide (s.byteCnt ≤ 7) then
      shiftIn s.rdBuf i.twiSdaI
    else s.rdBuf

/-! ### Cycles of the firmware -/

/-- No register is written. -/
def quiet (sda : Bool) : In := ⟨false, false, 0, 0, sda⟩

/-- The edge at which a write is taken. -/
def put (addr data : Byte) (sda : Bool) : In := ⟨false, true, data, addr, sda⟩

section cycles
variable (s : Core) (sda : Bool)

theorem next_i2cr (data : Byte) : next s (put i2crAddr data sda) =
    { next s (quiet sda) with
      enR := data.getLsbD 0
      initR := data.getLsbD 1
      cmdR := data.extractLsb' 4 3
      done := data.getLsbD 2 } := rfl

theorem next_i2wd (data : Byte) :
    next s (put i2wdAddr data sda) = {next s (quiet sda) with i2wdR := data} := rfl

theorem i2cr_done : s.i2cr &&& 0x04 = 0x04 ↔ s.done = true := by
  obtain ⟨rdBuf, cnt, done, byteCnt, i2wdR, enR, initR, cmdR, sclO, sdaOen⟩ := s
  simp only [Core.i2cr]
  clear rdBuf cnt byteCnt i2wdR sclO sdaOen
  revert done enR initR cmdR
  decide

end cycles

/-! ### A cycle without a write -/

section edges
variable {s : Core}

/-- Start and stop count once to the end of the counter. -/
theorem timed_edge (sda : Bool) (hen : s.enR = true) (hcmd : s.cmdR = 0 ∨ s.cmdR = 3) :
    (next s (quiet sda)).cnt =
      (if s.initR then 1 else if s.cnt = 0 then s.cnt else (s.cnt + 1) % 4096) ∧
      (next s (quiet sda)).done =
        (if s.initR then false else if s.cnt = 2603 then true else s.done) := by
  rcases hcmd with hcmd | hcmd <;>
    simp [next, quiet, Core.cmdStart, Core.cmdStop, Core.cmdWr, Core.cmdRd, hen, hcmd]

theorem start_edge (sda : Bool) (hen : s.enR = true) (hcmd : s.cmdR = 0) :
    (next s (quiet sda)).sclO = (if s.cnt = 1302 then false else s.sclO) ∧
      (next s (quiet sda)).sdaOen = (if s.cnt = 1201 then false else s.sdaOen) := by
  simp [next, quiet, Core.cmdStart, hen, hcmd]

theorem stop_edge (sda : Bool) (hen : s.enR = true) (hcmd : s.cmdR = 3) :
    (next s (quiet sda)).sclO = (if s.cnt = 1401 then true else s.sclO) ∧
      (next s (quiet sda)).sdaOen =
        (if s.initR then false else if s.cnt = 1452 then true else s.sdaOen) := by
  simp [next, quiet, Core.cmdStart, Core.cmdWr, Core.cmdRd, Core.cmdStop, hen, hcmd]

/-- Write and read count through the cycles of nine bits. -/
theorem clocked_edge (sda : Bool) (hen : s.enR = true) (hcmd : s.cmdR = 1 ∨ s.cmdR = 2) :
    (next s (quiet sda)).cnt =
        (if s.initR then 0 else if s.cnt < 4003 ∧ s.byteCnt < 9 then (s.cnt + 1) % 4096
          else if s.cnt = 4003 then 0 else s.cnt) ∧
      (next s (quiet sda)).byteCnt =
        (if s.initR then 0 else if s.cnt = 4003 then (s.byteCnt + 1) % 16 else s.byteCnt) ∧
      (next s (quiet sda)).done =
        (if s.initR then false else if s.byteCnt = 9 then true else s.done) ∧
      (next s (quiet sda)).sclO =
        (if s.cnt = 0 then false else if s.cnt = 1401 then true else if s.cnt = 2602 then false
          else s.sclO) := by
  rcases hcmd with hcmd | hcmd <;>
    simp [next, quiet, Core.cmdStart, Core.cmdStop, Core.cmdWr, Core.cmdRd, hen, hcmd]

theorem write_edge (sda : Bool) (hen : s.enR = true) (hcmd : s.cmdR = 1) :
    (next s (quiet sda)).i2wdR = (if s.cnt = 4003 then shiftIn s.i2wdR true else s.i2wdR) ∧
      (next s (quiet sda)).sdaOen = s.i2wdR.getLsbD 7 := by
  simp [next, quiet, Core.cmdStart, Core.cmdWr, hen, hcmd]

theorem read_edge (sda : Bool) (hen : s.enR = true) (hcmd : s.cmdR = 2) :
    (next s (quiet sda)).rdBuf =
        (if s.cnt = 1501 ∧ s.byteCnt ≤ 7 then shiftIn s.rdBuf sda else s.rdBuf) ∧
      (next s (quiet sda)).sdaOen = !(s.byteCnt == 8 || s.byteCnt == 9) := by
  simp [next, quiet, Core.cmdStart, Core.cmdWr, Core.cmdRd, hen, hcmd]

theorem i2wdR_edge (sda : Bool) (h : s.cmdR ≠ 1 ∨ s.cnt ≠ 4003) :
    (next s (quiet sda)).i2wdR = s.i2wdR := by
  rcases h with h | h
  · have hwr : s.cmdWr = false := by rw [Core.cmdWr, beq_eq_false_iff_ne.mpr h, Bool.false_and]
    simp [next, quiet, hwr]
  · simp [next, quiet, h]

end edges
end HashRatio.TwiCore
