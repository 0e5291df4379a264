import HashRatio.Drivers
import HashRatio.Lib.Run

/-!
# The PWM and WDG registers (twi.v)

The two registers of the peripheral behind `adjust_fan` and `wdg_feed_sec`, clock
edge by clock edge, and the bus accesses of the firmware as the cycles they take.
-/

namespace HashRatio.Twi
open Bytes Drivers

/-! ### Registers and outputs -/

structure Regs where
  ack : Bool
  regPwm : BitVec 10
  pwmCnt : BitVec 10
  wdgEn : Bool
  wdgCnt : BitVec 31
  deriving DecidableEq, Repr

def Regs.reset : Regs := ⟨false, 0, 0, false, 0⟩

def Regs.pwm (r : Regs) : Bool := decide (r.pwmCnt < r.regPwm)

def Regs.watchDog (r : Regs) : Bool := r.wdgEn && (r.wdgCnt == 1 || r.wdgCnt == 2)

structure Cycle where
  rst : Bool
  stb : Bool
  we : Bool
  adr : BitVec 6
  dat : Word
  deriving DecidableEq, Repr

def pwmc : BitVec 6 := 0x0c
def wdg : BitVec 6 := 0x10

/-- A write strobe counts while the access is not acknowledged. -/
def wrEn (r : Regs) (c : Cycle) (adr : BitVec 6) : Bool := c.stb && c.we && c.adr == adr && !r.ack

def tick (r : Regs) (c : Cycle) : Regs :=
  if c.rst then Regs.reset
  else
    { ack := c.stb && !r.ack
      regPwm := if wrEn r c pwmc then c.dat.extractLsb' 0 10 else r.regPwm
      pwmCnt := r.pwmCnt + 1
      wdgEn := if wrEn r c wdg then c.dat.getLsbD 0 else r.wdgEn
      wdgCnt :=
        if wrEn r c wdg && (r.wdgEn || c.dat.getLsbD 0) then c.dat.extractLsb' 1 31
        else if r.wdgCnt ≠ 0 then r.wdgCnt - 1
        else r.wdgCnt }

section fields
variable (r : Regs) {c : Cycle}

theorem tick_ack (h : c.rst = false) : (tick r c).ack = (c.stb && !r.ack) := by
  rw [tick, h]
  rfl

theorem tick_regPwm (h : c.rst = false) :
    (tick r c).regPwm = if wrEn r c pwmc then c.dat.extractLsb' 0 10 else r.regPwm := by
  rw [tick, h]
  rfl

theorem tick_wdgEn (h : c.rst = false) :
    (tick r c).wdgEn = if wrEn r c wdg then c.dat.getLsbD 0 else r.wdgEn := by
  rw [tick, h]
  rfl

theorem tick_wdgCnt (h : c.rst = false) : (tick r c).wdgCnt =
    if wrEn r c wdg && (r.wdgEn || c.dat.getLsbD 0) then c.dat.extractLsb' 1 31
    else if r.wdgCnt ≠ 0 then r.wdgCnt - 1
    else r.wdgCnt := by
  rw [tick, h]
  rfl

end fields

/-! ### Accesses -/

structure Idle extends Regs where
  idle : ack = false

def Idle.reset : Idle := ⟨Regs.reset, rfl⟩

def access (we : Bool) (adr : BitVec 6) (dat : Word) : Cycle := ⟨false, true, we, adr, dat⟩

theorem access_ack (r : Idle) (we : Bool) (adr : BitVec 6) (dat : Word) :
    (tick r.toRegs (access we adr dat)).ack = true := by
  rw [tick_ack _ rfl, r.idle]
  rfl

theorem access_done (r : Idle) (we : Bool) (adr : BitVec 6) (dat : Word) :
    (tick (tick r.toRegs (access we adr dat)) (access we adr dat)).ack = false := by
  rw [tick_ack _ rfl, access_ack]
  rfl

/-- The master holds its strobe until it is acknowledged: two clock edges. -/
def bus (r : Idle) (we : Bool) (adr : BitVec 6) (dat : Word) : Idle :=
  ⟨tick (tick r.toRegs (access we adr dat)) (access we adr dat), access_done r we adr dat⟩

def regAddr : Reg → BitVec 6
  | .pwm => pwmc
  | .wdg => wdg
  | .fan0 => 0x18
  | .fan1 => 0x1c
  | .timer => 0x20
  | .gpio => 0x24

/-- The peripheral as the firmware's board; what is read back plays no part here. -/
def twiBoard : Board Idle where
  spi r _ _ := (r, fun _ => 0)
  readl r reg := (bus r false (regAddr reg) 0, 0)
  writel r reg v := bus r true (regAddr reg) v
  twiRead2byte r := (r, 0)
  stale _ := 0
  mmVersion := stillVersion
  mmVersion_length := stillVersion_length

/-! ### A write -/

section write
variable (r : Idle) (adr : BitVec 6) (dat : Word)

def stored : Regs := tick r.toRegs (access true adr dat)

theorem bus_eq : (bus r true adr dat).toRegs = tick (stored r adr dat) (access true adr dat) := rfl

theorem wrEn_stored (a : BitVec 6) : wrEn r.toRegs (access true adr dat) a = (adr == a) := by
  simp [wrEn, access, r.idle]

theorem wrEn_held (a : BitVec 6) : wrEn (stored r adr dat) (access true adr dat) a = false := by
  simp [wrEn, stored, access_ack]

theorem write_regPwm : (bus r true pwmc dat).regPwm = dat.extractLsb' 0 10 := by
  rw [bus_eq, tick_regPwm _ rfl, wrEn_held, if_neg Bool.false_ne_true, stored,
    tick_regPwm _ rfl, wrEn_stored]
  rfl

theorem stored_wdgEn : (stored r wdg dat).wdgEn = dat.getLsbD 0 := by
  rw [stored, tick_wdgEn _ rfl, wrEn_stored]
  rfl

theorem stored_wdgCnt (h : dat.getLsbD 0 = true) :
    (stored r wdg dat).wdgCnt = dat.extractLsb' 1 31 := by
  rw [stored, tick_wdgCnt _ rfl, wrEn_stored,
    show (access true wdg dat).dat = dat from rfl, h, Bool.or_true]
  rfl

end write

/-! ### Counting down -/

theorem tick_counts {r : Regs} {c : Cycle} (hrst : c.rst = false) (hwr : wrEn r c wdg = false) :
    (tick r c).wdgEn = r.wdgEn ∧ (tick r c).wdgCnt.toNat = r.wdgCnt.toNat - 1 := by
  rw [tick_wdgEn _ hrst, tick_wdgCnt _ hrst, hwr, Bool.false_and]
  simp only [Bool.false_eq_true, if_false, true_and]
  split
  · rename_i hne
    have hpos : 1 ≤ r.wdgCnt.toNat :=
      Nat.one_le_iff_ne_zero.mpr fun h => hne (BitVec.eq_of_toNat_eq h)
    exact BitVec.toNat_sub_of_le hpos
  · rename_i hzero
    rw [not_not.mp hzero]
    rfl

end HashRatio.Twi
