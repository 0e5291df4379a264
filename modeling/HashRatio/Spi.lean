import HashRatio.Lib.Bytes
import HashRatio.Lib.Run

/-!
# The SPI master (wb_spi.v)

The instances of superkdf9_simple.v: eight slaves, eight bits most significant first,
clock polarity and phase 0. The port registers every bus cycle once before the
registers see it; a state machine counts sixteen clock cycles to each half of SCLK.
-/

namespace HashRatio.Spi
open Bytes

/-! ### Parameters -/

def clockSel : ℕ := 15
def delayTime : ℕ := 2
def intervalLength : ℕ := 2
def clockPhase : Bool := false
def clockPolarity : Bool := false
def actualMax : ℕ := 7

@[simp] theorem clockSel_eq : clockSel = 15 := rfl
@[simp] theorem delayTime_eq : delayTime = 2 := rfl
@[simp] theorem intervalLength_eq : intervalLength = 2 := rfl
@[simp] theorem clockPhase_eq : clockPhase = false := rfl
@[simp] theorem clockPolarity_eq : clockPolarity = false := rfl
@[simp] theorem actualMax_eq : actualMax = 7 := rfl

/-! ### The bus port -/

structure Cycle where
  stb : Bool
  cyc : Bool
  we : Bool
  adr : Byte
  dat : Word
  deriving DecidableEq, Repr

structure Port where
  dw00Cs : Bool
  dw04Cs : Bool
  dw08Cs : Bool
  dw0cCs : Bool
  dw10Cs : Bool
  regWr : Bool
  regRd : Bool
  latchSData : Word
  ack : Bool
  readWaitDone : Bool
  deriving DecidableEq, Repr

def Port.reset : Port := ⟨false, false, false, false, false, false, false, 0, false, false⟩

def Port.next (p : Port) (c : Cycle) : Port where
  dw00Cs := c.adr == 0x00
  dw04Cs := c.adr == 0x04
  dw08Cs := c.adr == 0x08
  dw0cCs := c.adr == 0x0c
  dw10Cs := c.adr == 0x10
  regWr := c.we && c.stb && c.cyc
  regRd := !c.we && c.stb && c.cyc
  latchSData := c.dat
  -- a write is acknowledged after one edge, a read after two
  ack := if p.ack then false else c.stb && c.cyc && (c.we || p.readWaitDone)
  readWaitDone := if p.ack then false else if c.stb && c.cyc && !c.we then true else p.readWaitDone

/-! ### The shift engine -/

inductive Status where
  | idle
  | load
  | wait
  | trans
  | turnaround
  | interval
  deriving DecidableEq, Repr

/-- `clock_cnt` has 4 bits, `data_cnt` 6; `nStatusR` is what the latch behind `n_status` holds. -/
structure Shifter where
  cStatus : Status
  nStatusR : Status
  clockCnt : ℕ
  dataCnt : ℕ
  sclk : Bool
  mosi : Bool
  txShiftData : Byte
  rxShiftData : Byte
  rxLatchFlag : Bool
  waitOneTickDone : Bool
  deriving DecidableEq, Repr

def Shifter.reset : Shifter := ⟨.idle, .idle, 0, 0, clockPolarity, false, 0, 0, false, false⟩

def Shifter.nStatus (s : Shifter) (pendingData : Bool) : Status :=
  match s.cStatus with
  | .idle => if pendingData then .load else .idle
  | .load => if delayTime = 0 then .trans else .wait
  | .wait => if s.clockCnt = clockSel ∧ s.dataCnt = delayTime - 1 then .trans else .wait
  | .trans =>
    if s.clockCnt = clockSel ∧ s.dataCnt = actualMax ∧ s.sclk ≠ clockPolarity then
      .turnaround else .trans
  -- the branch assigns nothing before the last cycle
  | .turnaround =>
    if s.clockCnt = clockSel then (if intervalLength ≠ 0 then .interval else .idle) else s.nStatusR
  | .interval => if s.clockCnt = clockSel ∧ s.dataCnt = intervalLength then .idle else .interval

def shiftZero (b : Byte) : Byte := b <<< 1

def Shifter.next (s : Shifter) (pendingData : Bool) (regTxdata : Byte) (miso : Bool) : Shifter :=
  let nStatus := s.nStatus pendingData
  let tick := s.clockCnt = clockSel
  { cStatus := nStatus
    nStatusR := nStatus
    clockCnt := if s.cStatus = .idle then 0 else if tick then 0 else (s.clockCnt + 1) % 16
    dataCnt :=
      if s.cStatus = .wait ∧ tick ∧ s.dataCnt = delayTime - 1 then 0
      else if s.cStatus = .trans ∧ tick ∧ s.dataCnt = actualMax ∧ clockPolarity ≠ s.sclk then 0
      else if s.cStatus = .interval ∧ tick ∧ s.dataCnt = intervalLength then 0
      else if (s.cStatus = .wait ∧ tick) ∨ (s.cStatus = .trans ∧ tick ∧ clockPhase ≠ s.sclk) ∨
          (s.cStatus = .interval ∧ tick) then (s.dataCnt + 1) % 64
      else s.dataCnt
    sclk := if s.cStatus = .trans ∧ tick then !s.sclk else s.sclk
    mosi :=
      if (s.cStatus = .load ∧ nStatus = .trans) ∨ (s.cStatus = .wait ∧ nStatus = .trans) then
        regTxdata.getLsbD 7
      else if s.cStatus = .trans ∧ tick ∧ (clockPhase ^^ s.sclk) then
        if s.waitOneTickDone then s.txShiftData.getLsbD 7 else s.mosi
      else s.mosi
    txShiftData :=
      if (s.cStatus = .load ∧ nStatus = .trans) ∨ (s.cStatus = .wait ∧ nStatus = .trans) then
        shiftZero regTxdata
      else if s.cStatus = .trans ∧ tick ∧ (clockPhase ^^ s.sclk) then
        if s.waitOneTickDone then shiftZero s.txShiftData else s.txShiftData
      else s.txShiftData
    rxShiftData :=
      if tick ∧ clockPhase = s.sclk ∧ s.cStatus = .trans then shiftIn s.rxShiftData miso
        else s.rxShiftData
    rxLatchFlag := if s.cStatus = .trans ∧ nStatus ≠ .trans then true else if s.rxLatchFlag then
      false else s.rxLatchFlag
    waitOneTickDone :=
      if clockPhase = clockPolarity then true
      else if s.cStatus = .trans ∧ tick ∧ s.dataCnt = 1 then true
      else if s.dataCnt = 0 then false
      else s.waitOneTickDone }

/-! ### The registers -/

structure Regs where
  port : Port
  shifter : Shifter
  datO : Word
  regRxdata : Byte
  regTxdata : Byte
  regIroe : Bool
  regItoe : Bool
  regItrdy : Bool
  regIrrdy : Bool
  regIe : Bool
  regSso : Bool
  regToe : Bool
  regRoe : Bool
  regTrdy : Bool
  regRrdy : Bool
  regTmt : Bool
  regSsmask : Byte
  pendingData : Bool
  ssN : Byte
  deriving DecidableEq, Repr

def Regs.reset : Regs where
  port := Port.reset
  shifter := Shifter.reset
  datO := 0
  regRxdata := 0
  regTxdata := 0
  regIroe := false
  regItoe := false
  regItrdy := false
  regIrrdy := false
  regIe := false
  regSso := false
  regToe := false
  regRoe := false
  regTrdy := true
  regRrdy := false
  regTmt := true
  regSsmask := 0
  pendingData := false
  ssN := 0xff

section wires
variable (s : Regs)

def Regs.regE : Bool := s.regToe || s.regRoe

def Regs.regStatus : BitVec 9 :=
  BitVec.ofBool s.regE ++ BitVec.ofBool s.regRrdy ++ BitVec.ofBool s.regTrdy ++
    BitVec.ofBool s.regTmt ++ BitVec.ofBool s.regToe ++ BitVec.ofBool s.regRoe ++ 0#3

def Regs.regControl : BitVec 11 :=
  BitVec.ofBool s.regSso ++ 0#1 ++ BitVec.ofBool s.regIe ++ BitVec.ofBool s.regIrrdy ++
    BitVec.ofBool s.regItrdy ++ 0#1 ++ BitVec.ofBool s.regItoe ++ BitVec.ofBool s.regIroe ++ 0#3

def Regs.nStatus : Status := s.shifter.nStatus s.pendingData

end wires

def next (s : Regs) (c : Cycle) (miso : Bool) : Regs :=
  let p := s.port
  let control (i : ℕ) (old : Bool) := if p.regWr && p.dw0cCs then p.latchSData.getLsbD i else old
  let received := s.nStatus = .turnaround ∧ s.shifter.clockCnt = clockSel
  let taken := p.regRd && p.dw00Cs && p.ack
  { port := p.next c
    shifter := s.shifter.next s.pendingData s.regTxdata miso
    datO :=
      if p.regRd then
        if p.dw00Cs then s.regRxdata.setWidth 32
        else if p.dw04Cs then s.regTxdata.setWidth 32
        else if p.dw08Cs then s.regStatus.setWidth 32
        else if p.dw0cCs then s.regControl.setWidth 32
        else if p.dw10Cs then s.regSsmask.setWidth 32
        else 0
      else s.datO
    regRxdata := if s.shifter.rxLatchFlag then s.shifter.rxShiftData else s.regRxdata
    regTxdata := if p.regWr && p.dw04Cs && s.regTrdy then p.latchSData.setWidth 8 else s.regTxdata
    regIroe := control 3 s.regIroe
    regItoe := control 4 s.regItoe
    regItrdy := control 6 s.regItrdy
    regIrrdy := control 7 s.regIrrdy
    regIe := control 8 s.regIe
    regSso := control 10 s.regSso
    regToe :=
      if !s.regTrdy && p.regWr && p.dw04Cs && p.ack then true
      else if p.regWr && p.dw08Cs && p.ack then false
      else s.regToe
    regRoe := if received then (if s.regRrdy then true else s.regRoe) else if taken then
      false else s.regRoe
    regTrdy :=
      if s.shifter.cStatus ≠ .trans ∧ s.nStatus = .trans then true
      else if p.regWr && p.dw04Cs && p.ack then false
      else s.regTrdy
    regRrdy := if received then (if s.regRrdy then s.regRrdy else true) else if taken then
      false else s.regRrdy
    regTmt := if s.shifter.cStatus ≠ .idle ∨ s.pendingData then false else true
    regSsmask := if p.regWr && p.dw10Cs then p.latchSData.setWidth 8 else s.regSsmask
    pendingData :=
      if p.regWr && p.dw04Cs then true else if s.shifter.cStatus = .load then false
        else s.pendingData
    ssN :=
      if s.regSso then ~~~s.regSsmask
      else if s.shifter.cStatus = .trans ∨ s.shifter.cStatus = .wait ∨
        s.shifter.cStatus = .turnaround then ~~~s.regSsmask
      else 0xff }

end HashRatio.Spi
