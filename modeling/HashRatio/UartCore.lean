import HashRatio.UartRecv
import HashRatio.UartSend

/-!
# The UART on the bus (intface.v, rxcver_fifo.v, uart_core.v)

The FIFO instance without modem lines: address decoding and registers, line status,
the interrupt arbiter and the error bits kept beside the receive FIFO.
-/

namespace HashRatio.UartCore
open Bytes Clocked
open UartTx (Lcr)
open UartSend (Sender)
open UartRecv (Receiver)

/-! ### Error bits beside the receive FIFO -/

/-- Pointers have 5 bits; 16 entries. -/
structure ErrFifo where
  fifo : ℕ → BitVec 3
  wrPointer1 : ℕ
  rdPointer1 : ℕ
  rdPointerPrev : ℕ
  validRdEn : Bool

def ErrFifo.reset : ErrFifo := ⟨fun _ => 0, 0, 0, 0, false⟩

def ErrFifo.qError (s : ErrFifo) : BitVec 3 := s.fifo (s.rdPointerPrev % 16)

def ErrFifo.next (s : ErrFifo) (data : BitVec 3) (wrEn rdEn full empty : Bool) : ErrFifo :=
  let wr := wrEn ∧ ((!rdEn ∧ !full) ∨ rdEn)
  let rd := rdEn ∧ ((!wrEn ∧ !empty) ∨ wrEn)
  { fifo := fun k =>
      if s.validRdEn ∧ k = s.rdPointerPrev % 16 then 0
      else if wr ∧ k = s.wrPointer1 % 16 then data
      else s.fifo k
    wrPointer1 := if wr then (s.wrPointer1 + 1) % 32 else s.wrPointer1
    rdPointer1 := if rd then (s.rdPointer1 + 1) % 32 else s.rdPointer1
    rdPointerPrev := if rd then s.rdPointer1 else s.rdPointerPrev
    validRdEn := if s.validRdEn then false else decide rd }

/-- The three low bits of `fifo_din`. -/
def errBits (w : UartRx.FifoWord) : BitVec 3 :=
  (BitVec.ofBool w.breakInt ++ BitVec.ofBool w.parityErr) ++ BitVec.ofBool w.frameErr

/-! ### Registers of intface.v -/

inductive Int where
  | idle
  | int0
  | int1
  | int2
  deriving DecidableEq, Repr

structure Intface where
  ackO : Bool
  ier : BitVec 3
  lcr : BitVec 7
  divisor : BitVec 16
  lsr : BitVec 7
  lsr2R : Bool
  lsr3R : Bool
  lsr4R : Bool
  iirRdStrobeDelay : Bool
  csState : Int
  deriving DecidableEq, Repr

/-- `lsr` has no reset. -/
def Intface.reset (divisor : BitVec 16) (lsr : BitVec 7) : Intface where
  ackO := false
  ier := 0
  lcr := UartTx.lcrDefault
  divisor := divisor
  lsr := lsr
  lsr2R := false
  lsr3R := false
  lsr4R := false
  iirRdStrobeDelay := false
  csState := .idle

/-- One cycle of the bus as the device sees it: `stb` is high only with its own address. -/
structure Cycle where
  stb : Bool
  we : Bool
  adr : BitVec 4
  dat : Byte
  deriving DecidableEq, Repr

def rbrAddr : BitVec 4 := 0
def thrAddr : BitVec 4 := 0
def ierAddr : BitVec 4 := 1
def iirAddr : BitVec 4 := 2
def lcrAddr : BitVec 4 := 3
def lsrAddr : BitVec 4 := 5
def divAddr : BitVec 3 := 4

/-- The device with its FIFOs; `sender` is written through `thr_wr_strobe`. -/
structure Core (F G : Type) where
  intface : Intface
  sender : Sender F
  receiver : Receiver
  rxFifo : G
  errs : ErrFifo

/-- The receive FIFO with its `AlmostFull` flag. -/
structure Parts (F G : Type) where
  tx : Fifo F Byte
  rx : Fifo G Byte
  almostFull : G → Bool

section core
variable {F G : Type} (p : Parts F G)

def Core.reset (divisor : BitVec 16) (lsr : BitVec 7) : Core F G where
  intface := .reset divisor lsr
  sender := .reset p.tx (Lcr.ofReg UartTx.lcrDefault)
  receiver := .reset
  rxFifo := p.rx.init
  errs := .reset

variable (s : Core F G)

def Core.lcr : Lcr := Lcr.ofReg s.intface.lcr
def Core.rbrRdStrobe (c : Cycle) : Bool :=
  c.adr == rbrAddr && c.stb && !c.we && !p.rx.empty s.rxFifo && !s.intface.ackO
def Core.iirRdStrobe (c : Cycle) : Bool := c.adr == iirAddr && c.stb && !c.we && !s.intface.ackO
def Core.lsrRdStrobe (c : Cycle) : Bool := c.adr == lsrAddr && c.stb && !c.we && !s.intface.ackO

/-- The byte of `wr_strobe`, before the FIFO's `Full` is looked at. -/
def Core.thrWr (c : Cycle) : Option Byte :=
  if c.adr = thrAddr ∧ c.stb ∧ c.we ∧ !s.intface.ackO then some c.dat else none

def Core.dataErr : Bool :=
  s.receiver.rx.overrunErrInt || s.intface.lsr2R || s.intface.lsr3R || s.intface.lsr4R

def Core.intr : Bool := s.intface.csState != .idle

def Core.iir : BitVec 4 :=
  match s.intface.csState with
  | .int0 => 0b0110
  | .int1 => 0b0100
  | .int2 => 0b0010
  | .idle => 0b0001

/-- `data_8bit`. -/
def Core.datO (adr : BitVec 4) : Byte :=
  if adr = rbrAddr then p.rx.dout s.rxFifo
  else if adr = ierAddr then s.intface.ier.setWidth 8
  else if adr = iirAddr then s.iir.setWidth 8
  else if adr = lcrAddr then BitVec.cons true s.intface.lcr
  else if adr = lsrAddr then BitVec.cons false s.intface.lsr
  else 0xff

def Core.nextState (c : Cycle) : Int :=
  let almostFull := p.almostFull s.rxFifo
  match s.intface.csState with
  | .idle =>
    if s.intface.ier.getLsbD 2 ∧ s.dataErr then .int0
    else if s.intface.ier.getLsbD 0 ∧ (almostFull ∨ !p.rx.empty s.rxFifo) then .int1
    else if s.intface.ier.getLsbD 1 ∧ s.sender.tx.thrr then .int2
    else .idle
  | .int0 =>
    if s.lsrRdStrobe c ∨ !s.intface.ier.getLsbD 2 then
      (if s.intface.ier.getLsbD 0 ∧ almostFull then .int1 else .idle)
    else .int0
  | .int1 =>
    if s.dataErr ∧ s.intface.ier.getLsbD 2 then .int0
    else if !almostFull ∨ !s.intface.ier.getLsbD 0 then .idle
    else .int1
  | .int2 =>
    if s.intface.iirRdStrobeDelay ∨ !s.sender.tx.thrr ∨ !s.intface.ier.getLsbD 1 then .idle
      else .int2

/-- TEMT, THRR, BI, FE, PE, OE and RxRDY. -/
def Core.lsr : BitVec 7 :=
  BitVec.cons (s.sender.tx.temt) <| BitVec.cons s.sender.tx.thrr <| BitVec.cons s.intface.lsr4R <|
    BitVec.cons s.intface.lsr3R <| BitVec.cons s.intface.lsr2R <|
      BitVec.cons s.receiver.rx.overrunErrInt <|
    BitVec.ofBool s.receiver.rx.rbrDatardy

def Intface.next (c : Cycle) : Intface :=
  let write := c.stb ∧ c.we
  let i := s.intface
  { ackO := if i.ackO then false else c.stb
    ier := if write ∧ c.adr = ierAddr then c.dat.setWidth 3 else i.ier
    lcr := if write ∧ c.adr = lcrAddr then c.dat.setWidth 7 else i.lcr
    divisor :=
      if write ∧ c.adr.extractLsb' 1 3 = divAddr then
        (if c.adr.getLsbD 0 then c.dat ++ i.divisor.setWidth 8
          else i.divisor.extractLsb' 8 8 ++ c.dat)
      else i.divisor
    lsr := s.lsr
    lsr2R := if s.errs.qError.getLsbD 1 then true else if s.lsrRdStrobe c then false else i.lsr2R
    lsr3R := if s.errs.qError.getLsbD 0 then true else if s.lsrRdStrobe c then false else i.lsr3R
    lsr4R := if s.errs.qError.getLsbD 2 then true else if s.lsrRdStrobe c then false else i.lsr4R
    iirRdStrobeDelay := s.iirRdStrobe c
    csState := s.nextState p c }

def Core.next (c : Cycle) (sin : Bool) : Core F G where
  intface := Intface.next p s c
  sender := s.sender.next p.tx s.lcr s.intface.divisor.toNat (s.thrWr c)
  receiver := s.receiver.next s.lcr s.intface.divisor.toNat
    ⟨sin, s.lsrRdStrobe c, p.rx.full s.rxFifo, p.rx.empty s.rxFifo⟩
  rxFifo := p.rx.step s.rxFifo (s.receiver.rx.offers.map UartRx.FifoWord.data) (s.rbrRdStrobe p c)
  errs := s.errs.next (errBits s.receiver.rx.fifoDin) s.receiver.rx.fifoWrPulse (s.rbrRdStrobe p c)
    (p.rx.full s.rxFifo) (p.rx.empty s.rxFifo)

end core
end HashRatio.UartCore
