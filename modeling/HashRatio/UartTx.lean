import HashRatio.Lib.Bytes
import HashRatio.Lib.Run

/-!
# The UART transmitter (txmitt.v)

The instance with the FIFO: a byte is taken from it, then start bit, data bits least
significant first, parity and stop bits, each counted by `counter`.
-/

namespace HashRatio.UartTx
open Bytes

/-! ### Line control -/

/-- The fields of the line control register that txmitt.v and rxcver.v use. -/
structure Lcr where
  databits : BitVec 2
  stopbits : BitVec 2
  parityEn : Bool
  parityEven : Bool
  parityStick : Bool
  txBreak : Bool
  deriving DecidableEq, Repr

/-- The seven bits of LCR that intface.v keeps. -/
def Lcr.ofReg (lcr : BitVec 7) : Lcr where
  databits := lcr.extractLsb' 0 2
  stopbits := if lcr.getLsbD 2 = false then 0 else if lcr.extractLsb' 0 3 = 0b100 then 1 else 2
  parityEn := lcr.getLsbD 3
  parityEven := lcr.getLsbD 4
  parityStick := lcr.getLsbD 5
  txBreak := lcr.getLsbD 6

/-- `lcr_default` for 8 data bits, 1 stop bit and no parity. -/
def lcrDefault : BitVec 7 := 0x13

/-- What `uart_init` writes. -/
def lm32UartLcr8bit : BitVec 7 := 0x03

/-- Eight data bits, no parity, one stop bit. -/
structure Lcr.Plain (l : Lcr) : Prop where
  databits : l.databits = 3
  stopbits : l.stopbits = 0
  parityEn : l.parityEn = false
  txBreak : l.txBreak = false

theorem lcrDefault_plain : (Lcr.ofReg lcrDefault).Plain :=
  ⟨by decide, by decide, by decide, by decide⟩

theorem lcr8bit_plain : (Lcr.ofReg lm32UartLcr8bit).Plain :=
  ⟨by decide, by decide, by decide, by decide⟩

/-- Data bits after the first, as `tx_cnt` counts them. -/
def lastBit (databits : BitVec 2) : ℕ := databits.toNat + 4

/-! ### Registers -/

inductive State where
  | start
  | start1
  | shift
  | parity
  | stop1bit
  | stop2bit
  | stopHalfbit
  deriving DecidableEq, Repr

/-- `counter` has 16 bits, `tx_cnt` 3. -/
structure Tx where
  txState : State
  counter : ℕ
  tsr : Byte
  txCnt : ℕ
  txOutput : Bool
  txParity : Bool
  thrRdInt : Bool
  thrRdDelay : Bool
  lastWord : Bool
  tsrEmpty : Bool
  thrEmpty : Bool
  thrReady : Bool
  txInShiftS : Bool
  txInShiftS1 : Bool
  txInStopS : Bool
  txInStopS1 : Bool
  deriving DecidableEq, Repr

def Tx.reset : Tx where
  txState := .start
  counter := 0
  tsr := 0
  txCnt := 0
  txOutput := true
  txParity := true
  thrRdInt := false
  thrRdDelay := false
  lastWord := false
  tsrEmpty := true
  thrEmpty := true
  thrReady := true
  txInShiftS := false
  txInShiftS1 := false
  txInStopS := false
  txInStopS1 := false

structure In where
  fifoEmptyThr : Bool
  fifoFullThr : Bool
  thr : Byte
  thrWr : Bool
  deriving DecidableEq, Repr

def Tx.thrRd (s : Tx) : Bool := s.thrRdInt && !s.thrRdDelay
def Tx.thrr (s : Tx) : Bool := s.thrReady
def Tx.temt (s : Tx) : Bool := s.thrEmpty && s.tsrEmpty
def Tx.sout (lcr : Lcr) (s : Tx) : Bool := if lcr.txBreak then false else s.txOutput

/-- One state's counting: from 0 to `load`, down to 1, and then on. -/
def count (load counter : ℕ) : ℕ :=
  if counter = 0 then load else if counter = 1 then 0 else counter - 1

def next (lcr : Lcr) (divisor : ℕ) (s : Tx) (i : In) : Tx :=
  let last := s.counter = 1
  { txState :=
      match s.txState with
      | .start => if s.thrRdDelay then .start1 else .start
      | .start1 => if last then .shift else .start1
      | .shift =>
        if last ∧ s.txCnt = lastBit lcr.databits then
          (if lcr.parityEn then .parity else .stop1bit) else .shift
      | .parity => if last then .stop1bit else .parity
      | .stop1bit =>
        if last then
          (if lcr.stopbits = 0 then .start else if lcr.stopbits = 1 then
            .stopHalfbit else .stop2bit)
        else .stop1bit
      | .stop2bit => if last then .start else .stop2bit
      | .stopHalfbit => if last then .start else .stopHalfbit
    counter :=
      match s.txState with
      | .start => s.counter
      | .stopHalfbit => count (divisor / 2) s.counter
      | _ => count divisor s.counter
    tsr :=
      match s.txState with
      | .start1 => if last then i.thr else s.tsr
      | .shift => if last then s.tsr >>> 1 else s.tsr
      | _ => s.tsr
    txCnt :=
      match s.txState with
      | .start1 => if last then 0 else s.txCnt
      | .shift => if last then (s.txCnt + 1) % 8 else s.txCnt
      | _ => s.txCnt
    txOutput :=
      match s.txState with
      | .start => s.txOutput
      | .start1 => false
      | .shift => s.tsr.getLsbD 0
      | .parity => if lcr.parityStick then !lcr.parityEven else s.txParity
      | _ => true
    txParity :=
      match s.txState with
      | .start1 => if last then !lcr.parityEven else s.txParity
      | .shift => if last then s.txParity ^^ s.tsr.getLsbD 0 else s.txParity
      | _ => s.txParity
    thrRdInt :=
      if s.txState = .start ∧ !i.fifoEmptyThr ∧ !s.thrRdInt then true
      else if s.txState = .shift then false
      else s.thrRdInt
    thrRdDelay := s.thrRdInt
    lastWord :=
      match s.txState with
      | .start1 => false
      | .stop1bit => if last ∧ i.fifoEmptyThr then true else s.lastWord
      | _ => s.lastWord
    tsrEmpty :=
      if !s.txInStopS && s.txInStopS1 && s.lastWord then true
      else if s.txInShiftS && !s.txInShiftS1 then false
      else s.tsrEmpty
    thrEmpty :=
      if i.thrWr then false
      else if i.fifoEmptyThr && s.txInShiftS && !s.txInShiftS1 then true
      else s.thrEmpty
    thrReady := !i.fifoFullThr
    txInShiftS := s.txState == .shift
    txInShiftS1 := s.txInShiftS
    txInStopS := s.txState == .stop1bit
    txInStopS1 := s.txInStopS }

end HashRatio.UartTx
