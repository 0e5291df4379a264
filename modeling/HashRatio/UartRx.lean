import HashRatio.UartTx

/-!
# The UART receiver (rxcver.v)

The instance with the FIFO: a falling edge starts a frame, every symbol is sampled in the
middle of its `divisor` clocks, and after the stop bit the byte goes to the FIFO with its
error bits.
-/

namespace HashRatio.UartRx
open Bytes UartTx

/-! ### Registers -/

inductive State where
  | idle
  | idle1
  | shift
  | parity
  | stop
  deriving DecidableEq, Repr

/-- What goes to the FIFO: the byte and three error bits. -/
structure FifoWord where
  data : Byte
  breakInt : Bool
  parityErr : Bool
  frameErr : Bool
  deriving DecidableEq, Repr

/-- `counter` has 16 bits, `databit_recved_num` 4. -/
structure Rx where
  csState : State
  counter : ℕ
  rsr : Byte
  databitRecvedNum : ℕ
  rxParityErr : Bool
  rxFrameErr : Bool
  rxIdle : Bool
  hunt : Bool
  huntOne : Bool
  sampledOnce : Bool
  sinD0 : Bool
  sinD0Delay : Bool
  sinD1 : Bool
  rxFrameErrD1 : Bool
  rxIdleD1 : Bool
  parityErrInt : Bool
  frameErrInt : Bool
  breakIntInt : Bool
  overrunErrInt : Bool
  rbrDatardy : Bool
  fifoDin : FifoWord
  fifoWr : Bool
  fifoWrQ : Bool
  deriving DecidableEq, Repr

def Rx.reset : Rx where
  csState := .idle
  counter := 0
  rsr := 0
  databitRecvedNum := 0
  rxParityErr := true
  rxFrameErr := false
  rxIdle := true
  hunt := false
  huntOne := false
  sampledOnce := false
  sinD0 := false
  sinD0Delay := false
  sinD1 := false
  rxFrameErrD1 := true
  rxIdleD1 := true
  parityErrInt := false
  frameErrInt := false
  breakIntInt := false
  overrunErrInt := false
  rbrDatardy := false
  fifoDin := ⟨0, false, false, false⟩
  fifoWr := false
  fifoWrQ := false

structure In where
  sin : Bool
  lsrRd : Bool
  fifoFull : Bool
  fifoEmpty : Bool
  deriving DecidableEq, Repr

def Rx.fifoWrPulse (s : Rx) : Bool := s.fifoWr && !s.fifoWrQ

/-- The word the FIFO is offered at the next edge. -/
def Rx.offers (s : Rx) : Option FifoWord := if s.fifoWrPulse then some s.fifoDin else none

/-- One down in 16 bits. -/
def dec (n : ℕ) : ℕ := (n + 65535) % 65536

def next (lcr : Lcr) (divisor : ℕ) (s : Rx) (i : In) : Rx :=
  let mid := s.counter = divisor / 2
  let last := s.counter = 1
  { csState :=
      match s.csState with
      | .idle => if !s.sinD0 ∧ s.sinD0Delay then .idle1 else .idle
      | .idle1 => if last then .shift else if mid ∧ s.sinD0 then .idle else .idle1
      | .shift =>
        if last ∧ s.databitRecvedNum = lcr.databits.toNat + 5 then
          (if lcr.parityEn then .parity else .stop) else .shift
      | .parity => if last then .stop else .parity
      | .stop => if mid then .idle else .stop
    counter :=
      match s.csState with
      | .idle => dec divisor
      | .stop => dec s.counter
      | _ => if last then divisor else dec s.counter
    rsr :=
      match s.csState with
      | .idle1 => if mid ∧ !s.sinD0 then 0 else s.rsr
      | .shift => if mid then BitVec.cons s.sinD0 (s.rsr.extractLsb' 1 7) else s.rsr
      | _ => s.rsr
    databitRecvedNum :=
      match s.csState with
      | .idle1 => if mid ∧ !s.sinD0 then 0 else s.databitRecvedNum
      | .shift => if mid then (s.databitRecvedNum + 1) % 16 else s.databitRecvedNum
      | _ => s.databitRecvedNum
    rxParityErr :=
      match s.csState with
      | .idle1 => if mid ∧ !s.sinD0 then !lcr.parityEven else s.rxParityErr
      | .shift => if mid then s.rxParityErr ^^ s.sinD0 else s.rxParityErr
      | .parity =>
        if mid then
          (if !lcr.parityStick then s.rxParityErr ^^ s.sinD0 else if !lcr.parityEven then
            !s.sinD0 else s.sinD0)
        else s.rxParityErr
      | _ => s.rxParityErr
    rxFrameErr :=
      match s.csState with
      | .idle1 => if mid ∧ !s.sinD0 then false else s.rxFrameErr
      | .stop => if mid then !s.sinD0 else s.rxFrameErr
      | _ => s.rxFrameErr
    rxIdle := s.csState == .idle
    hunt :=
      if s.csState = .idle ∧ !s.sinD0 ∧ s.sinD1 then true
      else if s.sampledOnce ∧ !s.sinD0 then true
      else if !s.rxIdle ∨ s.sinD0 then false
      else s.hunt
    huntOne :=
      if s.hunt then false
      else if !s.rxIdle ∧ mid ∧ s.sinD0 then true
      else s.huntOne
    sampledOnce := s.rxFrameErr && !s.rxFrameErrD1 && !s.sinD0 && s.huntOne
    sinD0 := i.sin
    sinD0Delay := s.sinD0
    sinD1 := s.sinD0
    rxFrameErrD1 := s.rxFrameErr
    rxIdleD1 := s.rxIdle
    parityErrInt := s.rxParityErr && lcr.parityEn
    frameErrInt := s.rxFrameErr
    breakIntInt := !s.huntOne
    overrunErrInt := if i.fifoFull ∧ s.fifoWr then true else if i.lsrRd then false
      else s.overrunErrInt
    rbrDatardy := !i.fifoEmpty
    fifoDin :=
      if s.rxIdle ∧ !s.rxIdleD1 then
        (if s.breakIntInt then ⟨0, true, false, false⟩
        else ⟨s.rsr >>> (3 - lcr.databits.toNat), false, s.parityErrInt, s.frameErrInt⟩)
      else s.fifoDin
    fifoWr := s.rxIdle && !s.rxIdleD1
    fifoWrQ := s.fifoWr }

end HashRatio.UartRx
