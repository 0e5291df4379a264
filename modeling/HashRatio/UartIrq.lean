import HashRatio.UartDriver

/-!
# The receive interrupt (lm32_interrupt.v, intface.v)

The arbiter of the UART gives its interrupt in pulses as long as the receive FIFO holds
a byte, and `IP` of the CPU keeps every pulse until it is written. A byte that comes in
between the last look of `uart_isr` at LSR and its `irq_ack` is announced again.
-/

namespace HashRatio.UartIrq
open Bytes Clocked UartCore UartDriver Run

/-! ### Interrupt registers of the CPU -/

inductive Csr where
  | ie
  | im
  | ip
  | other
  deriving DecidableEq, Repr

/-- Without the debug unit. -/
structure Interrupt where
  ie : Bool
  eie : Bool
  ip : Word
  im : Word
  deriving DecidableEq, Repr

def Interrupt.reset : Interrupt := ⟨false, false, 0, 0⟩

/-- What the pipeline does to the interrupt unit in a cycle. -/
structure Pipeline where
  exception : Bool
  stallX : Bool
  eretQX : Bool
  csr : Csr
  csrWriteData : Word
  csrWriteEnable : Bool
  deriving DecidableEq, Repr

/-- A register is written. -/
def Pipeline.writes (q : Pipeline) (r : Csr) : Prop :=
  q.exception = false ∧ q.stallX = false ∧ q.eretQX = false ∧ q.csrWriteEnable = true ∧ q.csr = r

instance (q : Pipeline) (r : Csr) : Decidable (q.writes r) :=
  inferInstanceAs (Decidable (_ ∧ _))

/-- `lines`: the complement of `interrupt_n`. -/
def Interrupt.next (s : Interrupt) (lines : Word) (q : Pipeline) : Interrupt :=
  let asserted := s.ip ||| lines
  { ip := if q.writes .ip then asserted &&& ~~~q.csrWriteData else asserted
    im := if q.writes .im then q.csrWriteData else s.im
    ie :=
      if q.exception then false
      else if !q.stallX ∧ q.eretQX then s.eie
      else if q.writes .ie then q.csrWriteData.getLsbD 0
      else s.ie
    eie :=
      if q.exception then s.ie
      else if q.writes .ie then q.csrWriteData.getLsbD 1
      else s.eie }

def Interrupt.interruptException (s : Interrupt) : Bool := (s.ip &&& s.im) != 0 && s.ie

/-! ### The CPU's unit and the UART -/

/-- The number of the UART's line. -/
def irqUart : ℕ := 3

structure Machine (F G : Type) where
  core : Core F G
  irq : Interrupt

/-- One clock; `others`: the lines of the other devices. -/
structure Tick where
  cycle : Cycle
  sin : Bool
  others : Word
  pipeline : Pipeline
  deriving DecidableEq, Repr

def lines (others : Word) (intr : Bool) : Word :=
  (others &&& ~~~((1 : Word) <<< irqUart)) ||| (if intr then (1 : Word) <<< irqUart else 0)

variable {F G : Type}

def Machine.next (p : Parts F G) (s : Machine F G) (t : Tick) : Machine F G :=
  ⟨s.core.next p t.cycle t.sin, s.irq.next (lines t.others s.core.intr) t.pipeline⟩

def Machine.reset (p : Parts F G) (divisor : BitVec 16) (lsr : BitVec 7) : Machine F G :=
  ⟨.reset p divisor lsr, .reset⟩

/-- `irq_ack` of a mask with the UART's bit. -/
def Tick.Acks (t : Tick) : Prop :=
  t.pipeline.writes .ip ∧ t.pipeline.csrWriteData.getLsbD irqUart = true

instance (t : Tick) : Decidable t.Acks := inferInstanceAs (Decidable (_ ∧ _))

section machine
variable {p : Parts F G} {s : Machine F G} {t : Tick}

theorem lines_uart (others : Word) (intr : Bool) : (lines others intr).getLsbD irqUart = intr := by
  cases intr <;> simp [lines, irqUart]

theorem ip_next (i : Interrupt) (l : Word) (q : Pipeline) (k : ℕ) (hk : k < 32) :
    (i.next l q).ip.getLsbD k =
      ((i.ip.getLsbD k || l.getLsbD k) && !decide
        (q.writes .ip ∧ q.csrWriteData.getLsbD k = true)) := by
  by_cases hw : q.writes .ip
  · simp only [Interrupt.next, hw, if_true, BitVec.getLsbD_and, BitVec.getLsbD_or,
      BitVec.getLsbD_not, hk, decide_true,
      Bool.true_and, true_and, Bool.decide_eq_true]
  · simp only [Interrupt.next, hw, if_false, BitVec.getLsbD_or, false_and, decide_false,
      Bool.not_false, Bool.and_true]

/-- Without an acknowledge the bit stays, and is set by the line. -/
theorem pending_next (hack : ¬t.Acks) (h : s.irq.ip.getLsbD irqUart = true ∨ s.core.intr = true) :
    (s.next p t).irq.ip.getLsbD irqUart = true := by
  have hip : (s.next p t).irq.ip.getLsbD irqUart = _ :=
    ip_next s.irq (lines t.others s.core.intr) t.pipeline irqUart (by decide)
  rw [hip, lines_uart]
  have hnot :
      decide (t.pipeline.writes .ip ∧ t.pipeline.csrWriteData.getLsbD irqUart = true) = false :=
    decide_eq_false hack
  rw [hnot, Bool.not_false, Bool.and_true, Bool.or_eq_true]
  exact h

/-- A pulse now or with the next clock: of the receive interrupt, or of one before it in the
arbiter. -/
theorem shown_intr (hier : s.core.intface.ier.getLsbD 0 = true)
    (hshown : p.rx.empty s.core.rxFifo = false) :
    s.core.intr = true ∨ (s.next p t).core.intr = true := by
  have hnext : (s.next p t).core.intface.csState = s.core.nextState p t.cycle := rfl
  cases hst : s.core.intface.csState with
  | idle =>
    right
    rw [Core.intr, hnext, Core.nextState, hst]
    simp only [hier, hshown, Bool.not_false, or_true, and_self, if_true]
    split <;> rfl
  | _ =>
    left
    rw [Core.intr, hst]
    rfl

end machine

/-! ### Over whole runs -/

section runs
variable {p : Parts F G} {s : Machine F G}

theorem pending_run (ts : List Tick) (hack : ∀ t ∈ ts, ¬t.Acks)
    (h : s.irq.ip.getLsbD irqUart = true) :
    (run (Machine.next p) s ts).irq.ip.getLsbD irqUart = true :=
  run_invariant (Machine.next p) (fun _ t => ¬t.Acks) (fun s => s.irq.ip.getLsbD irqUart = true)
    (fun _ _ hack h => pending_next hack (.inl h)) s ts
    (meets_of_forall _ _ s ts fun t ht _ => hack t ht) h

theorem shown_pending (hier : s.core.intface.ier.getLsbD 0 = true)
    (hshown : p.rx.empty s.core.rxFifo = false)
    (ts : List Tick) (hack : ∀ t ∈ ts, ¬t.Acks) (hlen : 2 ≤ ts.length) :
    (run (Machine.next p) s ts).irq.ip.getLsbD irqUart = true := by
  match ts with
  | t :: t' :: ts =>
    obtain ⟨hfirst, hrest⟩ := List.forall_mem_cons.mp hack
    obtain ⟨hsecond, hrest⟩ := List.forall_mem_cons.mp hrest
    refine pending_run ts hrest (pending_next hsecond ?_)
    obtain hnow | hnext := shown_intr (t := t) hier hshown
    · exact .inl (pending_next hfirst (.inr hnow))
    · exact .inr hnext

end runs

/-- A byte in the receive FIFO is announced while bit 0 of IER is set, whatever the bus, the line
and the other interrupts do: two clocks without an acknowledge of the UART's interrupt later it is
pending, and stays so until the next. With its mask bit and `IE` set the unit requests the
exception. -/
theorem byte_announced (p : Parts F G) (divisor : BitVec 16) (lsr : BitVec 7) (ts : List Tick)
    (hon :
      (run (Machine.next p) (Machine.reset p divisor lsr) ts).core.intface.ier.getLsbD 0 = true)
    (hshown :
      p.rx.empty (run (Machine.next p) (Machine.reset p divisor lsr) ts).core.rxFifo = false)
    (after : List Tick) (hack : ∀ t ∈ after, ¬t.Acks) (hlen : 2 ≤ after.length) :
    let s := run (Machine.next p) (Machine.reset p divisor lsr) (ts ++ after)
    s.irq.ip.getLsbD irqUart = true ∧
      (s.irq.im.getLsbD irqUart = true → s.irq.ie = true → s.irq.interruptException = true) := by
  have hpending := shown_pending hon hshown after hack hlen
  rw [run_append]
  refine ⟨hpending, fun him hie => ?_⟩
  rw [Interrupt.interruptException, hie, Bool.and_true, bne_iff_ne]
  intro hzero
  have hbit := congrArg (fun w => w.getLsbD irqUart) hzero
  simp only [BitVec.getLsbD_and, hpending, him] at hbit
  exact absurd hbit (by decide)

/-- A clock in which the pipeline leaves the interrupt unit alone. -/
def plainTick (c : Cycle) (sin : Bool) : Tick :=
  ⟨c, sin, 0, ⟨false, false, false, .other, 0, false⟩⟩

/-- A register of the interrupt unit is written. -/
def csrTick (r : Csr) (v : Word) : Tick :=
  ⟨⟨false, false, 0, 0⟩, true, 0, ⟨false, false, false, r, v, true⟩⟩

/-- The UART's interrupt is unmasked, all of IER is set, so that the transmitter is announced too,
and a frame comes in. -/
def oneByte : List Tick :=
  [csrTick .ie 1, csrTick .im 8, plainTick (write ierAddr 7) true,
    plainTick (write ierAddr 7) true] ++
    (Serial.frame 4 0xa5 ++ List.replicate 5 true).map (plainTick ⟨false, false, 0, 0⟩)

theorem byte_announced_once :
    let s := run (Machine.next plainParts) (Machine.reset plainParts 4 0)
      (oneByte ++ [plainTick ⟨false, false, 0, 0⟩ true, plainTick ⟨false, false, 0, 0⟩ true])
    s.irq.ip.getLsbD irqUart = true ∧ s.irq.interruptException = true := by
  obtain ⟨hpending, hrequests⟩ := byte_announced plainParts 4 0 oneByte (by decide +kernel)
    (by decide +kernel)
    [plainTick ⟨false, false, 0, 0⟩ true, plainTick ⟨false, false, 0, 0⟩ true]
    (by decide +kernel) (by decide)
  exact ⟨hpending, hrequests (by decide +kernel) (by decide +kernel)⟩

end HashRatio.UartIrq
