import HashRatio.UartCore

/-!
# The UART driver (uart.c)

`uart_init`, `uart_write` and `uart_isr` on the device, access by access, with any other
cycles in between. `uart_write` masks the interrupts; `uart_init` unmasks its own once it
has written IER, so the handler may come before the writes that are left.
-/

namespace HashRatio.UartDriver
open Bytes Clocked UartCore UartRecv UartSend Serial Run
open UartTx (Lcr)

variable {F G : Type}

/-! ### Bus accesses -/

def write (adr : BitVec 4) (dat : Byte) : Cycle := ⟨true, true, adr, dat⟩
def read (adr : BitVec 4) : Cycle := ⟨true, false, adr, 0⟩

/-- A cycle that is not for this device. -/
def gap (p : Parts F G) (s : Core F G) (c : Cycle) (sin : Bool) : Core F G :=
  s.next p {c with stb := false} sin

/-- The strobe is held until the acknowledge in the second cycle, where the data are taken. -/
def busAccess (p : Parts F G) (s : Core F G) (c : Cycle) (sin sin' : Bool) : Core F G × Byte :=
  ((s.next p c sin).next p c sin', (s.next p c sin).datO p c.adr)

/-! ### The driver -/

def mcrAddr : BitVec 4 := 4
def divlAddr : BitVec 4 := 8
def divhAddr : BitVec 4 := 9

def lm32UartIerRbri : Byte := 0x01
def lm32UartMcrDtr : Byte := 0x01
def lm32UartMcrRts : Byte := 0x02
def lm32UartLsrDr : Byte := 0x01
def lm32UartLsrThrr : Byte := 0x20
def lm32UartLsrTemt : Byte := 0x40

def cpuFrequency : ℕ := 100 * 1000 * 1000
def uartBaudRate : ℕ := 115200

/-- The register writes of `uart_init`. -/
def uartInit : List (BitVec 4 × Byte) :=
  [(ierAddr, lm32UartIerRbri), (lcrAddr, UartTx.lm32UartLcr8bit.setWidth 8),
    (mcrAddr, lm32UartMcrDtr ||| lm32UartMcrRts),
    (divlAddr, BitVec.ofNat 8 (cpuFrequency / uartBaudRate &&& 0xff)),
    (divhAddr, BitVec.ofNat 8 ((cpuFrequency / uartBaudRate) >>> 8))]

/-- Where the program is: `poll` and `put` in `uart_write`, `isr` and `get` in `uart_isr`; `todo`:
what is left of `uart_init`. -/
inductive Pc where
  | init (todo : List (BitVec 4 × Byte))
  | rest
  | poll (c : Byte)
  | put (c : Byte)
  | isr (todo : List (BitVec 4 × Byte))
  | get (todo : List (BitVec 4 × Byte))
  deriving DecidableEq, Repr

/-- The next access. -/
def Pc.cycle : Pc → Option Cycle
  | .init todo => todo.head?.map fun w => write w.1 w.2
  | .rest => none
  | .poll _ => some (read lsrAddr)
  | .put c => some (write thrAddr c)
  | .isr _ => some (read lsrAddr)
  | .get _ => some (read rbrAddr)

def Pc.resume : List (BitVec 4 × Byte) → Pc
  | [] => .rest
  | w :: todo => .init (w :: todo)

/-- Where the access leads; `v`: what was read. -/
def Pc.next (v : Byte) : Pc → Pc
  | .init todo => resume todo.tail
  | .rest => .rest
  | .poll c => if v &&& (lm32UartLsrThrr ||| lm32UartLsrTemt) = 0 then .poll c else .put c
  | .put _ => .rest
  | .isr todo => if v &&& lm32UartLsrDr = 0 then resume todo else .get todo
  | .get todo => .isr todo

/-- `uart_write` is called when nothing else runs. -/
def Pc.call (c : Byte) : Pc → Pc
  | .rest => .poll c
  | pc => pc

/-- The handler comes when it is unmasked: not before the first write of `uart_init`, and not in
`uart_write`. -/
def Pc.interrupt : Pc → Pc
  | .rest => .isr []
  | .init todo => if todo = uartInit then .init todo else .isr todo
  | pc => pc

def Pc.stored (v : Byte) : Pc → List Byte
  | .get _ => [v]
  | _ => []

/-- `rxBuf`: what `uart_isr` put into the ring; `heard`: the line at every edge. -/
structure Sys (F G : Type) where
  core : Core F G
  pc : Pc
  rxBuf : List Byte
  heard : List Bool

inductive Ev where
  | gap (c : Cycle) (sin : Bool)
  | uartWrite (c : Byte)
  | uartIsr
  | access (sin sin' : Bool)

/-- Reset, with the divisor of `CLK_IN_MHZ` and `BAUD_RATE`; `lsr` is not reset. -/
def Sys.start (p : Parts F G) (lsr : BitVec 7) : Sys F G where
  core := .reset p (BitVec.ofNat 16 (100 * 1000 * 1000 / 115200)) lsr
  pc := .init uartInit
  rxBuf := []
  heard := []

def Sys.access (p : Parts F G) (s : Sys F G) (sin sin' : Bool) : Sys F G :=
  match s.pc.cycle with
  | none => s
  | some c =>
    let r := busAccess p s.core c sin sin'
    { core := r.1
      pc := s.pc.next r.2
      rxBuf := s.rxBuf ++ s.pc.stored r.2
      heard := s.heard ++ [sin, sin'] }

def exec (p : Parts F G) (s : Sys F G) : Ev → Sys F G
  | .gap c sin => {s with core := gap p s.core c sin, heard := s.heard ++ [sin]}
  | .uartWrite c => {s with pc := s.pc.call c}
  | .uartIsr => {s with pc := s.pc.interrupt}
  | .access sin sin' => s.access p sin sin'

/-- The byte of a call that begins. -/
def Pc.called : Pc → Ev → List Byte
  | .rest, .uartWrite c => [c]
  | _, _ => []

/-- The bytes given to `uart_write`. -/
def given (p : Parts F G) : Sys F G → List Ev → List Byte
  | _, [] => []
  | s, e :: es => s.pc.called e ++ given p (exec p s e) es

/-- The byte of the call that is running. -/
def Pc.pending : Pc → List Byte
  | .poll c | .put c => [c]
  | _ => []

@[simp] theorem put_pending (c : Byte) : (Pc.put c).pending = [c] := rfl

@[simp] theorem rest_pending : Pc.rest.pending = [] := rfl

/-! ### What the flags say -/

section flags
variable {p : Parts F G} {v : View p.tx} {u : View p.rx} {s : Core F G} {c : Cycle} {sin : Bool}

theorem next_txFifo : (s.next p c sin).sender.fifo =
    p.tx.step s.sender.fifo (s.sender.thrWrStrobe p.tx (s.thrWr c)) s.sender.tx.thrRd := rfl

/-- TEMT is not given while the FIFO is full; `thr_wr` comes a cycle after the write. -/
def Spare (p : Parts F G) (s : Core F G) : Prop :=
  s.sender.tx.thrEmpty = true → s.sender.thrWr = false → p.tx.full s.sender.fifo = false

theorem calm_full (v : View p.tx) (hcalm : s.thrWr c = none) (h : p.tx.full s.sender.fifo = false) :
    p.tx.full (s.next p c sin).sender.fifo = false := by
  rw [next_txFifo, hcalm, Sender.thrWrStrobe, ite_self]
  exact v.full_stays _ _ h

theorem calm_thrr (v : View p.tx) (hcalm : s.thrWr c = none)
    (h : (s.next p c sin).sender.tx.thrReady = true) :
    p.tx.full (s.next p c sin).sender.fifo = false := by
  refine calm_full v hcalm ?_
  have hready : (s.next p c sin).sender.tx.thrReady = !p.tx.full s.sender.fifo := rfl
  rw [hready] at h
  exact Bool.not_eq_true' _ ▸ h

theorem spare_next (v : View p.tx) (h : Spare p s) : Spare p (s.next p c sin) := by
  intro hempty hwr
  have hwr' : (s.sender.thrWrStrobe p.tx (s.thrWr c)).isSome = false := hwr
  have hfifo : (s.next p c sin).sender.fifo = p.tx.step s.sender.fifo none s.sender.tx.thrRd := by
    rw [next_txFifo, Option.isSome_eq_false_iff.mp hwr' |> Option.isNone_iff_eq_none.mp]
  rw [hfifo]
  apply v.full_stays
  have hthr : (s.next p c sin).sender.tx.thrEmpty =
    if s.sender.thrWr then false
    else if p.tx.empty s.sender.fifo && s.sender.tx.txInShiftS && !s.sender.tx.txInShiftS1 then true
    else s.sender.tx.thrEmpty := rfl
  rw [hthr] at hempty
  cases hlast : s.sender.thrWr with
  | true =>
    rw [hlast] at hempty
    cases hempty
  | false =>
    rw [hlast, if_neg Bool.false_ne_true] at hempty
    by_cases hset :
      (p.tx.empty s.sender.fifo && s.sender.tx.txInShiftS && !s.sender.tx.txInShiftS1) = true
    · simp only [Bool.and_eq_true] at hset
      exact v.room _ hset.1.1
    · rw [if_neg hset] at hempty
      exact h hempty hlast

/-- The receive FIFO still shows a word when RxRDY says so. -/
theorem calm_ready (u : View p.rx) (hcalm : s.rbrRdStrobe p c = false)
    (h : (s.next p c sin).receiver.rx.rbrDatardy = true) :
    p.rx.empty (s.next p c sin).rxFifo = false := by
  have hready : (s.next p c sin).receiver.rx.rbrDatardy = !p.rx.empty s.rxFifo := rfl
  have hfifo : (s.next p c sin).rxFifo =
      p.rx.step s.rxFifo (s.receiver.rx.offers.map UartRx.FifoWord.data) false := by
    rw [← hcalm]
    rfl
  rw [hready] at h
  rw [hfifo]
  exact u.stays _ _ (Bool.not_eq_true' _ ▸ h)

end flags

/-! ### Every cycle -/

/-- The divisor `uart_init` sets. -/
def divisor : BitVec 16 := 868

/-- The cycle writes nothing but THR or what `uart_init` writes. -/
def Proper (c : Cycle) : Prop :=
  c.stb = true → c.we = true → c.adr = thrAddr ∨ (c.adr, c.dat) ∈ uartInit

/-- What every cycle keeps. -/
structure Base (p : Parts F G) (v : View p.tx) (s : Core F G) (heard : List Bool) : Prop where
  divisor : s.intface.divisor = divisor
  plain : s.lcr.Plain
  spare : Spare p s
  sender : ∃ n, Phase v 868 n s.sender
  receiver : ∃ es : List Edge, (∀ e ∈ es, e.lcr.Plain) ∧ es.map Edge.sin = heard ∧
    s.receiver = run (Receiver.edge 868) Receiver.reset es

section base
variable {p : Parts F G} {v : View p.tx} {s : Core F G} {heard : List Bool} {c : Cycle} {sin : Bool}

theorem proper_lcr (hc : Proper c) (h : s.lcr.Plain) : (s.next p c sin).lcr.Plain := by
  have hlcr : (s.next p c sin).intface.lcr =
    if (c.stb ∧ c.we) ∧ c.adr = lcrAddr then c.dat.setWidth 7 else s.intface.lcr := rfl
  rw [Core.lcr, hlcr]
  by_cases hwrite : (c.stb ∧ c.we) ∧ c.adr = lcrAddr
  · rw [if_pos hwrite]
    have hdat : c.dat = 0x03 := by
      have hmem := hc hwrite.1.1 hwrite.1.2
      rw [hwrite.2] at hmem
      simpa [uartInit, thrAddr, lcrAddr, ierAddr, mcrAddr, divlAddr, divhAddr,
        UartTx.lm32UartLcr8bit] using hmem
    rw [hdat]
    exact UartTx.lcr8bit_plain
  · rw [if_neg hwrite]
    exact h

theorem proper_divisor (hc : Proper c) (h : s.intface.divisor = divisor) :
    (s.next p c sin).intface.divisor = divisor := by
  have hdiv : (s.next p c sin).intface.divisor =
    if (c.stb ∧ c.we) ∧ c.adr.extractLsb' 1 3 = divAddr then
      (if c.adr.getLsbD 0 then c.dat ++ s.intface.divisor.setWidth 8
        else s.intface.divisor.extractLsb' 8 8 ++ c.dat)
    else s.intface.divisor := rfl
  rw [hdiv, h]
  by_cases hwrite : (c.stb ∧ c.we) ∧ c.adr.extractLsb' 1 3 = divAddr
  · rw [if_pos hwrite]
    have hmem := hc hwrite.1.1 hwrite.1.2
    have hadr := hwrite.2
    simp only [uartInit, List.mem_cons, Prod.mk.injEq, List.not_mem_nil, or_false] at hmem
    obtain hthr | ⟨hier, -⟩ | ⟨hlcr, -⟩ | ⟨hmcr, -⟩ | ⟨hdivl, hdat⟩ | ⟨hdivh, hdat⟩ := hmem
    · exact absurd hadr (hthr ▸ by decide)
    · exact absurd hadr (hier ▸ by decide)
    · exact absurd hadr (hlcr ▸ by decide)
    · exact absurd hadr (hmcr ▸ by decide)
    · rw [hdivl, hdat]
      decide
    · rw [hdivh, hdat]
      decide
  · rw [if_neg hwrite]

theorem base_next (hc : Proper c) (h : Base p v s heard) :
    Base p v (s.next p c sin) (heard ++ [sin]) := by
  have hdiv : s.intface.divisor.toNat = 868 := by
    rw [h.divisor]
    rfl
  refine ⟨proper_divisor hc h.divisor, proper_lcr hc h.plain, spare_next v h.spare, ?_, ?_⟩
  · obtain ⟨n, hphase⟩ := h.sender
    have hsender : (s.next p c sin).sender = Sender.next p.tx s.lcr 868 s.sender (s.thrWr c) := by
      rw [← hdiv]
      rfl
    rw [hsender]
    exact ⟨_, phase_next h.plain (by decide) hphase⟩
  · obtain ⟨es, hplain, hheard, hrun⟩ := h.receiver
    let e : Edge := ⟨s.lcr, ⟨sin, s.lsrRdStrobe c, p.rx.full s.rxFifo, p.rx.empty s.rxFifo⟩⟩
    refine ⟨es ++ [e], ?_, ?_, ?_⟩
    · exact List.forall_mem_append.mpr ⟨hplain, List.forall_mem_singleton.mpr h.plain⟩
    · rw [List.map_append, hheard]
      rfl
    · rw [run_append, ← hrun, ← hdiv]
      rfl

end base

/-! ### Whole accesses -/

/-- Between accesses: what the flags of LSR show is still so. -/
structure Quiet (p : Parts F G) (s : Core F G) : Prop where
  ackO : s.intface.ackO = false
  thrWr : s.sender.thrWr = false
  thrr : s.sender.tx.thrReady = true → p.tx.full s.sender.fifo = false
  ready : s.receiver.rx.rbrDatardy = true → p.rx.empty s.rxFifo = false

section accesses
variable {p : Parts F G} {v : View p.tx} {u : View p.rx} {s : Core F G} {heard : List Bool}
  {c : Cycle} {sin sin' : Bool}

theorem quiet_next (v : View p.tx) (u : View p.rx) (hthr : s.thrWr c = none)
    (hrbr : s.rbrRdStrobe p c = false) (hack : (s.next p c sin).intface.ackO = false) :
    Quiet p (s.next p c sin) := by
  refine ⟨hack, ?_, calm_thrr v hthr, calm_ready u hrbr⟩
  change (s.sender.thrWrStrobe p.tx (s.thrWr c)).isSome = false
  rw [hthr, Sender.thrWrStrobe, ite_self]
  rfl

theorem quiet_gap (v : View p.tx) (u : View p.rx) : Quiet p (gap p s c sin) := by
  refine quiet_next v u ?_ ?_ ?_
  · simp [Core.thrWr]
  · simp [Core.rbrRdStrobe]
  · change (if s.intface.ackO then false else false) = false
    exact ite_self _

theorem first_ack (hack : s.intface.ackO = false) (hstb : c.stb = true) :
    (s.next p c sin).intface.ackO = true := by
  change (if s.intface.ackO then false else c.stb) = true
  rw [hack, hstb, if_neg Bool.false_ne_true]

theorem second_quiet (v : View p.tx) (u : View p.rx) (hack : s.intface.ackO = true) :
    Quiet p (s.next p c sin) := by
  refine quiet_next v u ?_ ?_ ?_
  · simp [Core.thrWr, hack]
  · simp [Core.rbrRdStrobe, hack]
  · change (if s.intface.ackO then false else c.stb) = false
    rw [hack, if_pos rfl]

theorem quiet_access (v : View p.tx) (u : View p.rx) (hack : s.intface.ackO = false)
    (hstb : c.stb = true) :
    Quiet p (busAccess p s c sin sin').1 := second_quiet v u (first_ack hack hstb)

theorem base_access (hc : Proper c) (h : Base p v s heard) :
    Base p v (busAccess p s c sin sin').1 (heard ++ [sin, sin']) := by
  have hboth : Base p v (busAccess p s c sin sin').1 (heard ++ [sin] ++ [sin']) :=
    base_next hc (base_next hc h)
  rwa [List.append_assoc] at hboth

/-- The cycle writes no byte in whatever state. -/
def NoPut (c : Cycle) : Prop := c.stb = true → c.we = true → c.adr ≠ thrAddr

/-- The cycle takes no byte. -/
def NoGet (c : Cycle) : Prop := c.stb = true → c.we = false → c.adr ≠ rbrAddr

theorem noPut_thrWr (h : NoPut c) : s.thrWr c = none := by
  rw [Core.thrWr, if_neg]
  rintro ⟨hadr, hstb, hwe, -⟩
  exact h hstb hwe hadr

theorem noGet_strobe (h : NoGet c) : s.rbrRdStrobe p c = false := by
  cases hstb : c.stb with
  | false => simp [Core.rbrRdStrobe, hstb]
  | true =>
    cases hwe : c.we with
    | true => simp [Core.rbrRdStrobe, hwe]
    | false => simp [Core.rbrRdStrobe, h hstb hwe]

theorem noPut_accepted (h : NoPut c) : (s.next p c sin).sender.accepted = s.sender.accepted := by
  change s.sender.accepted ++ p.tx.takes s.sender.fifo (s.sender.thrWrStrobe p.tx (s.thrWr c)) = _
  rw [noPut_thrWr h, Sender.thrWrStrobe, ite_self, Fifo.takes, Option.toList,
    ite_self, List.append_nil]

theorem noPut_access (v : View p.tx) (h : NoPut c) :
    (busAccess p s c sin sin').1.sender.accepted = s.sender.accepted ∧
      (p.tx.full s.sender.fifo = false →
        p.tx.full (busAccess p s c sin sin').1.sender.fifo = false) := by
  refine ⟨?_, fun hfull => calm_full v (noPut_thrWr h) (calm_full v (noPut_thrWr h) hfull)⟩
  exact (noPut_accepted h).trans (noPut_accepted h)

theorem noGet_empty (u : View p.rx) (h : NoGet c) (hempty : p.rx.empty s.rxFifo = false) :
    p.rx.empty (s.next p c sin).rxFifo = false := by
  change p.rx.empty (p.rx.step s.rxFifo _ (s.rbrRdStrobe p c)) = false
  rw [noGet_strobe h]
  exact u.stays _ _ hempty

/-- A byte written while there is room is accepted. -/
theorem put_access {b : Byte} (hack : s.intface.ackO = false)
    (hfull : p.tx.full s.sender.fifo = false) :
    (busAccess p s (write thrAddr b) sin sin').1.sender.accepted = s.sender.accepted ++ [b] := by
  have hfirst : s.thrWr (write thrAddr b) = some b := by simp [Core.thrWr, write, hack]
  have hsecond : (s.next p (write thrAddr b) sin).thrWr (write thrAddr b) = none := by
    have hack' : (s.next p (write thrAddr b) sin).intface.ackO = true := first_ack hack rfl
    simp [Core.thrWr, hack']
  have hlast : (busAccess p s (write thrAddr b) sin sin').1.sender.accepted =
    (s.next p (write thrAddr b) sin).sender.accepted := by
    change (s.next p (write thrAddr b) sin).sender.accepted ++ p.tx.takes _
      ((s.next p (write thrAddr b) sin).sender.thrWrStrobe p.tx
        ((s.next p (write thrAddr b) sin).thrWr _)) = _
    rw [hsecond, Sender.thrWrStrobe, ite_self, Fifo.takes, Option.toList, ite_self, List.append_nil]
  rw [hlast]
  change s.sender.accepted ++ p.tx.takes s.sender.fifo (s.sender.thrWrStrobe p.tx (s.thrWr _)) = _
  rw [hfirst, Sender.thrWrStrobe, hfull, if_neg Bool.false_ne_true, Fifo.takes, hfull,
    if_neg Bool.false_ne_true]
  rfl

theorem lsr_bits (temt thrr bi fe pe oe dr : Bool) :
    let v :
      Byte := BitVec.cons false (BitVec.cons temt (BitVec.cons thrr (BitVec.cons bi (BitVec.cons fe
      (BitVec.cons pe (BitVec.cons oe (BitVec.ofBool dr)))))))
    (v &&& (lm32UartLsrThrr ||| lm32UartLsrTemt) ≠ 0 ↔ temt = true ∨ thrr = true) ∧
    (v &&& lm32UartLsrDr ≠ 0 ↔ dr = true) := by
  revert temt thrr bi fe pe oe dr
  decide

/-- `uart_write` goes on when there is room. -/
theorem poll_room (hq : Quiet p s) (hspare : Spare p s)
    (hv : (busAccess p s (read lsrAddr) sin sin').2 &&& (lm32UartLsrThrr ||| lm32UartLsrTemt) ≠ 0) :
    p.tx.full s.sender.fifo = false := by
  obtain htemt | hthrr := (lsr_bits _ _ _ _ _ _ _).1.mp hv
  · rw [UartTx.Tx.temt, Bool.and_eq_true] at htemt
    exact hspare htemt.1 hq.thrWr
  · exact hq.thrr hthrr

/-- `uart_isr` reads a byte when there is one. -/
theorem isr_ready (hq : Quiet p s)
    (hv : (busAccess p s (read lsrAddr) sin sin').2 &&& lm32UartLsrDr ≠ 0) :
    p.rx.empty s.rxFifo = false := hq.ready ((lsr_bits _ _ _ _ _ _ _).2.mp hv)

end accesses

/-! ### Over whole runs -/

def PcOk (p : Parts F G) (s : Core F G) : Pc → Prop
  | .init todo | .isr todo => ∀ w ∈ todo, w ∈ uartInit
  | .put _ => p.tx.full s.sender.fifo = false
  | .get todo => (∀ w ∈ todo, w ∈ uartInit) ∧ p.rx.empty s.rxFifo = false
  | _ => True

/-- Between the steps of the program. -/
structure Good (p : Parts F G) (v : View p.tx) (s : Sys F G) : Prop where
  base : Base p v s.core s.heard
  quiet : Quiet p s.core
  pc : PcOk p s.core s.pc
  clocked : s.pc = .init uartInit ∨ ∃ q c sin, s.core = Core.next p q c sin

section runs
variable {p : Parts F G} {v : View p.tx} {u : View p.rx} {s : Sys F G}

theorem uartInit_proper {w : BitVec 4 × Byte} (hw : w ∈ uartInit) :
    Proper (write w.1 w.2) ∧ NoPut (write w.1 w.2) ∧ NoGet (write w.1 w.2) := by
  refine ⟨fun _ _ => .inr hw, fun _ _ hadr => ?_, fun _ hwe => by cases hwe⟩
  have hne : ∀ w ∈ uartInit, w.1 ≠ thrAddr := by
    simp [uartInit, thrAddr, ierAddr, lcrAddr, mcrAddr, divlAddr, divhAddr]
  exact hne w hw hadr

theorem read_proper (adr : BitVec 4) : Proper (read adr) ∧ NoPut (read adr) :=
  ⟨fun _ hwe => absurd hwe Bool.false_ne_true, fun _ hwe => absurd hwe Bool.false_ne_true⟩

theorem lsr_noGet : NoGet (read lsrAddr) := fun _ _ h => absurd h (by decide)

theorem resume_ok {c : Core F G} {todo : List (BitVec 4 × Byte)} (h : ∀ w ∈ todo, w ∈ uartInit) :
    PcOk p c (.resume todo) := by
  cases todo with
  | nil => trivial
  | cons w todo => exact h

theorem resume_pending (todo : List (BitVec 4 × Byte)) : (Pc.resume todo).pending = [] := by
  cases todo <;> rfl

/-- The access of every place of the program: what it is, and that it writes no byte but in
`put`. -/
theorem cycle_proper (h : PcOk p s.core s.pc) {c : Cycle} (hc : s.pc.cycle = some c) :
    Proper c ∧ c.stb = true ∧ ((∀ b, s.pc ≠ .put b) → NoPut c) := by
  cases hpc : s.pc with
  | init todo =>
    rw [hpc] at hc h
    cases todo with
    | nil => cases hc
    | cons w todo =>
      obtain rfl := Option.some.inj hc
      have hw := uartInit_proper (h w (List.mem_cons_self ..))
      exact ⟨hw.1, rfl, fun _ => hw.2.1⟩
  | rest =>
    rw [hpc] at hc
    cases hc
  | put b =>
    rw [hpc] at hc
    obtain rfl := Option.some.inj hc
    exact ⟨fun _ _ => .inl rfl, rfl, fun hput => absurd rfl (hput b)⟩
  | _ =>
    rw [hpc] at hc
    obtain rfl := Option.some.inj hc
    exact ⟨(read_proper _).1, rfl, fun _ => (read_proper _).2⟩

theorem access_ok (u : View p.rx) (h : Good p v s) {c : Cycle} (hc : s.pc.cycle = some c)
    (sin sin' : Bool) :
    PcOk p (busAccess p s.core c sin sin').1 (s.pc.next (busAccess p s.core c sin sin').2) := by
  have hok := h.pc
  cases hpc : s.pc with
  | init todo =>
    rw [hpc] at hok
    exact resume_ok fun w hw => hok w (List.mem_of_mem_tail hw)
  | rest => trivial
  | poll b =>
    rw [hpc] at hc
    obtain rfl := Option.some.inj hc
    rw [Pc.next]
    split
    · trivial
    · next hv => exact (noPut_access v (read_proper _).2).2 (poll_room h.quiet h.base.spare hv)
  | put b => trivial
  | isr todo =>
    rw [hpc] at hc hok
    obtain rfl := Option.some.inj hc
    rw [Pc.next]
    split
    · exact resume_ok hok
    · next hv =>
        exact ⟨hok, noGet_empty u lsr_noGet (noGet_empty u lsr_noGet (isr_ready h.quiet hv))⟩
  | get todo =>
    rw [hpc] at hok
    exact hok.1

theorem good_access (u : View p.rx) (h : Good p v s) (sin sin' : Bool) :
    Good p v (s.access p sin sin') := by
  unfold Sys.access
  cases hcycle : s.pc.cycle with
  | none => exact h
  | some c =>
    obtain ⟨hproper, hstb, -⟩ := cycle_proper h.pc hcycle
    exact ⟨base_access hproper h.base, quiet_access v u h.quiet.ackO hstb,
      access_ok u h hcycle sin sin', .inr ⟨_, _, _, rfl⟩⟩

theorem good_gap (u : View p.rx) (h : Good p v s) (c : Cycle) (sin : Bool) :
    Good p v (exec p s (.gap c sin)) := by
  have hidle : NoPut {c with stb := false} := fun hstb => by cases hstb
  have hidle' : NoGet {c with stb := false} := fun hstb => by cases hstb
  refine ⟨base_next (fun hstb => by cases hstb) h.base, quiet_gap v u, ?_, .inr ⟨_, _, _, rfl⟩⟩
  have hok := h.pc
  change PcOk p (gap p s.core c sin) s.pc
  cases hpc : s.pc with
  | init todo =>
    rw [hpc] at hok
    exact hok
  | put b =>
    rw [hpc] at hok
    exact calm_full v (noPut_thrWr hidle) hok
  | isr todo =>
    rw [hpc] at hok
    exact hok
  | get todo =>
    rw [hpc] at hok
    exact ⟨hok.1, noGet_empty u hidle' hok.2⟩
  | _ => trivial

theorem good_interrupt (h : Good p v s) : Good p v (exec p s .uartIsr) := by
  have hok := h.pc
  have hclocked := h.clocked
  obtain ⟨core, pc, rxBuf, heard⟩ := s
  cases pc with
  | init todo =>
    rw [exec, Pc.interrupt]
    split
    · exact h
    · next hne =>
      have hnot : Pc.init todo ≠ .init uartInit := fun he => hne (Pc.init.inj he)
      exact ⟨h.base, h.quiet, hok, .inr (hclocked.resolve_left hnot)⟩
  | rest =>
    exact ⟨h.base, h.quiet, fun w hw => (List.not_mem_nil hw).elim,
      .inr (hclocked.resolve_left Pc.noConfusion)⟩
  | _ => exact h

theorem good_call (h : Good p v s) (c : Byte) : Good p v (exec p s (.uartWrite c)) := by
  have hclocked := h.clocked
  obtain ⟨core, pc, rxBuf, heard⟩ := s
  cases pc with
  | rest => exact ⟨h.base, h.quiet, trivial, .inr (hclocked.resolve_left Pc.noConfusion)⟩
  | _ => exact h

theorem good_exec (u : View p.rx) (h : Good p v s) (e : Ev) : Good p v (exec p s e) := by
  cases e with
  | gap c sin => exact good_gap u h c sin
  | uartWrite c => exact good_call h c
  | uartIsr => exact good_interrupt h
  | access sin sin' => exact good_access u h sin sin'

theorem good_start (p : Parts F G) (v : View p.tx) (lsr : BitVec 7) :
    Good p v (Sys.start p lsr) := by
  have hempty : p.tx.empty p.tx.init = true := by
    cases h : p.tx.empty p.tx.init with
    | true => rfl
    | false => exact absurd v.init (v.nonempty _ h)
  have hfull : p.tx.full p.tx.init = false := v.room _ hempty
  refine ⟨⟨rfl, UartTx.lcrDefault_plain, fun _ _ => hfull, ?_, ?_⟩,
    ⟨rfl, rfl, fun _ => hfull, ?_⟩, fun w hw => hw,
    .inl rfl⟩
  · exact ⟨0, phase_reset UartTx.lcrDefault_plain v 868⟩
  · exact ⟨[], by simp, rfl, rfl⟩
  · intro h
    cases h

/-! ### Bytes given and bytes accepted -/

theorem access_accepted (h : Good p v s) (sin sin' : Bool) :
    (s.access p sin sin').core.sender.accepted ++ (s.access p sin sin').pc.pending =
      s.core.sender.accepted ++ s.pc.pending := by
  unfold Sys.access
  cases hcycle : s.pc.cycle with
  | none => rfl
  | some c =>
    have hok := h.pc
    obtain ⟨-, -, hnoPut⟩ := cycle_proper hok hcycle
    change (busAccess p s.core c sin sin').1.sender.accepted ++ (s.pc.next _).pending = _
    cases hpc : s.pc with
    | put b =>
      rw [hpc] at hcycle hok
      obtain rfl := Option.some.inj hcycle
      rw [put_access h.quiet.ackO hok]
      exact List.append_nil _
    | init todo =>
      rw [(noPut_access v (hnoPut fun b => by rw [hpc]; exact Pc.noConfusion)).1,
        Pc.next, resume_pending]
      rfl
    | rest =>
      rw [hpc] at hcycle
      cases hcycle
    | poll b =>
      rw [(noPut_access v (hnoPut fun b => by rw [hpc]; exact Pc.noConfusion)).1, Pc.next]
      split <;> rfl
    | isr todo =>
      rw [(noPut_access v (hnoPut fun b => by rw [hpc]; exact Pc.noConfusion)).1, Pc.next]
      split
      · rw [resume_pending]
        rfl
      · rfl
    | get todo =>
      rw [(noPut_access v (hnoPut fun b => by rw [hpc]; exact Pc.noConfusion)).1]
      rfl

theorem called_nil (pc : Pc) {e : Ev} (he : ∀ c, e ≠ .uartWrite c) : pc.called e = [] := by
  unfold Pc.called
  split
  · next c => exact absurd rfl (he c)
  · rfl

theorem exec_accepted (h : Good p v s) (e : Ev) :
    (exec p s e).core.sender.accepted ++ (exec p s e).pc.pending =
      s.core.sender.accepted ++ s.pc.pending ++ s.pc.called e := by
  cases e with
  | gap c sin =>
    have hidle : NoPut {c with stb := false} := fun hstb => by cases hstb
    have hkeep : (exec p s (.gap c sin)).core.sender.accepted = s.core.sender.accepted :=
      noPut_accepted hidle
    rw [hkeep, called_nil s.pc fun _ => Ev.noConfusion, List.append_nil]
    rfl
  | uartWrite c =>
    change s.core.sender.accepted ++ (s.pc.call c).pending = _
    cases s.pc <;> simp [Pc.call, Pc.pending, Pc.called]
  | uartIsr =>
    change s.core.sender.accepted ++ s.pc.interrupt.pending = _
    cases hpc : s.pc with
    | init todo =>
      rw [Pc.interrupt]
      split <;> simp [Pc.pending, Pc.called]
    | _ => simp [Pc.interrupt, Pc.pending, Pc.called]
  | access sin sin' =>
    rw [called_nil s.pc fun _ => Ev.noConfusion, List.append_nil]
    exact access_accepted h sin sin'

/-- What was accepted and the byte of the call that is running are the bytes given. -/
theorem run_accepted (u : View p.rx) (h : Good p v s) (es : List Ev) :
    (run (exec p) s es).core.sender.accepted ++ (run (exec p) s es).pc.pending =
      s.core.sender.accepted ++ s.pc.pending ++ given p s es := by
  induction es generalizing s with
  | nil => exact (List.append_nil _).symm
  | cons e es ih =>
    rw [run_cons, ih (good_exec u h e), exec_accepted h e, given,
      List.append_assoc _ (s.pc.called e)]

end runs

theorem run_good (p : Parts F G) (v : View p.tx) (u : View p.rx) (lsr : BitVec 7) (es : List Ev) :
    Good p v (run (exec p) (Sys.start p lsr) es) :=
  run_invariant_all (exec p) (Good p v) (fun _ e h => good_exec u h e) _ es (good_start p v lsr)

/-- Two FIFOs of 1023 bytes. -/
def plainParts : Parts (List Byte × Byte) (List Byte × Byte) where
  tx := ofDepth 1022 0
  rx := ofDepth 1022 0
  almostFull s := decide (1022 ≤ s.1.length)

end HashRatio.UartDriver
