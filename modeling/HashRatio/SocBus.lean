import HashRatio.LoadStore
import HashRatio.Lib.Run

/-!
# The shared bus (superkdf9_simple.v)

The two masters of the CPU, the arbiter, the address decoder and the acknowledge
registers of the devices.
-/

namespace HashRatio.SocBus
open Bytes LoadStore Run

/-! ### The masters -/

/-- The instruction bus of lm32_instruction_unit.v, without a cache. -/
structure Fetch where
  iCyc : Bool
  iStb : Bool
  iLock : Bool
  iAdr : Word
  iCti : BitVec 3
  wbDataF : Word
  busErrorF : Bool
  deriving DecidableEq, Repr

def Fetch.reset : Fetch := ⟨false, false, false, 0, ctypeEnd, 0, false⟩

/-- From the pipeline; `pcA`: the address of the next instruction in words. -/
structure FetchInput where
  stallA : Bool
  pcA : BitVec 30
  deriving DecidableEq, Repr

def iromSelectA (pc : BitVec 30) : Bool := iromSelect (pc ++ 0#2)

def Fetch.next (s : Fetch) (i : FetchInput) (ack err : Bool) (dat : Word) : Fetch where
  iCyc := if s.iCyc then !(ack || err) else !i.stallA && !iromSelectA i.pcA
  iStb :=
    if s.iCyc then if ack || err then false else s.iStb
    else if !i.stallA && !iromSelectA i.pcA then true
    else s.iStb
  iLock := s.iLock
  iAdr := if !s.iCyc && !i.stallA && !iromSelectA i.pcA then i.pcA ++ 0#2 else s.iAdr
  iCti := s.iCti
  wbDataF := if s.iCyc && (ack || err) then dat else s.wbDataF
  busErrorF := if s.iCyc then err || s.busErrorF else if i.stallA then s.busErrorF else false

structure Req where
  adr : Word
  dat : Word
  sel : BitVec 4
  we : Bool
  deriving DecidableEq, Repr

structure Port where
  cyc : Bool
  stb : Bool
  lock : Bool
  cti : BitVec 3
  req : Req
  deriving DecidableEq, Repr

def fetchPort (s : Fetch) : Port := ⟨s.iCyc, s.iStb, s.iLock, s.iCti, ⟨s.iAdr, 0, 15, false⟩⟩

def dataPort (s : Regs) : Port := ⟨s.dCyc, s.dStb, s.dLock, s.dCti, ⟨s.dAdr, s.dDat, s.dSel, s.dWe⟩⟩

/-! ### The arbiter -/

/-- The instruction bus and the data bus. -/
inductive Wbm where
  | wbm0
  | wbm1
  deriving DecidableEq, Repr

structure Arbiter where
  selected : Option Wbm
  locked : Bool
  deriving DecidableEq, Repr

/-- Nothing on the shared bus. -/
def idlePort : Port := ⟨false, false, false, 0, ⟨0, 0, 0, false⟩⟩

section arbiter
variable (s : Arbiter) (ports : Wbm → Port)

def Arbiter.shared : Port := s.selected.elim idlePort ports

def Arbiter.next (ack err : Bool) : Arbiter :=
  match s.selected with
  | none =>
    if (ports .wbm0).stb then ⟨some .wbm0, (ports .wbm0).lock⟩
    else if (ports .wbm1).stb then ⟨some .wbm1, (ports .wbm1).lock⟩
    else s
  | some m =>
    if (ack || err || s.locked) && ((ports m).cti == 0 || (ports m).cti == 7 || s.locked) &&
        !(ports m).lock then
      ⟨none, false⟩
    else s

end arbiter

/-! ### The devices -/

inductive Device where
  | uart
  | spi (k : Fin 10)
  | gpio
  | uartDebug
  | sha
  | twi
  deriving DecidableEq, Repr

def spiPage : Fin 10 → BitVec 24
  | 0 => 0x800000
  | 1 => 0x800007
  | 2 => 0x800008
  | 3 => 0x800009
  | 4 => 0x80000a
  | 5 => 0x80000b
  | 6 => 0x80000c
  | 7 => 0x80000d
  | 8 => 0x80000e
  | 9 => 0x80000f

/-- The device is enabled by the address. -/
def Device.en (d : Device) (adr : Word) : Bool :=
  match d with
  | .uart => adr.extractLsb' 4 28 == 0x8000010
  | .spi k => adr.extractLsb' 8 24 == spiPage k
  | .gpio => adr.extractLsb' 4 28 == 0x8000020
  | .uartDebug => adr.extractLsb' 4 28 == 0x8000030
  | .sha => adr.extractLsb' 5 27 == 0x4000020
  | .twi => adr.extractLsb' 6 26 == 0x2000018

/-- In the order of the multiplexers. -/
def devices : List Device :=
  [.uart, .spi 0, .spi 1, .spi 2, .spi 3, .spi 4, .spi 5, .spi 6, .spi 7, .spi 8, .spi 9, .gpio,
    .uartDebug, .sha, .twi]

def deviceAt (adr : Word) : Option Device := devices.find? fun d => d.en adr

/-- The acknowledge register, and `read_wait_done` of wb_spi.v. -/
structure Handshake where
  ack : Bool
  readWaitDone : Bool
  deriving DecidableEq, Repr

/-- `GPIO_EN` is not defined: nothing answers there. -/
def Device.handshake (d : Device) (s : Handshake) (cyc stb we : Bool) : Handshake :=
  match d with
  | .uart | .uartDebug => ⟨if s.ack then false else cyc && stb, false⟩
  | .spi _ =>
    ⟨if s.ack then false else stb && cyc && (we || s.readWaitDone),
      if s.ack then false else if stb && cyc && !we then true else s.readWaitDone⟩
  | .gpio => ⟨false, false⟩
  | .sha | .twi => ⟨stb && !s.ack, false⟩

/-- The 256 bytes a device is in. -/
def Device.page (d : Device) : BitVec 24 :=
  match d with
  | .uart => 0x800001
  | .spi k => spiPage k
  | .gpio => 0x800002
  | .uartDebug => 0x800003
  | .sha => 0x800004
  | .twi => 0x800006

section decoder
variable {d e : Device} {a : Word}

theorem page_en (h : d.en a = true) : a.extractLsb' 8 24 = d.page := by
  have hhigh (n k : ℕ) (hnk : n + k = 8) : a.extractLsb' 8 24 =
      (a.extractLsb' n (24 + k)).extractLsb' k 24 := by
    ext i hi
    simp only [BitVec.getElem_extractLsb', BitVec.getLsbD_extractLsb', ← Nat.add_assoc, hnk]
    simp only [show k + i < 24 + k by omega, decide_true, Bool.true_and]
  cases d with
  | uart => rw [hhigh 4 4 rfl, beq_iff_eq.mp h]; decide
  | spi k => exact beq_iff_eq.mp h
  | gpio => rw [hhigh 4 4 rfl, beq_iff_eq.mp h]; decide
  | uartDebug => rw [hhigh 4 4 rfl, beq_iff_eq.mp h]; decide
  | sha => rw [hhigh 5 3 rfl, beq_iff_eq.mp h]; decide
  | twi => rw [hhigh 6 2 rfl, beq_iff_eq.mp h]; decide

theorem mem_devices (d : Device) : d ∈ devices := by
  cases d with
  | spi k => revert k; decide
  | _ => decide

theorem page_inj (h : d.page = e.page) : d = e := by
  have hall : ∀ d ∈ devices, ∀ e ∈ devices, d.page = e.page → d = e := by decide
  exact hall d (mem_devices d) e (mem_devices e) h

/-- No address enables two devices. -/
theorem en_unique (hd : d.en a = true) (he : e.en a = true) : d = e :=
  page_inj ((page_en hd).symm.trans (page_en he))

theorem en_deviceAt (h : deviceAt a = some d) : d.en a = true := by
  rw [deviceAt] at h
  have he := List.find?_some h
  exact he

theorem deviceAt_en (h : d.en a = true) : deviceAt a = some d := by
  cases hat : deviceAt a with
  | none => exact absurd h (List.find?_eq_none.mp hat d (mem_devices d))
  | some e => rw [en_unique (en_deviceAt hat) h]

theorem any_en : (devices.any fun d => d.en a) = (deviceAt a).isSome := by
  rw [Bool.eq_iff_iff, List.any_eq_true, deviceAt, List.find?_isSome]

end decoder

/-! ### The bus -/

structure Soc where
  fetch : Fetch
  loadStore : Regs
  arbiter : Arbiter
  acks : Device → Handshake

/-- One clock. `dat`: what the devices show; the bus side of `pipeline` is not used. -/
structure Clock where
  fetch : FetchInput
  pipeline : LoadStore.Input
  dat : Device → Word

def Soc.reset : Soc := ⟨.reset, .reset, ⟨none, false⟩, fun _ => ⟨false, false⟩⟩

section soc
variable (s : Soc) (c : Clock)

def Soc.ports : Wbm → Port
  | .wbm0 => fetchPort s.fetch
  | .wbm1 => dataPort s.loadStore

def Soc.shared : Port := s.arbiter.shared s.ports

def Soc.ack : Bool := (deviceAt s.shared.req.adr).elim false fun d => (s.acks d).ack

/-- No device of this design gives an error of its own. -/
def Soc.err : Bool := s.shared.cyc && !devices.any fun d => d.en s.shared.req.adr

def Soc.dat : Word := (deviceAt s.shared.req.adr).elim 0 c.dat

def Soc.hit (m : Wbm) : Bool := decide (s.arbiter.selected = some m) && (s.ack || s.err)

def Soc.next : Soc where
  fetch :=
    s.fetch.next c.fetch (decide (s.arbiter.selected = some .wbm0) && s.ack)
      (decide (s.arbiter.selected = some .wbm0) && s.err) (s.dat c)
  loadStore := s.loadStore.next { c.pipeline with
    dDatI := s.dat c
    dAckI := decide (s.arbiter.selected = some .wbm1) && s.ack
    dErrI := decide (s.arbiter.selected = some .wbm1) && s.err }
  arbiter := s.arbiter.next s.ports s.ack s.err
  acks := fun d =>
    d.handshake (s.acks d) (s.shared.cyc && d.en s.shared.req.adr)
      (s.shared.stb && d.en s.shared.req.adr)
      s.shared.req.we

end soc

/-! ### What is seen of it -/

structure Answer where
  err : Bool
  dat : Word
  deriving DecidableEq, Repr

/-- `asked`, `got`: at the masters; `bus`: on the shared bus; `served`: at the devices, with what
they showed. -/
structure Watch where
  soc : Soc
  asked : Wbm → List Req
  got : Wbm → List (Req × Answer)
  bus : List (Wbm × Req × Answer)
  served : Device → List (Req × Word)

def Watch.reset : Watch := ⟨.reset, fun _ => [], fun _ => [], [], fun _ => []⟩

def Watch.next (s : Watch) (c : Clock) : Watch where
  soc := s.soc.next c
  asked := fun m =>
    if !(s.soc.ports m).cyc && ((s.soc.next c).ports m).cyc then
      s.asked m ++ [((s.soc.next c).ports m).req]
    else s.asked m
  got := fun m =>
    if (s.soc.ports m).cyc && s.soc.hit m then
      s.got m ++ [((s.soc.ports m).req, ⟨s.soc.err, s.soc.dat c⟩)] else s.got m
  bus :=
    if s.soc.shared.stb && (s.soc.ack || s.soc.err) then
      s.bus ++
        (s.soc.arbiter.selected.map fun m => (m, s.soc.shared.req, ⟨s.soc.err, s.soc.dat c⟩)).toList
    else s.bus
  served := fun d =>
    if s.soc.shared.stb && d.en s.soc.shared.req.adr && (s.soc.acks d).ack then
      s.served d ++ [(s.soc.shared.req, c.dat d)]
    else s.served d

end HashRatio.SocBus
