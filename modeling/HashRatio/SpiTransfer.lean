import HashRatio.SpiFrame

/-!
# The firmware's SPI transfers on the lines (spi.c)

`spi_transfer` as the bus accesses it makes, each as the clock cycles it takes, and
what the slaves see at the rising edges of SCLK meanwhile.
-/

namespace HashRatio.SpiTransfer
open Bytes Spi SpiFrame

/-! ### The lines -/

/-- A rising edge of SCLK: the selects and MOSI after it, MISO where it is taken. -/
structure Pulse where
  ssN : Byte
  mosi : Bool
  miso : Bool
  deriving DecidableEq, Repr

structure Line where
  regs : Regs
  time : ℕ
  pulses : List Pulse
  deriving DecidableEq, Repr

def Line.reset : Line := ⟨Regs.reset, 0, []⟩

/-- One clock edge, with `miso` the MISO line over time. -/
def step (miso : ℕ → Bool) (l : Line) (c : Cycle) : Line :=
  let regs := next l.regs c (miso l.time)
  { regs := regs
    time := l.time + 1
    pulses :=
      if !l.regs.shifter.sclk && regs.shifter.sclk then
        l.pulses ++ [⟨regs.ssN, regs.shifter.mosi, miso l.time⟩]
      else l.pulses }

/-! ### Accesses -/

/-- A cycle in which this peripheral is not strobed, whatever else is on the bus. -/
structure Other where
  we : Bool
  adr : Byte
  dat : Word
  deriving DecidableEq, Repr

def Other.cycle (o : Other) : Cycle := ⟨false, false, o.we, o.adr, o.dat⟩

def strobe (we : Bool) (adr : Byte) (dat : Word) : Cycle := ⟨true, true, we, adr, dat⟩

/-- The cycles before an access, and the one in which its strobe is withdrawn. -/
structure Gap where
  before : List Other
  last : Other
  deriving DecidableEq, Repr

def pause (miso : ℕ → Bool) (l : Line) (os : List Other) : Line :=
  Run.run (step miso) l (os.map Other.cycle)

section access
variable (miso : ℕ → Bool) (l : Line) (adr : Byte) (dat : Word)

/-- The strobe is held until the acknowledge: two edges for a write, three for a read. -/
def strobed (we : Bool) : ℕ → Line
  | 0 => l
  | k + 1 => step miso (strobed we k) (strobe we adr dat)

def writel (o : Other) : Line := step miso (strobed miso l adr dat true 2) o.cycle

def readl (o : Other) : Line × Word :=
  (step miso (strobed miso l adr 0 false 3) o.cycle, (strobed miso l adr 0 false 2).regs.datO)

end access

/-- A byte store puts the byte on all four lanes. -/
def lanes (b : Byte) : Word := beWord b b b b

/-! ### spi_transfer -/

def rxAddr : Byte := 0x00
def txAddr : Byte := 0x04
def statusAddr : Byte := 0x08
def ssmaskAddr : Byte := 0x10

def statTrdy : Word := 1 <<< 6
def statRrdy : Word := 1 <<< 7

structure Call where
  idx : Byte
  wbuff : List Byte
  deriving DecidableEq, Repr

def Call.chipIdx (c : Call) : Byte := 0x01 <<< (0x07 &&& c.idx).toNat

inductive Pc where
  | select
  | trdy
  | send
  | rrdy
  | fetch
  deriving DecidableEq, Repr

/-- The calls for this board, the running one first, with `i` and what was read so far. -/
structure Driver where
  pc : Pc
  calls : List Call
  i : ℕ
  rbuff : List Byte
  results : List (List Byte)
  deriving DecidableEq, Repr

/-- The head of the loop over `i`: the next byte, or the return to the caller. -/
def Driver.loop (d : Driver) : Driver :=
  match d.calls with
  | [] => d
  | c :: cs =>
    if d.i < c.wbuff.length then {d with pc := .trdy}
    else {pc := .select, calls := cs, i := 0, rbuff := [], results := d.results ++ [d.rbuff]}

structure Sys where
  line : Line
  driver : Driver
  deriving DecidableEq, Repr

def Sys.start (cs : List Call) : Sys := ⟨Line.reset, ⟨.select, cs, 0, [], []⟩⟩

/-- The next access of the firmware, with the cycles around it. -/
def exec (miso : ℕ → Bool) (x : Sys) (g : Gap) : Sys :=
  let l := pause miso x.line g.before
  let d := x.driver
  match d.calls with
  | [] => ⟨step miso l g.last.cycle, d⟩
  | c :: _ =>
    match d.pc with
    | .select => ⟨writel miso l ssmaskAddr (lanes c.chipIdx) g.last, d.loop⟩
    | .trdy =>
      let (l', status) := readl miso l statusAddr g.last
      ⟨l', if status &&& statTrdy ≠ 0 then {d with pc := .send} else d⟩
    | .send => ⟨writel miso l txAddr (lanes (c.wbuff.getD d.i 0)) g.last, {d with pc := .rrdy}⟩
    | .rrdy =>
      let (l', status) := readl miso l statusAddr g.last
      ⟨l', if status &&& statRrdy ≠ 0 then {d with pc := .fetch} else d⟩
    | .fetch =>
      let (l', rx) := readl miso l rxAddr g.last
      ⟨l', Driver.loop {d with i := d.i + 1, rbuff := d.rbuff ++ [rx.setWidth 8]}⟩

end HashRatio.SpiTransfer
