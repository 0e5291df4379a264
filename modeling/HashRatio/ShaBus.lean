import HashRatio.Sha
import HashRatio.ShaRounds

/-!
# The engine under its driver

The driver writes RST and INIT, writes blocks and polls CMD after each, may write DBL and poll
again, and reads HASH eight times. Idle cycles may stand before every transfer, and the bus may
carry anything in them and while ACK is high. `Driven` are the states the engine and the driver come
to.
-/

namespace HashRatio.ShaBus
open Bytes Sha256 ShaCore ShaRounds Sha Run

/-! ### Transfers -/

structure Request where
  we : Bool
  adr : BitVec 5
  dat : Word

/-- The idle cycles before a transfer, and the bus in the cycle of ACK. -/
structure Spacing where
  idle : List Wires
  held : Wires

def Request.wires (q : Request) : Wires := ⟨false, true, q.we, q.adr, q.dat⟩
def idled (b : Wires) : Wires := {b with rst := false, stb := false}
def held (b : Wires) : Wires := {b with rst := false}

def acked (s : Regs) (g : Spacing) (q : Request) : Regs :=
  clock (run clock s (g.idle.map idled)) q.wires
def transfer (s : Regs) (g : Spacing) (q : Request) : Regs := clock (acked s g q) (held g.held)
def readOut (s : Regs) (g : Spacing) (q : Request) : Word := datO (acked s g q)

def cmdInit : Word := 1 <<< 0
def cmdDone : Word := 1 <<< 1
def cmdRst : Word := 1 <<< 2
def cmdDbl : Word := 1 <<< 3

def writeCmd (d : Word) : Request := ⟨true, 0x0, d⟩
def writeDin (w : Word) : Request := ⟨true, 0x4, w⟩
def readCmd (g : Spacing) : Request := ⟨false, 0x0, g.held.dat⟩
def readHash (g : Spacing) : Request := ⟨false, 0x8, g.held.dat⟩

/-- CMD read with the DONE bit set. -/
def donePolled (s : Regs) (g : Spacing) : Bool := readOut s g (readCmd g) &&& cmdDone != 0

/-! ### What goes on in the engine between strobes -/

structure Idle (s : Regs) : Prop where
  low : Low s
  ack : s.ack = false

/-- Kept by cycles that neither write nor read HASH. -/
def Stable (P : Regs → Prop) : Prop := ∀ s b, Low s → P s → Still s b → P (clock s b)

theorem Stable.and {P Q : Regs → Prop} (hP : Stable P) (hQ : Stable Q) :
    Stable fun s => P s ∧ Q s :=
  fun s b hl h hb => ⟨hP s b hl h.1 hb, hQ s b hl h.2 hb⟩

/-- The core waits for a word of a block, the double hash unit has `r`. -/
structure Resting (c : Chain) (ws : List Word) (r : Chain) (s : Regs) : Prop where
  core : Receiving s.core c ws
  done : s.core.done = false
  dbl : s.dbl = Dbl.rest r

/-- Between two sequences; of the core only the round is known. -/
structure Between (s : Regs) : Prop where
  round : s.core.round = 0
  done : s.core.done = false
  dbl : ∃ r, s.dbl = Dbl.rest r

/-- `n` cycles before DONE is set for the block `ws` on top of `c`. -/
inductive Compressing (c : Chain) (ws : List Word) : ℕ → Regs → Prop
  | feeding {s : Regs} {v : Chain} {k : ℕ} (hws : ws = second v) (hk : k < 16)
      (hdbl : s.dbl = Dbl.feed v k) (hcore : Receiving s.core c (ws.take k))
      (hdone : s.core.done = false) (hreg : s.regDone = false) :
      Compressing c ws (66 - k) s
  | working {s : Regs} {r : Chain} {k : ℕ} (hdbl : s.dbl = Dbl.rest r)
      (hcore : Working s.core c ws k) (hreg : s.regDone = false) : Compressing c ws (50 - k) s
  | pulsing {s : Regs} {r : Chain} (hdbl : s.dbl = Dbl.rest r)
      (hcore : Receiving s.core (compress c ws) [])
      (hdone : s.core.done = true) (hhash : s.core.abc = compress c ws) (hreg : s.regDone = false) :
      Compressing c ws 1 s
  | compressed {s : Regs} (hrest : Resting (compress c ws) [] (compress c ws) s)
      (hreg : s.regDone = true) :
      Compressing c ws 0 s

section cycles
variable {s : Regs} {b : Wires} {c r : Chain} {ws : List Word} {n : ℕ}

theorem calm_pins (hl : Calm s) (hr : b.rst = false) (hd : s.dbl = Dbl.rest r) :
    Pins.plain (corePins s b) ∧ (corePins s b).vld = false := by
  refine ⟨⟨hr, hl.init⟩, ?_⟩
  simp only [corePins, hl.vld, hd, Dbl.rest, Bool.or_false]

theorem calm_dbl (hl : Calm s) (hr : b.rst = false) (hd : s.dbl = Dbl.rest r)
    (hdone : s.core.done = false) :
    (clock s b).dbl = Dbl.rest r := by
  rw [clock_dbl hr, hl.dbl, hd, hdone, Dbl.next_rest]

theorem resting_clock (hl : Calm s) (hr : b.rst = false) (h : Resting c ws r s) :
    Resting c ws r (clock s b) := by
  obtain ⟨hp, hv⟩ := calm_pins hl hr h.dbl
  obtain ⟨hcore, hdone⟩ := receiving_wait h.core hp hv
  exact ⟨hcore, hdone, calm_dbl hl hr h.dbl h.done⟩

theorem between_clock (hl : Calm s) (hr : b.rst = false) (h : Between s) : Between (clock s b) := by
  obtain ⟨r, hd⟩ := h.dbl
  obtain ⟨hp, hv⟩ := calm_pins hl hr hd
  obtain ⟨hround, hdone⟩ := idle_step h.round hp hv
  exact ⟨hround, hdone, r, calm_dbl hl hr hd h.done⟩

theorem compressing_step (hl : Low s) (hb : Still s b) (h : Compressing c ws n s) :
    Compressing c ws (n - 1) (clock s b) := by
  cases h with
  | @feeding _ v k hws hk hdbl hcore hdone hreg =>
    have hp : Pins.plain (corePins s b) := ⟨hb.rst, hl.init⟩
    have hv : (corePins s b).vld = true := by simp only [corePins, hdbl, Dbl.feed, Bool.or_true]
    have hdin : (corePins s b).din = ws.getD k 0 := by
      simp only [corePins, hdbl, Dbl.feed, if_true]
      rw [feedReg_a v hk, hws]
    have hlen : ws.length = 16 := by rw [hws]; rfl
    have htake : ws.take k ++ [(corePins s b).din] = ws.take (k + 1) := by
      rw [hdin, List.getD_eq_getElem _ _ (by omega), List.take_append_getElem]
    have hdbl' : (clock s b).dbl = (Dbl.feed v k).next false false false s.core.abc := by
      rw [clock_dbl hb.rst, hl.dbl, hdbl, hdone]
    have hreg' : (clock s b).regDone = false := still_busy hb hdone hreg
    have hfew : (ws.take k).length = k := by rw [List.length_take]; omega
    by_cases hlast : k = 15
    · have hnext := receiving_last hcore hp hv (by omega)
      rw [htake, List.take_of_length_le (by omega)] at hnext
      rw [hlast, Dbl.next_last] at hdbl'
      rw [hlast]
      exact .working hdbl' hnext hreg'
    · obtain ⟨hnext, hdone'⟩ := receiving_word hcore hp hv (by omega)
      rw [htake] at hnext
      rw [Dbl.next_feed _ _ (by omega)] at hdbl'
      exact .feeding hws (by omega) hdbl' hnext hdone' hreg'
  | @working _ r k hdbl hcore hreg =>
    obtain ⟨hp, -⟩ := calm_pins hl.toCalm hb.rst hdbl
    have hdbl' := calm_dbl hl.toCalm hb.rst hdbl hcore.done
    have hreg' : (clock s b).regDone = false := still_busy hb hcore.done hreg
    have hbound := hcore.bound
    by_cases hk : k < 48
    · have hnext := working_step hcore hp hk
      exact .working hdbl' hnext hreg'
    · have hk' : k = 48 := by omega
      subst hk'
      obtain ⟨hnext, hdone, hhash⟩ := working_end hcore hp
      exact .pulsing hdbl' hnext hdone hhash hreg'
  | pulsing hdbl hcore hdone hhash hreg =>
    obtain ⟨hp, hv⟩ := calm_pins hl.toCalm hb.rst hdbl
    obtain ⟨hnext, hdone'⟩ := receiving_wait hcore hp hv
    have hdbl' : (clock s b).dbl = Dbl.rest (compress c ws) := by
      rw [clock_dbl hb.rst, hl.dbl, hdbl, hdone, hhash, Dbl.next_done]
    exact .compressed ⟨hnext, hdone', hdbl'⟩ (by rw [still_done hb, hdone]; rfl)
  | compressed hrest hreg =>
    exact .compressed (resting_clock hl.toCalm hb.rst hrest)
      (by rw [still_done hb, hreg, Bool.or_true])

end cycles

/-! ### A transfer -/

section transfers
variable {s : Regs} {b : Wires} {q : Request} {g : Spacing} {P : Regs → Prop}

theorem idled_still (s : Regs) (b : Wires) : Still s (idled b) := by
  constructor <;> simp [idled, cmdWrEn, dinWrEn, hiWrEn, hashRdEn]

theorem held_still (h : s.ack = true) (b : Wires) : Still s (held b) := by
  constructor <;> simp [held, cmdWrEn, dinWrEn, hiWrEn, hashRdEn, h]

theorem idle_run (hP : Stable P) (h : Idle s) (hp : P s) (bs : List Wires) :
    Idle (run clock s (bs.map idled)) ∧ P (run clock s (bs.map idled)) := by
  induction bs generalizing s with
  | nil => exact ⟨h, hp⟩
  | cons b bs ih =>
    have hstill := idled_still s b
    exact ih ⟨still_low hstill, rfl⟩ (hP s _ h.low hp hstill)

theorem wires_ack (h : Idle s) : (clock s q.wires).ack = true := by
  simp only [clock, Request.wires, h.ack]
  rfl

theorem held_idle (h : s.ack = true) (b : Wires) : Idle (clock s (held b)) := by
  refine ⟨still_low (held_still h b), ?_⟩
  simp [clock, held, h]

theorem transfer_rule {Q R : Regs → Prop} (hP : Stable P) (h : Idle s) (hp : P s)
    (hstrobe : ∀ t, Idle t → P t → Q (clock t q.wires))
    (hheld : ∀ t, t.ack = true → Q t → R (clock t (held g.held))) :
    Q (acked s g q) ∧ Idle (transfer s g q) ∧ R (transfer s g q) := by
  obtain ⟨hidle, hp'⟩ := idle_run hP h hp g.idle
  have hack : (acked s g q).ack = true := wires_ack hidle
  have hq := hstrobe _ hidle hp'
  exact ⟨hq, held_idle hack _, hheld _ hack hq⟩

/-- A read of CMD gives DONE and disturbs nothing. -/
theorem readCmd_rule {Q : Regs → Prop} (hP : Stable P) (hQ : Stable Q)
    (hstep : ∀ t b, Low t → P t → Still t b → Q (clock t b)) (h : Idle s) (hp : P s) :
    donePolled s g = (acked s g (readCmd g)).regDone ∧ Low (acked s g (readCmd g)) ∧
      Q (acked s g (readCmd g)) ∧
      Idle (transfer s g (readCmd g)) ∧ Q (transfer s g (readCmd g)) := by
  have hstill (t : Regs) : Still t (readCmd g).wires := by
    constructor <;> simp [readCmd, Request.wires, cmdWrEn, dinWrEn, hiWrEn, hashRdEn]
  have hrd (t : Regs) (ht : Idle t) : (clock t (readCmd g).wires).cmdRdEnF = true := by
    simp [clock, readCmd, Request.wires, cmdRdEn, ht.ack]
  obtain ⟨⟨hrd', hlow, hq⟩, hidle, hq'⟩ := transfer_rule (g := g)
    (Q := fun t => t.cmdRdEnF = true ∧ Low t ∧ Q t) (R := Q) hP h hp
    (fun t ht hpt => ⟨hrd t ht, still_low (hstill t), hstep t _ ht.low hpt (hstill t)⟩)
    (fun t ht hqt => hQ t _ hqt.2.1 hqt.2.2 (held_still ht _))
  refine ⟨?_, hlow, hq, hidle, hq'⟩
  rw [donePolled, readOut, datO, if_pos hrd']
  cases (acked s g (readCmd g)).regDone <;> decide

end transfers

end HashRatio.ShaBus
