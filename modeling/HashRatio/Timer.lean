import HashRatio.Twi

/-!
# The two timers (twi.v)

Both timers are halves of one register, and the same circuit sixteen bits apart: a
load strobe, the mask, six bits of seconds and the done flag, which is cleared by
writing 1 to it.
-/

namespace HashRatio.Timer
open Bytes Drivers Twi

/-! ### Registers -/

/-- One timer: `sec_cnt`, `sec_cnt_f`, `tim_done` and `tim_mask`. -/
structure Half where
  secCnt : BitVec 6
  secCntF : BitVec 6
  timDone : Bool
  timMask : Bool
  deriving DecidableEq, Repr

/-- `sec`: a second ends; `dat`: its half of what is written. -/
def Half.tick (h : Half) (rst wrEn sec : Bool) (dat : BitVec 16) : Half where
  secCnt :=
    if rst then 0
    else if wrEn && dat.getLsbD 0 then dat.extractLsb' 2 6
    else if h.secCnt ≠ 0 ∧ sec then h.secCnt - 1
    else h.secCnt
  secCntF := h.secCnt
  timDone :=
    if rst then false
    else if h.secCnt = 0 ∧ h.secCntF = 1 then true
    else if wrEn && dat.getLsbD 8 then false
    else h.timDone
  timMask := if rst then true else if wrEn then dat.getLsbD 1 else h.timMask

/-- Its half of `reg_tim`. -/
def Half.word (h : Half) : BitVec 16 :=
  0#7 ++ BitVec.ofBool h.timDone ++ h.secCnt ++ BitVec.ofBool h.timMask ++ 0#1

structure Timers where
  ack : Bool
  timCnt : BitVec 27
  half0 : Half
  half1 : Half
  deriving DecidableEq, Repr

def mmClk1sCnt : BitVec 27 := 0x5f5e100
def time : BitVec 6 := 0x20

def timeWrEn (r : Timers) (c : Cycle) : Bool := c.stb && c.we && c.adr == time && !r.ack

def tick (r : Timers) (c : Cycle) : Timers where
  ack := !c.rst && c.stb && !r.ack
  timCnt := if r.timCnt = mmClk1sCnt then 0 else r.timCnt + 1
  half0 := r.half0.tick c.rst (timeWrEn r c) (r.timCnt == mmClk1sCnt) (c.dat.extractLsb' 0 16)
  half1 := r.half1.tick c.rst (timeWrEn r c) (r.timCnt == mmClk1sCnt) (c.dat.extractLsb' 16 16)

def Timers.regTim (r : Timers) : Word := r.half1.word ++ r.half0.word

def Timers.half (r : Timers) (timer : ℕ) : Half := if timer = 0 then r.half0 else r.half1

def halfDat (dat : Word) (timer : ℕ) : BitVec 16 :=
  if timer = 0 then dat.extractLsb' 0 16 else dat.extractLsb' 16 16

theorem tick_ack (r : Timers) (c : Cycle) : (tick r c).ack = (!c.rst && c.stb && !r.ack) := rfl

theorem tick_half (r : Timers) (c : Cycle) (timer : ℕ) :
    (tick r c).half timer =
      (r.half timer).tick c.rst (timeWrEn r c) (r.timCnt == mmClk1sCnt) (halfDat c.dat timer) := by
  by_cases ht : timer = 0
  · simp only [Timers.half, halfDat, ht, if_true, tick]
  · simp only [Timers.half, halfDat, ht, if_false, tick]

/-! ### Accesses -/

structure Idle extends Timers where
  idle : ack = false

def idleCycle : Cycle := ⟨false, false, false, 0, 0⟩

theorem idle_ack (r : Idle) : (tick r.toTimers idleCycle).ack = false := rfl

def pass (r : Idle) : Idle := ⟨tick r.toTimers idleCycle, idle_ack r⟩

def passes : ℕ → Idle → Idle
  | 0, r => r
  | n + 1, r => passes n (pass r)

theorem access_ack (r : Idle) (we : Bool) (adr : BitVec 6) (dat : Word) :
    (tick r.toTimers (access we adr dat)).ack = true := by
  rw [tick_ack, r.idle]
  rfl

theorem access_done (r : Idle) (we : Bool) (adr : BitVec 6) (dat : Word) :
    (tick (tick r.toTimers (access we adr dat)) (access we adr dat)).ack = false := by
  rw [tick_ack, access_ack]
  exact Bool.and_false _

/-- Two clock edges, as in `Twi.bus`. -/
def bus (r : Idle) (we : Bool) (adr : BitVec 6) (dat : Word) : Idle :=
  ⟨tick (tick r.toTimers (access we adr dat)) (access we adr dat), access_done r we adr dat⟩

/-- `reg_tim` on the data bus while the read is acknowledged. -/
def readValue (r : Idle) : Word := (tick r.toTimers (access false time 0)).regTim

/-- The peripheral with `i` clock edges before a driver's read and `j` before its write. -/
def timerBoard (i j : ℕ) : Board Idle where
  spi r _ _ := (r, fun _ => 0)
  readl r reg :=
    (bus (passes i r) false (regAddr reg) 0, if reg = .timer then readValue (passes i r) else 0)
  writel r reg v := bus (passes j r) true (regAddr reg) v
  twiRead2byte r := (r, 0)
  stale _ := 0
  mmVersion := stillVersion
  mmVersion_length := stillVersion_length

/-! ### A timer that is left alone -/

/-- A write that neither loads the timer nor clears its flag, and keeps its mask. -/
structure Harmless (h : Half) (dat : BitVec 16) : Prop where
  load : dat.getLsbD 0 = false
  clear : dat.getLsbD 8 = false
  mask : dat.getLsbD 1 = h.timMask

theorem Harmless.tick_eq {h : Half} {dat : BitVec 16} (hdat : Harmless h dat) (wrEn sec : Bool)
    (dat' : BitVec 16) :
    h.tick false wrEn sec dat = h.tick false false sec dat' := by
  obtain ⟨hload, hclear, hmask⟩ := hdat
  simp only [Half.tick, hload, hclear, hmask, Bool.and_false, Bool.false_and, Bool.false_eq_true,
    if_false, ite_self]

/-- The timer is where it would be, and the seconds end at the same edges. -/
structure Alike (timer : ℕ) (r r' : Timers) : Prop where
  timCnt : r.timCnt = r'.timCnt
  half : r.half timer = r'.half timer

section alike
variable {timer : ℕ} {r r' : Timers}

theorem Alike.tick {c : Cycle} (h : Alike timer r r') (hrst : c.rst = false)
    (hc : timeWrEn r c = false ∨ Harmless (r.half timer) (halfDat c.dat timer)) :
    Alike timer (Timer.tick r c) (Timer.tick r' idleCycle) := by
  refine ⟨?_, ?_⟩
  · simp only [Timer.tick, h.timCnt]
  · rw [tick_half, tick_half, ← h.half, ← h.timCnt, hrst]
    have hidle : timeWrEn r' idleCycle = false := rfl
    have hrstIdle : idleCycle.rst = false := rfl
    rw [hidle, hrstIdle]
    rcases hc with hwr | hdat
    · rw [hwr]
      rfl
    · exact hdat.tick_eq _ _ _

theorem tick_mask {c : Cycle} (hrst : c.rst = false) :
    ((Timer.tick r c).half timer).timMask =
      if timeWrEn r c then (halfDat c.dat timer).getLsbD 1 else (r.half timer).timMask := by
  rw [tick_half, hrst]
  rfl

theorem Alike.passes {r r' : Idle} (h : Alike timer r.toTimers r'.toTimers) (n : ℕ) :
    Alike timer (passes n r).toTimers (Timer.passes n r').toTimers := by
  induction n generalizing r r' with
  | zero => exact h
  | succ n ih =>
    have hpass : Alike timer (pass r).toTimers (pass r').toTimers := h.tick rfl (Or.inl rfl)
    exact ih hpass

theorem passes_mask (n : ℕ) (r : Idle) :
    ((Timer.passes n r).half timer).timMask = (r.half timer).timMask := by
  induction n generalizing r with
  | zero => rfl
  | succ n ih =>
    rw [Timer.passes, ih]
    exact tick_mask rfl

theorem passes_add (m n : ℕ) (r : Idle) :
    Timer.passes (m + n) r = Timer.passes n (Timer.passes m r) := by
  induction m generalizing r with
  | zero => rw [Nat.zero_add, Timer.passes]
  | succ m ih => rw [Nat.succ_add, Timer.passes, Timer.passes, ih]

/-! ### Accesses and the other registers -/

variable (r : Idle) (we : Bool) (adr : BitVec 6) (dat : Word)

theorem wrEn_first : timeWrEn r.toTimers (access we adr dat) = (we && adr == time) := by
  simp [timeWrEn, access, r.idle]

theorem wrEn_second :
    timeWrEn (Timer.tick r.toTimers (access we adr dat)) (access we adr dat) = false := by
  rw [timeWrEn, access_ack]
  exact Bool.and_false _

theorem bus_mask : ((bus r we adr dat).half timer).timMask =
    if we && adr == time then (halfDat dat timer).getLsbD 1 else (r.half timer).timMask := by
  have hsecond : ((bus r we adr dat).half timer).timMask =
      ((Timer.tick r.toTimers (access we adr dat)).half timer).timMask := by
    rw [bus, tick_mask rfl, wrEn_second, if_neg Bool.false_ne_true]
  rw [hsecond, tick_mask rfl, wrEn_first]
  rfl

variable {r we adr dat}

theorem Alike.bus {r' : Idle} (h : Alike timer r.toTimers r'.toTimers)
    (hc : (we && adr == time) = false ∨ Harmless (r.half timer) (halfDat dat timer)) :
    Alike timer (bus r we adr dat).toTimers (Timer.passes 2 r').toTimers := by
  have hfirst : Alike timer (Timer.tick r.toTimers (access we adr dat)) (pass r').toTimers :=
    h.tick rfl (hc.imp_left fun hother => (wrEn_first r we adr dat).trans hother)
  exact hfirst.tick rfl (Or.inl (wrEn_second r we adr dat))

end alike

/-! ### The value read -/

def maskWord (mask0 mask1 : Bool) : Word :=
  (if mask1 then 0x20000 else 0) ||| (if mask0 then 0x2 else 0)

theorem regTim_and (r : Timers) :
    r.regTim &&& 0x20002 = maskWord r.half0.timMask r.half1.timMask := by
  apply BitVec.eq_of_getLsbD_eq
  intro i hi
  simp only [Timers.regTim, Half.word, BitVec.getLsbD_and, BitVec.getLsbD_append]
  cases r.half0.timMask <;> cases r.half1.timMask <;> interval_cases i <;> simp [maskWord]

theorem readValue_and (r : Idle) :
    readValue r &&& 0x20002 = maskWord r.half0.timMask r.half1.timMask := by
  have hwr : timeWrEn r.toTimers (access false time 0) = false := wrEn_first r false time 0
  have hmask (timer : ℕ) :
      ((tick r.toTimers (access false time 0)).half timer).timMask = (r.half timer).timMask := by
    rw [tick_mask rfl, hwr, if_neg Bool.false_ne_true]
  rw [readValue, regTim_and]
  exact congrArg₂ maskWord (hmask 0) (hmask 1)

end HashRatio.Timer
