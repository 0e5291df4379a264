import HashRatio.Spi

/-!
# One byte on the SPI lines

The shift engine in closed form over the clock edges since it left idle: one cycle
to load, the rest of two half periods to wait, sixteen half periods of SCLK, one to
turn around and three between bytes.
-/

namespace HashRatio.SpiFrame
open Bytes Spi

/-! ### The engine over time -/

def statusAt (n : ℕ) : Status :=
  if n = 0 then .load
  else if n < 32 then .wait
  else if n < 288 then .trans
  else if n < 304 then .turnaround
  else if n < 352 then .interval
  else .idle

def dataAt (n : ℕ) : ℕ :=
  if n < 32 then n / 16
  else if n < 288 then (n - 32) / 32
  else if n < 304 then 0
  else if n < 352 then (n - 304) / 16
  else 0

def sclkAt (n : ℕ) : Bool := decide (32 ≤ n ∧ n < 288 ∧ n / 16 % 2 = 1)

/-- `n` edges after leaving idle; 352 is idle again, for as long as nothing is pending. -/
structure Timed (n : ℕ) (s : Shifter) : Prop where
  cap : n ≤ 352
  status : s.cStatus = statusAt n
  latch : 288 ≤ n → n < 304 → s.nStatusR = .turnaround
  clockCnt : s.clockCnt = n % 16
  dataCnt : s.dataCnt = dataAt n
  sclk : s.sclk = sclkAt n
  armed : n < 352 → s.waitOneTickDone = true
  rxLatch : s.rxLatchFlag = decide (n = 288)

def after (n : ℕ) (pendingData : Bool) : ℕ :=
  if n < 352 then n + 1 else if pendingData then 0 else 352

theorem timed_reset : Timed 352 Shifter.reset :=
  ⟨le_rfl, rfl, fun _ h => absurd h (by decide), rfl, rfl, rfl, fun h => absurd h (by decide), rfl⟩

inductive Region (n : ℕ) : Prop where
  | load (h : n = 0)
  | wait (lo : 0 < n) (hi : n < 32)
  | trans (lo : 32 ≤ n) (hi : n < 288)
  | turnaround (lo : 288 ≤ n) (hi : n < 304)
  | interval (lo : 304 ≤ n) (hi : n < 352)
  | idle (h : 352 ≤ n)

theorem region (n : ℕ) : Region n := by
  by_cases h0 : n = 0
  · exact .load h0
  by_cases h1 : n < 32
  · exact .wait (Nat.pos_of_ne_zero h0) h1
  by_cases h2 : n < 288
  · exact .trans (Nat.le_of_not_lt h1) h2
  by_cases h3 : n < 304
  · exact .turnaround (Nat.le_of_not_lt h2) h3
  by_cases h4 : n < 352
  · exact .interval (Nat.le_of_not_lt h3) h4
  · exact .idle (Nat.le_of_not_lt h4)

section timed
variable {n : ℕ} {s : Shifter}

theorem Timed.nStatus (h : Timed n s) (p : Bool) : s.nStatus p = statusAt (after n p) := by
  have hcap := h.cap
  have hlatch := h.latch
  rw [Shifter.nStatus, h.status, h.clockCnt, h.dataCnt, h.sclk]
  cases region n with
  | load h0 => simp [h0, statusAt, after]
  | wait lo hi => simp [statusAt, after, dataAt]; grind
  | trans lo hi => simp [statusAt, after, dataAt, sclkAt]; grind
  | turnaround lo hi => simp [statusAt, after]; grind
  | interval lo hi => simp [statusAt, after, dataAt]; grind
  | idle hi =>
    have hn : n = 352 := by omega
    cases p <;> simp [hn, statusAt, after]

theorem after_le (h : n ≤ 352) (p : Bool) : after n p ≤ 352 := by
  rw [after]
  split
  · omega
  · split <;> omega

theorem Timed.clockCnt_edge (h : Timed n s) (p : Bool) (txdata : Byte) (miso : Bool) :
    (s.next p txdata miso).clockCnt = after n p % 16 := by
  have hcap := h.cap
  simp only [Shifter.next, h.status, h.clockCnt, clockSel_eq]
  cases region n <;> grind [statusAt, after]

theorem Timed.dataCnt_edge (h : Timed n s) (p : Bool) (txdata : Byte) (miso : Bool) :
    (s.next p txdata miso).dataCnt = dataAt (after n p) := by
  have hcap := h.cap
  simp only [Shifter.next, h.status, h.clockCnt, h.dataCnt, h.sclk, clockSel_eq,
    delayTime_eq, actualMax_eq, intervalLength_eq, clockPhase_eq, clockPolarity_eq]
  cases region n with
  | load h0 => simp [h0, statusAt, after, dataAt]
  | wait lo hi => grind [statusAt, after, dataAt]
  | trans lo hi =>
    have hstatus : statusAt n = .trans := by grind [statusAt]
    have hafter : after n p = n + 1 := if_pos (by omega)
    simp only [hstatus, hafter, sclkAt, dataAt, reduceCtorEq, false_and, false_or, or_false,
      if_false, true_and]
    split <;> split <;> grind
  | turnaround lo hi => grind [statusAt, after, dataAt]
  | interval lo hi => grind [statusAt, after, dataAt]
  | idle hi => grind [statusAt, after, dataAt]

theorem Timed.sclk_edge (h : Timed n s) (p : Bool) (txdata : Byte) (miso : Bool) :
    (s.next p txdata miso).sclk = sclkAt (after n p) := by
  have hcap := h.cap
  simp only [Shifter.next, h.status, h.clockCnt, h.sclk, clockSel_eq]
  cases region n <;> grind [statusAt, after, sclkAt]

theorem Timed.rxLatch_edge (h : Timed n s) (p : Bool) (txdata : Byte) (miso : Bool) :
    (s.next p txdata miso).rxLatchFlag = decide (after n p = 288) := by
  have hcap := h.cap
  simp only [Shifter.next, h.nStatus p, h.status, h.rxLatch]
  cases region n <;> grind [statusAt, after]

theorem Timed.edge (h : Timed n s) (p : Bool) (txdata : Byte) (miso : Bool) :
    Timed (after n p) (s.next p txdata miso) where
  cap := after_le h.cap p
  status := h.nStatus p
  latch lo hi := by
    have hstatus : statusAt (after n p) = .turnaround := by grind [statusAt]
    exact (h.nStatus p).trans hstatus
  clockCnt := h.clockCnt_edge p txdata miso
  dataCnt := h.dataCnt_edge p txdata miso
  sclk := h.sclk_edge p txdata miso
  armed _ := rfl
  rxLatch := h.rxLatch_edge p txdata miso

end timed

/-! ### The bits -/

/-- SCLK rises and MISO is taken at this edge. -/
def Rise (n : ℕ) : Prop := 32 ≤ n ∧ n < 288 ∧ n % 32 = 15

instance (n : ℕ) : Decidable (Rise n) := inferInstanceAs (Decidable (_ ∧ _ ∧ _))

/-- Rising edges of SCLK so far. -/
def risen (n : ℕ) : ℕ := (min n 288 - 16) / 32

theorem risen_succ (n : ℕ) : risen (n + 1) = if Rise n then risen n + 1 else risen n := by
  by_cases hrise : Rise n
  · rw [if_pos hrise]
    simp only [Rise, risen] at hrise ⊢
    omega
  · rw [if_neg hrise]
    simp only [Rise, risen] at hrise ⊢
    omega

theorem rise_iff {n : ℕ} (hcap : n ≤ 352) (p : Bool) :
    (!sclkAt n && sclkAt (after n p)) = true ↔ Rise n := by
  rw [Bool.and_eq_true, Bool.not_eq_true', sclkAt, sclkAt, decide_eq_false_iff_not,
    decide_eq_true_eq, Rise, after]
  by_cases hn : n < 352
  · rw [if_pos hn]
    omega
  · rw [if_neg hn]
    cases p
    · rw [if_neg Bool.false_ne_true]
      omega
    · rw [if_pos rfl]
      omega

/-- The bit of `w` that is out while SCLK is in its `k`-th period. -/
def bitNo (n : ℕ) : ℕ := (n - 32) / 32

/-- `w` was taken when the wait ended. -/
structure Shifting (w : Byte) (n : ℕ) (s : Shifter) : Prop extends Timed n s where
  mosi : 32 ≤ n → n < 288 → s.mosi = w.getLsbD (7 - bitNo n)
  tx : 32 ≤ n → n < 288 → s.txShiftData = w <<< (bitNo n + 1)

section shifting
variable {w : Byte} {n : ℕ} {s : Shifter}

theorem shiftLeft_top (w : Byte) {k : ℕ} (hk : k ≤ 7) :
    (w <<< k).getLsbD 7 = w.getLsbD (7 - k) := by
  rw [BitVec.getLsbD_shiftLeft]
  simp [hk]

/-- The byte is loaded where the wait ends, and moves one bit where SCLK falls. -/
theorem Timed.tx_edge (h : Timed n s) (p : Bool) (txdata : Byte) (miso : Bool) :
    (s.next p txdata miso).mosi =
        (if n = 31 then txdata.getLsbD 7 else if 32 ≤ n ∧ n < 288 ∧ n % 32 = 31 then
          s.txShiftData.getLsbD 7 else s.mosi) ∧
      (s.next p txdata miso).txShiftData =
        (if n = 31 then shiftZero txdata else if 32 ≤ n ∧ n < 288 ∧ n % 32 = 31 then
          shiftZero s.txShiftData
          else s.txShiftData) := by
  have hcap := h.cap
  have hload :
      ((s.cStatus = .load ∧ s.nStatus p = .trans) ∨ (s.cStatus = .wait ∧ s.nStatus p = .trans)) ↔
        n = 31 := by
    rw [h.status, h.nStatus p]
    cases region n <;> grind [statusAt, after]
  have hfall : (s.cStatus = .trans ∧ s.clockCnt = clockSel ∧ (clockPhase ^^ s.sclk) = true) ↔
      (32 ≤ n ∧ n < 288 ∧ n % 32 = 31) := by
    rw [h.status, h.clockCnt, h.sclk, clockSel_eq, clockPhase_eq, Bool.false_xor, sclkAt,
      decide_eq_true_eq]
    cases region n <;> grind [statusAt]
  constructor
  · simp only [Shifter.next, hload, hfall]
    split
    · rfl
    · split
      · rename_i hin
        rw [if_pos (h.armed (by omega))]
      · rfl
  · simp only [Shifter.next, hload, hfall]
    split
    · rfl
    · split
      · rename_i hin
        rw [if_pos (h.armed (by omega))]
      · rfl

theorem Timed.rx_edge (h : Timed n s) (p : Bool) (txdata : Byte) (miso : Bool) :
    (s.next p txdata miso).rxShiftData = if Rise n then shiftIn s.rxShiftData miso
      else s.rxShiftData := by
  have hrise : (s.clockCnt = clockSel ∧ clockPhase = s.sclk ∧ s.cStatus = .trans) ↔ Rise n := by
    rw [h.status, h.clockCnt, h.sclk, clockSel_eq, clockPhase_eq, sclkAt, Rise]
    cases region n <;> grind [statusAt]
  simp only [Shifter.next, hrise]

theorem Shifting.edge (h : Shifting w n s) (hlt : n < 352) (p : Bool) {txdata : Byte}
    (hw : n = 31 → txdata = w) (miso : Bool) : Shifting w (n + 1) (s.next p txdata miso) := by
  have htimed := h.toTimed.edge p txdata miso
  obtain ⟨hmosi, htx⟩ := h.toTimed.tx_edge p txdata miso
  rw [after, if_pos hlt] at htimed
  refine ⟨htimed, fun lo hi => ?_, fun lo hi => ?_⟩
  · rw [hmosi]
    by_cases hload : n = 31
    · rw [if_pos hload, hw hload, hload]
      rfl
    rw [if_neg hload]
    by_cases hfall : n % 32 = 31
    · have hbit : bitNo (n + 1) = bitNo n + 1 := by
        simp only [bitNo]
        omega
      have hle : bitNo n + 1 ≤ 7 := by
        simp only [bitNo]
        omega
      rw [if_pos ⟨by omega, by omega, hfall⟩, h.tx (by omega) (by omega), shiftLeft_top w hle, hbit]
    · have hbit : bitNo (n + 1) = bitNo n := by
        simp only [bitNo]
        omega
      rw [if_neg (by omega), h.mosi (by omega) (by omega), hbit]
  · rw [htx]
    by_cases hload : n = 31
    · rw [if_pos hload, hw hload, hload]
      rfl
    rw [if_neg hload]
    by_cases hfall : n % 32 = 31
    · have hbit : bitNo (n + 1) = bitNo n + 1 := by
        simp only [bitNo]
        omega
      rw [if_pos ⟨by omega, by omega, hfall⟩, h.tx (by omega) (by omega), hbit, shiftZero,
        ← BitVec.shiftLeft_add]
    · have hbit : bitNo (n + 1) = bitNo n := by
        simp only [bitNo]
        omega
      rw [if_neg (by omega), h.tx (by omega) (by omega), hbit]

end shifting

end HashRatio.SpiFrame
