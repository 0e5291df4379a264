import HashRatio.Lib.Serial
import HashRatio.UartRx

/-!
# Frames into the receiver

A frame of eight data bits, no parity and one stop bit whose symbols last `t` clocks is
received as its byte when the sample of the stop bit, taken `9 * divisor + half` clocks
after the start, falls into the stop bit; it may be followed by the next frame at once.
-/

namespace HashRatio.UartRecv
open Bytes UartRx Serial Run
open UartTx (Lcr)

/-- Clocks from the start of a symbol to its sample. -/
def half (d : ℕ) : ℕ := d - d / 2

/-- A byte without error bits. -/
def clean (w : Byte) : FifoWord := ⟨w, false, false, false⟩

/-! ### The way to the FIFO -/

/-- `n` more edges and `words` are in the FIFO. -/
inductive Pipe (s : Rx) : ℕ → List FifoWord → Prop
  | first (w : Byte) (hcs : s.csState = .idle) (hidle : s.rxIdle = false) (hone : s.huntOne = true)
      (hrsr : s.rsr = w) (herr : s.rxFrameErr = false) (hwr : s.fifoWr = false) : Pipe s 3 [clean w]
  | second (w : Byte) (hidle : s.rxIdle = true) (hidle1 : s.rxIdleD1 = false)
      (hbreak : s.breakIntInt = false) (hframe : s.frameErrInt = false)
      (hparity : s.parityErrInt = false) (hrsr : s.rsr = w)
      (hwr : s.fifoWr = false) : Pipe s 2 [clean w]
  | third (w : Byte) (hin : s.csState = .idle → s.rxIdle = true) (hidle : s.rxIdle = true →
    s.rxIdleD1 = true) (hdin : s.fifoDin = clean w) (hwr : s.fifoWr = true)
      (hwrq : s.fifoWrQ = false) : Pipe s 1 [clean w]
  | done (hin : s.csState = .idle → s.rxIdle = true) (hidle : s.rxIdle = true → s.rxIdleD1 = true)
      (hwr : s.fifoWr = false) : Pipe s 0 []

section pipe
variable {lcr : Lcr} {d n : ℕ} {s : Rx} {i : In} {words : List FifoWord}

/-- As long as the state machine does not come back to `idle`. -/
theorem pipe_next (hl : lcr.Plain) (hcs : (next lcr d s i).csState = .idle → s.csState = .idle)
    (h : Pipe s n words) :
    ∃ rest, Pipe (next lcr d s i) (n - 1) rest ∧ s.offers.toList ++ rest = words := by
  cases h with
  | first w hcs hidle hone hrsr herr hwr =>
    refine ⟨[clean w], .second w ?_ ?_ ?_ ?_ ?_ ?_ ?_, ?_⟩
    · simp [next, hcs]
    · simp [next, hidle]
    · simp [next, hone]
    · simp [next, herr]
    · simp [next, hl.parityEn]
    · simp [next, hcs, hrsr]
    · simp [next, hidle]
    · simp [Rx.offers, Rx.fifoWrPulse, hwr]
  | second w hidle hidle1 hbreak hframe hparity hrsr hwr =>
    refine ⟨[clean w], .third w ?_ ?_ ?_ ?_ ?_, ?_⟩
    · intro hnext
      simp [next, hcs hnext]
    · simp [next, hidle]
    · simp [next, hidle, hidle1, hbreak, hframe, hparity, hrsr, hl.databits, clean]
    · simp [next, hidle, hidle1]
    · simp [next, hwr]
    · simp [Rx.offers, Rx.fifoWrPulse, hwr]
  | third w hin hidle hdin hwr hwrq =>
    refine ⟨[], .done ?_ ?_ ?_, ?_⟩
    · intro hnext
      simp [next, hcs hnext]
    · intro hnext
      simp only [next, beq_iff_eq] at hnext ⊢
      exact hin hnext
    · cases hval : s.rxIdle with
      | false => simp [next, hval]
      | true => simp [next, hval, hidle hval]
    · simp [Rx.offers, Rx.fifoWrPulse, hwr, hwrq, hdin]
  | done hin hidle hwr =>
    refine ⟨[], .done ?_ ?_ ?_, ?_⟩
    · intro hnext
      simp [next, hcs hnext]
    · intro hnext
      simp only [next, beq_iff_eq] at hnext ⊢
      exact hin hnext
    · cases hval : s.rxIdle with
      | false => simp [next, hval]
      | true => simp [next, hval, hidle hval]
    · simp [Rx.offers, Rx.fifoWrPulse, hwr]

theorem pipe_zero (h : Pipe s 0 words) : words = [] := by
  cases h with
  | done => rfl

end pipe

/-! ### Between frames -/

/-- The line was high and is now at `x`. -/
structure Idle (x : Bool) (s : Rx) : Prop where
  csState : s.csState = .idle
  sinD0 : s.sinD0 = x
  sinD0Delay : x = false → s.sinD0Delay = true
  rxFrameErr : s.rxFrameErr = false
  sampledOnce : s.sampledOnce = false

section idle
variable {lcr : Lcr} {d : ℕ} {s : Rx} {i : In}

theorem idle_next (h : Idle true s) : Idle i.sin (next lcr d s i) := by
  constructor
  · simp [next, h.csState, h.sinD0]
  · rfl
  · intro _
    exact h.sinD0
  · simp [next, h.csState, h.rxFrameErr]
  · simp [next, h.rxFrameErr]

theorem idle_reset (hsin : i.sin = true) : Idle true (next lcr d Rx.reset i) := by
  refine ⟨rfl, hsin, ?_, rfl, rfl⟩
  intro h
  cases h

theorem pipe_reset : Pipe (next lcr d Rx.reset i) 0 [] := .done (fun _ => rfl) (fun _ => rfl) rfl

end idle

/-! ### Inside a frame -/

def stateAt (b : ℕ) : State := if b = 0 then .idle1 else if b ≤ 8 then .shift else .stop

/-- Data bits sampled before clock `j` of symbol `b`. -/
def taken (d b j : ℕ) : ℕ := min 8 (b - 1 + if b ≠ 0 ∧ half d < j then 1 else 0)

/-- `j` clocks into symbol `b` by the receiver's clocks. -/
structure Receiving (d : ℕ) (w : Byte) (b j : ℕ) (s : Rx) : Prop where
  csState : s.csState = stateAt b
  counter : s.counter = d - j
  rsr : 1 ≤ b ∨ half d < j → s.rsr = w <<< (8 - taken d b j)
  databitRecvedNum : 1 ≤ b ∨ half d < j → s.databitRecvedNum = taken d b j
  rxFrameErr : s.rxFrameErr = false
  sampledOnce : s.sampledOnce = false
  rxIdle : 1 ≤ b ∨ 2 ≤ j → s.rxIdle = false
  settled : 1 ≤ b ∨ 3 ≤ j → s.hunt = false ∧ s.rxIdleD1 = false ∧ s.fifoWr = false
  sample : j = half d → s.sinD0 = symbol w b

section frame
variable {lcr : Lcr} {d : ℕ} {w : Byte} {b j : ℕ} {s : Rx} {i : In}

theorem dec_eq {n : ℕ} (hpos : 0 < n) (hn : n < 65536) : dec n = n - 1 := by
  unfold dec
  omega

theorem shift_in {k : ℕ} (hk : k < 8) :
    BitVec.cons (w.getLsbD k) ((w <<< (8 - k)).extractLsb' 1 7) = w <<< (8 - (k + 1)) := by
  ext n hn
  simp only [BitVec.getElem_cons, BitVec.getElem_extractLsb', BitVec.getLsbD_shiftLeft,
    BitVec.getElem_shiftLeft]
  grind

theorem receiving_start (hd : 4 ≤ d) (hlt : d < 65536) (h : Idle false s) :
    Receiving d w 0 1 (next lcr d s i) := by
  have hhalf : 2 ≤ half d := by
    unfold half
    omega
  constructor
  · simp [next, h.csState, h.sinD0, h.sinD0Delay rfl, stateAt]
  · simp only [next, h.csState]
    exact dec_eq (by omega) hlt
  · intro hpos
    omega
  · intro hpos
    omega
  · simp [next, h.csState, h.rxFrameErr]
  · simp [next, h.rxFrameErr]
  · intro hpos
    omega
  · intro hpos
    omega
  · intro hj
    omega

/-- The registers that no counter decides. -/
theorem receiving_kept (lcr : Lcr) (i : In) (h : Receiving d w b j s) :
    (next lcr d s i).sampledOnce = false ∧
    (next lcr d s i).rxIdle = false ∧ (1 ≤ b ∨ 2 ≤ j →
      (next lcr d s i).hunt = false ∧ (next lcr d s i).rxIdleD1 = false ∧
      (next lcr d s i).fifoWr = false) := by
  have hcs : s.csState ≠ .idle := by
    rw [h.csState, stateAt]
    grind
  refine ⟨by simp [next, h.rxFrameErr], by simp [next, hcs], fun hlate => ?_⟩
  have hidle := h.rxIdle hlate
  simp [next, hcs, hidle, h.sampledOnce]

theorem mid_iff (h : Receiving d w b j s) (hj : j < d) : s.counter = d / 2 ↔ j = half d := by
  rw [h.counter, half]
  omega

theorem taken_mid (hb : 1 ≤ b) (hb8 : b ≤ 8) :
    taken d b (half d) = b - 1 ∧ taken d b (half d + 1) = b - 1 + 1 := by
  unfold taken
  grind

theorem taken_other (hj : b = 0 ∨ j ≠ half d ∨ b = 9) : taken d b (j + 1) = taken d b j := by
  unfold taken
  grind

theorem taken_wrap (hd : 4 ≤ d) (hb : b ≤ 8) : taken d (b + 1) 0 = taken d b (d - 1) := by
  unfold taken half
  grind

/-- What the data registers hold after a clock that is not the last of a symbol. -/
theorem data_tick (h : Receiving d w b j s) (hj : j + 1 < d) (hb : b ≤ 9)
    (hlate : 1 ≤ b ∨ half d < j + 1) :
    (next lcr d s i).rsr = w <<< (8 - taken d b (j + 1)) ∧
      (next lcr d s i).databitRecvedNum = taken d b (j + 1) := by
  have hmid := mid_iff h (Nat.lt_of_succ_lt hj)
  have hcs := h.csState
  by_cases hsample : j = half d
  · have hsin := h.sample hsample
    obtain rfl | ⟨hlow, hhigh⟩ | rfl : b = 0 ∨ (1 ≤ b ∧ b ≤ 8) ∨ b = 9 := by omega
    · have hzero : w <<< 8 = 0 := BitVec.shiftLeft_eq_zero (Nat.le_refl 8)
      simp [next, hcs, stateAt, hmid.mpr hsample, hsin, taken, hzero]
    · obtain ⟨b, rfl⟩ := Nat.exists_eq_add_of_le' hlow
      subst hsample
      obtain ⟨hat, hafter⟩ := taken_mid (d := d) hlow hhigh
      have hrsr := h.rsr (.inl hlow)
      have hnum := h.databitRecvedNum (.inl hlow)
      rw [hat] at hrsr hnum
      rw [hafter]
      have hshift : stateAt (b + 1) = .shift := by
        rw [stateAt, if_neg (Nat.succ_ne_zero b), if_pos hhigh]
      simp only [next, hcs, hshift, hmid.mpr rfl, if_true, hsin, hrsr, hnum,
        symbol_data w (Nat.lt_of_succ_le hhigh),
        Nat.add_sub_cancel]
      exact ⟨shift_in (by omega), Nat.mod_eq_of_lt (by omega)⟩
    · have hstop : stateAt 9 = .stop := rfl
      rw [taken_other (.inr (.inr rfl)), ← h.rsr (.inl (by decide)),
        ← h.databitRecvedNum (.inl (by decide))]
      simp [next, hcs, hstop]
  · have hlate' : 1 ≤ b ∨ half d < j := by omega
    have hno : s.counter ≠ d / 2 := fun hc => hsample (hmid.mp hc)
    rw [taken_other (.inr (.inl hsample)), ← h.rsr hlate', ← h.databitRecvedNum hlate']
    cases hst : s.csState <;> simp [next, hst, hno]

theorem receiving_tick (hd : 4 ≤ d) (hlt : d < 65536) (h : Receiving d w b j s)
    (hj : j + 1 < d) (hb : b ≤ 9) (hstop : b = 9 → j < half d) (hsin : j + 1 = half d →
      i.sin = symbol w b) :
    Receiving d w b (j + 1) (next lcr d s i) := by
  have hmid := mid_iff h (Nat.lt_of_succ_lt hj)
  have hlast : s.counter ≠ 1 := by
    rw [h.counter]
    omega
  have hcs := h.csState
  obtain ⟨honce, hidle, hsettled⟩ := receiving_kept lcr i h
  have hframe : s.csState = .stop → s.counter ≠ d / 2 := by
    intro hst hc
    have hnine : b = 9 := by
      rw [hcs, stateAt] at hst
      grind
    exact absurd (hmid.mp hc) (Nat.ne_of_lt (hstop hnine))
  constructor
  · obtain rfl | ⟨hlow, hhigh⟩ | rfl : b = 0 ∨ (1 ≤ b ∧ b ≤ 8) ∨ b = 9 := by omega
    · have hlow : s.counter = d / 2 → s.sinD0 = false := fun hc => h.sample (hmid.mp hc)
      simp only [next, hcs, stateAt, hlast]
      grind
    · simp [next, hcs, stateAt, hlast, Nat.ne_of_gt hlow, hhigh]
    · have hst : s.csState = .stop := hcs
      simp [next, hst, hframe hst, stateAt]
  · have hdec : dec s.counter = d - (j + 1) := by
      rw [h.counter, dec_eq (by omega) (by omega), Nat.sub_sub]
    cases hst : s.csState with
    | idle =>
      rw [hcs, stateAt] at hst
      grind
    | idle1 => simp [next, hst, hlast, hdec]
    | shift => simp [next, hst, hlast, hdec]
    | parity => simp [next, hst, hlast, hdec]
    | stop => simp [next, hst, hdec]
  · exact fun hlate => (data_tick h hj hb hlate).1
  · exact fun hlate => (data_tick h hj hb hlate).2
  · cases hst : s.csState with
    | stop => simp [next, hst, hframe hst, h.rxFrameErr]
    | _ => simp [next, hst, h.rxFrameErr]
  · exact honce
  · exact fun _ => hidle
  · exact fun hlate => hsettled (hlate.imp_right Nat.le_of_succ_le_succ)
  · exact hsin

theorem receiving_wrap (hl : lcr.Plain) (hd : 4 ≤ d) (hlt : d < 65536)
    (h : Receiving d w b (d - 1) s) (hb : b ≤ 8) :
    Receiving d w (b + 1) 0 (next lcr d s i) := by
  have hlast : s.counter = 1 := by
    rw [h.counter]
    omega
  have hno : s.counter ≠ d / 2 := by omega
  have hcs := h.csState
  have hhalf : half d < d - 1 := by
    unfold half
    omega
  obtain ⟨honce, hidle, hsettled⟩ := receiving_kept lcr i h
  have hnum := h.databitRecvedNum (.inr hhalf)
  constructor
  · obtain rfl | hlow : b = 0 ∨ 1 ≤ b := by omega
    · simp [next, hcs, stateAt, hlast]
    · have hst : s.csState = .shift := by rw [hcs, stateAt, if_neg (by omega), if_pos hb]
      have hfull : taken d b (d - 1) = b := by
        rw [← taken_wrap hd hb, taken]
        simp [hb]
      simp only [next, hst, hlast, hnum, hfull, hl.databits, hl.parityEn, stateAt]
      grind
  · obtain rfl | hlow : b = 0 ∨ 1 ≤ b := by omega
    · simp [next, hcs, stateAt, hlast]
    · have hst : s.csState = .shift := by rw [hcs, stateAt, if_neg (by omega), if_pos hb]
      simp [next, hst, hlast]
  · intro _
    rw [taken_wrap hd hb, ← h.rsr (.inr hhalf)]
    cases hst : s.csState <;> simp [next, hst, hno]
  · intro _
    rw [taken_wrap hd hb, ← hnum]
    cases hst : s.csState <;> simp [next, hst, hno]
  · rw [← h.rxFrameErr]
    cases hst : s.csState <;> simp [next, hst, hno]
  · exact honce
  · exact fun _ => hidle
  · exact fun _ => hsettled (.inr (by omega))
  · intro hj
    unfold half at hj
    omega

/-- The sample of the stop bit; the line may already fall. -/
theorem receiving_last (lcr : Lcr) (i : In) (hd : 4 ≤ d) (h : Receiving d w 9 (half d) s) :
    Idle i.sin (next lcr d s i) ∧ Pipe (next lcr d s i) 3 [clean w] := by
  have hj : half d < d := by
    unfold half
    omega
  have hmid := (mid_iff h hj).mpr rfl
  have hst : s.csState = .stop := h.csState
  have hsin : s.sinD0 = true := h.sample rfl
  have hrsr : s.rsr = w := by
    rw [h.rsr (.inl (by decide)), taken, Nat.min_eq_left (by omega), Nat.sub_self,
      BitVec.shiftLeft_zero]
  obtain ⟨hhunt, hidle1, hwr⟩ := h.settled (.inl (by decide))
  have hidle := h.rxIdle (.inl (by decide))
  refine ⟨⟨?_, rfl, fun _ => hsin, ?_, ?_⟩, .first w ?_ ?_ ?_ ?_ ?_ ?_⟩
  · simp [next, hst, hmid]
  · simp [next, hst, hmid, hsin]
  · simp [next, h.rxFrameErr]
  · simp [next, hst, hmid]
  · simp [next, hst]
  · simp [next, hhunt, hidle, hmid, hsin]
  · simp [next, hst, hrsr]
  · simp [next, hst, hmid, hsin]
  · simp [next, hidle]

end frame

/-! ### The receiver and what it gave to the FIFO -/

structure Receiver where
  rx : Rx
  got : List FifoWord

def Receiver.reset : Receiver := ⟨Rx.reset, []⟩

def Receiver.next (lcr : Lcr) (d : ℕ) (r : Receiver) (i : In) : Receiver :=
  ⟨UartRx.next lcr d r.rx i, r.got ++ r.rx.offers.toList⟩

/-- At most `k` edges and all of `words` are in the FIFO. -/
def Holds (k : ℕ) (r : Receiver) (words : List FifoWord) : Prop :=
  ∃ n ≤ k, ∃ rest, Pipe r.rx n rest ∧ r.got ++ rest = words

/-- The receiver's clock against symbols of `t` clocks: the sample of the stop bit falls into the
stop bit. -/
structure Tolerates (d t : ℕ) : Prop where
  four_le : 4 ≤ d
  lt : d < 65536
  slow : 9 * t ≤ 9 * d + half d
  fast : 9 * d + half d < 10 * t

instance (d t : ℕ) : Decidable (Tolerates d t) :=
  decidable_of_iff (4 ≤ d ∧ d < 65536 ∧ 9 * t ≤ 9 * d + half d ∧ 9 * d + half d < 10 * t)
    ⟨fun h => ⟨h.1, h.2.1, h.2.2.1, h.2.2.2⟩, fun h => ⟨h.four_le, h.lt, h.slow, h.fast⟩⟩

/-- Then every sample falls into its symbol. -/
theorem sample_symbol {d t : ℕ} (h : Tolerates d t) {b : ℕ} (hb : b ≤ 9) :
    (b * d + half d) / t = b := by
  have hslow := h.slow
  have hfast := h.fast
  have hhalf : half d < d := by
    have hfour := h.four_le
    unfold half
    omega
  refine Nat.div_eq_of_lt_le ?_ ?_
  · obtain hle | hle := Nat.le_total t d
    · exact Nat.le_add_right_of_le (Nat.mul_le_mul_left b hle)
    · obtain ⟨e, rfl⟩ := Nat.exists_eq_add_of_le hle
      have hdrift := Nat.mul_le_mul_right e hb
      rw [Nat.mul_add]
      omega
  · obtain hle | hle := Nat.le_total d t
    · have hmul := Nat.mul_le_mul_left b hle
      rw [Nat.succ_mul]
      omega
    · obtain ⟨e, rfl⟩ := Nat.exists_eq_add_of_le hle
      have hdrift := Nat.mul_le_mul_right e hb
      rw [Nat.succ_mul, Nat.mul_add]
      omega

section samples
variable {lcr : Lcr} {d t k : ℕ} {w : Byte} {b j m : ℕ} {r : Receiver} {i : In}
  {words : List FifoWord}

theorem holds_next (hl : lcr.Plain)
    (hcs : (r.next lcr d i).rx.csState = .idle → r.rx.csState = .idle)
    (h : Holds k r words) : Holds (k - 1) (r.next lcr d i) words := by
  obtain ⟨n, hn, rest, hpipe, rfl⟩ := h
  obtain ⟨rest', hnext, hoffers⟩ := pipe_next (i := i) hl hcs hpipe
  refine ⟨n - 1, by omega, rest', hnext, ?_⟩
  rw [← hoffers]
  exact List.append_assoc ..

theorem Holds.mono {k' : ℕ} (h : Holds k r words) (hk : k ≤ k') : Holds k' r words := by
  obtain ⟨n, hn, rest⟩ := h
  exact ⟨n, hn.trans hk, rest⟩

theorem holds_got (h : Holds 0 r words) : r.got = words := by
  obtain ⟨n, hn, rest, hpipe, rfl⟩ := h
  obtain rfl := Nat.le_zero.mp hn
  rw [pipe_zero hpipe, List.append_nil]

/-- Long before the stop bit the last word is in the FIFO. -/
theorem receiving_got (hb : 1 ≤ b) (h : Receiving d w b j r.rx) (hw : Holds k r words) :
    r.got = words ∧ r.rx.offers = none := by
  have hcs : r.rx.csState ≠ .idle := by
    rw [h.csState, stateAt]
    grind
  have hidle := h.rxIdle (.inl hb)
  have hwr := (h.settled (.inl hb)).2.2
  have hoffers : r.rx.offers = none := by simp [Rx.offers, Rx.fifoWrPulse, hwr]
  obtain ⟨n, _, rest, hpipe, rfl⟩ := hw
  refine ⟨?_, hoffers⟩
  cases hpipe with
  | first w hst => exact absurd hst hcs
  | second w htrue =>
    rw [hidle] at htrue
    cases htrue
  | third w _ _ _ htrue =>
    rw [hwr] at htrue
    cases htrue
  | done => rw [List.append_nil]

/-- The line is high, at the latest with the clock that is just over. -/
inductive Ready (d : ℕ) (r : Receiver) (words : List FifoWord) : Prop
  | idle (hidle : Idle true r.rx) (hwords : Holds 3 r words)
  | stop {w : Byte} {before : List FifoWord} (hframe : Receiving d w 9 (half d) r.rx)
      (hbefore : Holds 3 r before) (hwords : words = before ++ [clean w])

theorem ready_next (hl : lcr.Plain) (hd : 4 ≤ d) (h : Ready d r words) :
    Idle i.sin (r.next lcr d i).rx ∧ Holds 3 (r.next lcr d i) words := by
  cases h with
  | idle hidle hwords =>
    exact ⟨idle_next hidle, (holds_next hl (fun _ => hidle.csState) hwords).mono (by decide)⟩
  | stop hframe hbefore hwords =>
    obtain ⟨hidle, hpipe⟩ := receiving_last lcr i hd hframe
    obtain ⟨hgot, hoffers⟩ := receiving_got (by decide) hframe hbefore
    refine ⟨hidle, 3, Nat.le_refl 3, _, hpipe, ?_⟩
    rw [hwords, Receiver.next, hgot, hoffers, Option.toList, List.append_nil]

/-- After sample `m` of the frame of `w`. -/
inductive At (d : ℕ) (w : Byte) (m : ℕ) (r : Receiver) (words : List FifoWord) : Prop
  | start (hm : m = 0) (hidle : Idle false r.rx) (hwords : Holds 3 r words)
  | inside {b j : ℕ} (hm : m = b * d + j) (hj : j < d) (hb : b ≤ 9) (hend : b = 9 → j ≤ half d)
      (hframe : Receiving d w b j r.rx) (hwords : Holds 3 r words)
  | closed (hm : 9 * d + half d < m) (hidle : Idle true r.rx)
    (hwords : Holds 3 r (words ++ [clean w]))

theorem at_first (hl : lcr.Plain) (hd : 4 ≤ d) (h : Ready d r words) (hsin : i.sin = false) :
    At d w 0 (r.next lcr d i) words := by
  obtain ⟨hidle, hwords⟩ := ready_next (i := i) hl hd h
  rw [hsin] at hidle
  exact .start rfl hidle hwords

theorem stateAt_ne_idle (b : ℕ) : stateAt b ≠ .idle := by
  unfold stateAt
  grind

theorem at_next (hl : lcr.Plain) (htol : Tolerates d t) (h : At d w m r words) (hm : m + 1 < 10 * t)
    (hsin : i.sin = symbol w ((m + 1) / t)) : At d w (m + 1) (r.next lcr d i) words := by
  have hd := htol.four_le
  have hstop (hlate : 9 * d + half d < m + 1) : i.sin = true := by
    have hslow := htol.slow
    have hnine : 9 ≤ (m + 1) / t := (Nat.le_div_iff_mul_le (by omega)).mpr (by omega)
    rw [hsin, symbol_stop w hnine]
  cases h with
  | start hzero hidle hwords =>
    subst hzero
    refine .inside (b := 0) (j := 1) (by omega) (by omega) (by decide)
      (fun h => absurd h (by decide)) (receiving_start hd htol.lt hidle) ?_
    exact (holds_next hl (fun _ => hidle.csState) hwords).mono (by decide)
  | @inside b j hpos hj hb hend hframe hwords =>
    obtain ⟨rfl, rfl⟩ | ⟨hlast, hnine⟩ | hmore : (b = 9 ∧ j = half d) ∨ (j + 1 = d ∧ b ≤ 8) ∨
        (j + 1 < d ∧ (b = 9 → j < half d)) := by
      have hhalf : half d + 1 < d := by
        unfold half
        omega
      omega
    · obtain ⟨hidle, hrest⟩ := ready_next (i := i) hl hd (.stop hframe hwords rfl)
      rw [hstop (by omega)] at hidle
      exact .closed (by omega) hidle hrest
    · obtain rfl : j = d - 1 := by omega
      have hwrap := receiving_wrap (i := i) hl hd htol.lt hframe hnine
      refine .inside (b := b + 1) (j := 0) ?_ (by omega) (by omega)
        (fun _ => Nat.zero_le _) hwrap ?_
      · rw [Nat.succ_mul]
        omega
      · refine (holds_next hl (fun hidle => ?_) hwords).mono (by decide)
        exact absurd (hwrap.csState.symm.trans hidle) (stateAt_ne_idle _)
    · have htick : Receiving d w b (j + 1) (r.next lcr d i).rx := by
        refine receiving_tick hd htol.lt hframe hmore.1 hb hmore.2 fun hmid => ?_
        rw [hsin, hpos, Nat.add_assoc, hmid, sample_symbol htol hb]
      refine .inside (b := b) (j := j + 1) (by omega) hmore.1 hb hmore.2 htick ?_
      refine (holds_next hl (fun hidle => ?_) hwords).mono (by decide)
      exact absurd (htick.csState.symm.trans hidle) (stateAt_ne_idle _)
  | closed hlate hidle hwords =>
    obtain ⟨hnext, hrest⟩ := ready_next (i := i) hl hd (.idle hidle hwords)
    rw [hstop (by omega)] at hnext
    exact .closed (by omega) hnext hrest

theorem at_end (htol : Tolerates d t) (h : At d w (10 * t - 1) r words) :
    Ready d r (words ++ [clean w]) := by
  have hfast := htol.fast
  have hd := htol.four_le
  cases h with
  | start hzero => omega
  | @inside b j hpos hj hb hend hframe hwords =>
    have hnine : b = 9 := by
      refine Nat.le_antisymm hb (Nat.le_of_not_lt fun hlt => ?_)
      have hle := Nat.mul_le_mul_right d (Nat.le_of_lt_succ hlt)
      omega
    subst hnine
    have hle := hend rfl
    obtain rfl : j = half d := by omega
    exact .stop hframe hwords rfl
  | closed _ hidle hwords => exact .idle hidle hwords

end samples

/-! ### Over whole runs -/

/-- One edge with the line control of its time. -/
structure Edge where
  lcr : Lcr
  input : In

def Edge.sin (e : Edge) : Bool := e.input.sin

def Receiver.edge (d : ℕ) (r : Receiver) (e : Edge) : Receiver := r.next e.lcr d e.input

section runs
variable {d t : ℕ} {r : Receiver} {words : List FifoWord} {es : List Edge}

theorem ready_frame (htol : Tolerates d t) (w : Byte) (hl : ∀ e ∈ es, e.lcr.Plain)
    (hes : es.map Edge.sin = frame t w) (h : Ready d r words) :
    Ready d (run (Receiver.edge d) r es) (words ++ [clean w]) := by
  have hfast := htol.fast
  have hlen : es.length = 10 * t := by rw [← frame_length t w, ← hes, List.length_map]
  have hsin (n : ℕ) (hn : n < es.length) : es[n].sin = symbol w (n / t) := by
    have hlt : n < (es.map Edge.sin).length := by rwa [List.length_map]
    have hget : (es.map Edge.sin)[n] = es[n].sin := List.getElem_map ..
    rw [← hget]
    simp only [hes, frame_getElem]
  have hrun := run_indexed (Receiver.edge d)
    (fun n r => if n = 0 then Ready d r words else At d w (n - 1) r words) es ?_ h
  · rw [if_neg (by omega), hlen] at hrun
    exact at_end htol hrun
  · intro n hn r hr
    have hplain := hl es[n] (List.getElem_mem hn)
    cases n with
    | zero =>
      exact at_first hplain htol.four_le hr ((hsin 0 hn).trans (by rw [Nat.zero_div, symbol_start]))
    | succ m =>
      rw [if_neg (Nat.succ_ne_zero m)] at hr
      rw [if_neg (Nat.succ_ne_zero (m + 1))]
      exact at_next hplain htol hr (by omega) (hsin (m + 1) hn)

theorem idle_high {k : ℕ} (hl : ∀ e ∈ es, e.lcr.Plain) (hes : ∀ e ∈ es, e.sin = true)
    (hidle : Idle true r.rx) (hwords : Holds k r words) :
    Idle true (run (Receiver.edge d) r es).rx ∧
      Holds (k - es.length) (run (Receiver.edge d) r es) words := by
  induction es generalizing r k with
  | nil => exact ⟨hidle, hwords⟩
  | cons e es ih =>
    obtain ⟨hplain, hl⟩ := List.forall_mem_cons.mp hl
    obtain ⟨hsin, hes⟩ := List.forall_mem_cons.mp hes
    have hnext : Idle e.sin (r.edge d e).rx := idle_next hidle
    rw [hsin] at hnext
    have hih :=
      ih (r := r.edge d e) hl hes hnext (holds_next hplain (fun _ => hidle.csState) hwords)
    rwa [Nat.sub_sub, Nat.add_comm] at hih

theorem ready_high (hd : 4 ≤ d) (hl : ∀ e ∈ es, e.lcr.Plain) (hes : ∀ e ∈ es, e.sin = true)
    (h : Ready d r words) :
    Ready d (run (Receiver.edge d) r es) words ∧
      (4 ≤ es.length → (run (Receiver.edge d) r es).got = words) := by
  cases es with
  | nil => exact ⟨h, fun hlen => absurd hlen (by decide)⟩
  | cons e es =>
    obtain ⟨hplain, hl⟩ := List.forall_mem_cons.mp hl
    obtain ⟨hsin, hes⟩ := List.forall_mem_cons.mp hes
    obtain ⟨hidle, hwords⟩ := ready_next (i := e.input) hplain hd h
    rw [show e.input.sin = true from hsin] at hidle
    obtain ⟨hidle', hwords'⟩ := idle_high (d := d) (r := r.edge d e) hl hes hidle hwords
    refine ⟨.idle hidle' (hwords'.mono (Nat.sub_le _ _)), fun hlen => holds_got (hwords'.mono ?_)⟩
    rw [List.length_cons] at hlen
    omega

theorem high_of_map {n : ℕ} (hes : es.map Edge.sin = List.replicate n true) :
    ∀ e ∈ es, e.sin = true := by
  intro e he
  exact List.eq_of_mem_replicate (hes ▸ List.mem_map_of_mem he)

theorem ready_wave (htol : Tolerates d t) (fs : List (ℕ × Byte)) (tail : ℕ)
    (hl : ∀ e ∈ es, e.lcr.Plain) (hes : es.map Edge.sin = wave t fs tail) (h : Ready d r words) :
    Ready d (run (Receiver.edge d) r es) (words ++ fs.map fun f => clean f.2) ∧
      (4 ≤ tail → (run (Receiver.edge d) r es).got = words ++ fs.map fun f => clean f.2) := by
  induction fs generalizing es r words with
  | nil =>
    rw [wave, List.flatMap_nil, List.nil_append] at hes
    have hlen : es.length = tail := by
      rw [← List.length_map (f := Edge.sin), hes, List.length_replicate]
    have hhigh := ready_high htol.four_le hl (high_of_map hes) h
    rwa [List.map_nil, List.append_nil, ← hlen]
  | cons f fs ih =>
    rw [wave, List.flatMap_cons, List.append_assoc, List.append_assoc, ← wave] at hes
    obtain ⟨gap, rest, rfl, hgap, hrest⟩ := List.map_eq_append_iff.mp hes
    obtain ⟨first, rest, rfl, hfirst, hrest⟩ := List.map_eq_append_iff.mp hrest
    obtain ⟨hlgap, hl⟩ := List.forall_mem_append.mp hl
    obtain ⟨hlfirst, hl⟩ := List.forall_mem_append.mp hl
    have hready := (ready_high htol.four_le hlgap (high_of_map hgap) h).1
    have hframe := ready_frame htol f.2 hlfirst hfirst hready
    have hwave := ih hl hrest hframe
    rwa [run_append, run_append, List.map_cons, ← List.singleton_append, ← List.append_assoc]

theorem ready_reset {e : Edge} (hsin : e.sin = true) : Ready d (Receiver.reset.edge d e) [] :=
  .idle (idle_reset hsin) ⟨0, Nat.zero_le 3, [], pipe_reset, rfl⟩

/-- At most the last word is still on its way. -/
theorem ready_got (h : Ready d r words) : ∃ late :
    List FifoWord, late.length ≤ 1 ∧ r.got ++ late = words := by
  cases h with
  | idle _ hwords =>
    obtain ⟨n, _, rest, hpipe, hgot⟩ := hwords
    exact ⟨rest, by cases hpipe <;> simp, hgot⟩
  | @stop w before hframe hbefore hwords =>
    exact ⟨[clean w], Nat.le_refl 1, by rw [hwords, (receiving_got (by decide) hframe hbefore).1]⟩

theorem received (htol : Tolerates d t) (fs : List (ℕ × Byte)) (tail : ℕ)
    (hl : ∀ e ∈ es, e.lcr.Plain) (hes : es.map Edge.sin = true :: wave t fs tail) :
    ∃ late : List FifoWord, late.length ≤ 1 ∧ (4 ≤ tail → late = []) ∧
      (run (Receiver.edge d) Receiver.reset es).got ++ late = fs.map fun f => clean f.2 := by
  obtain ⟨e, es, rfl, hsin, hrest⟩ := List.map_eq_cons_iff.mp hes
  obtain ⟨hready, hall⟩ :=
    ready_wave (d := d) htol fs tail (List.forall_mem_cons.mp hl).2 hrest (ready_reset hsin)
  rw [List.nil_append] at hready hall
  obtain ⟨late, hlen, hgot⟩ := ready_got hready
  rw [run_cons]
  refine ⟨late, hlen, fun htail => ?_, hgot⟩
  exact List.append_right_eq_self.mp (hgot.trans (hall htail).symm)

end runs

/-- Frames of any length within the tolerance, with the line high for any time between them and from
reset up to the first, come out as their bytes with no error bit, whatever happens at the FIFO and
on the bus meanwhile. -/
theorem frames_received {d t : ℕ} (htol : Tolerates d t) (fs : List (ℕ × Byte))
    (tail : ℕ) (es : List Edge) (hl : ∀ e ∈ es, e.lcr.Plain)
    (hes : es.map Edge.sin = true :: wave t fs tail) :
    ∃ late : List FifoWord, late.length ≤ 1 ∧ (4 ≤ tail → late = []) ∧
      (run (Receiver.edge d) Receiver.reset es).got ++ late = fs.map fun f => clean f.2 :=
  received htol fs tail hl hes

/-- Two slow frames, the second right after the first. -/
theorem frames_received_slow :
    let es := (true :: wave 916 [(0, 0x55), (0, 0xaa)] 4).map fun x =>
      Edge.mk (Lcr.ofReg UartTx.lm32UartLcr8bit) ⟨x, false, false, false⟩
    (run (Receiver.edge 868) Receiver.reset es).got = [clean 0x55, clean 0xaa] := by
  obtain ⟨late, -, hlate, hgot⟩ := frames_received (d := 868) (t := 916) (by decide)
    [(0, 0x55), (0, 0xaa)] 4 ((true :: wave 916 [(0, 0x55), (0, 0xaa)] 4).map fun x =>
      Edge.mk (Lcr.ofReg UartTx.lm32UartLcr8bit) ⟨x, false, false, false⟩)
    (List.forall_mem_map.mpr fun x _ => UartTx.lcr8bit_plain)
    (by rw [List.map_map]; exact List.map_id _)
  rw [hlate (Nat.le_refl 4), List.append_nil] at hgot
  exact hgot

end HashRatio.UartRecv
