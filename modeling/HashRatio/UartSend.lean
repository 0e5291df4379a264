import HashRatio.Lib.Fifo
import HashRatio.Lib.Serial
import HashRatio.UartTx

/-!
# Frames out of the transmitter

With eight data bits, no parity and one stop bit every byte taken from the FIFO goes out
as one frame of `divisor + 1` clocks a symbol, with the line high in between, whatever is
written and when.
-/

namespace HashRatio.UartSend
open Bytes UartTx Clocked Serial Run

/-! ### Between frames -/

/-- `int`, `delay`: the two registers of the read pulse. -/
structure Idle (int delay : Bool) (s : Tx) : Prop where
  txState : s.txState = .start
  counter : s.counter = 0
  txOutput : s.txOutput = true
  thrRdInt : s.thrRdInt = int
  thrRdDelay : s.thrRdDelay = delay

section idle
variable {lcr : Lcr} {d : ℕ} {s : Tx} {int delay : Bool} {i : In}

theorem idle_reset : Idle false false Tx.reset := ⟨rfl, rfl, rfl, rfl, rfl⟩

theorem idle_output (h : Idle int delay s) : (next lcr d s i).txOutput = true := by
  simp only [next, h.txState, h.txOutput]

theorem idle_next (h : Idle int false s) : Idle (int || !i.fifoEmptyThr) int (next lcr d s i) := by
  constructor
  · simp [next, h.txState, h.thrRdDelay]
  · simp [next, h.txState, h.counter]
  · exact idle_output h
  · cases hint : int <;> simp [next, h.txState, h.thrRdInt, hint]
  · simp [next, h.thrRdInt]

end idle

/-! ### Inside a frame -/

def stateAt (b : ℕ) : State := if b = 0 then .start1 else if b ≤ 8 then .shift else .stop1bit

/-- `j` clocks into symbol `b` of the frame of `w`. -/
structure Sending (d : ℕ) (w : Byte) (b j : ℕ) (s : Tx) : Prop where
  txState : s.txState = stateAt b
  counter : s.counter = if j = 0 then 0 else d + 1 - j
  tsr : 1 ≤ b → s.tsr = w >>> (b - 1)
  txCnt : 1 ≤ b → s.txCnt = (b - 1) % 8
  thrRdInt : s.thrRdInt = decide (b = 0 ∨ b = 1 ∧ j = 0)
  thrRdDelay : s.thrRdDelay = decide (b = 0 ∨ b = 1 ∧ j ≤ 1)

section frame
variable {lcr : Lcr} {d : ℕ} {w : Byte} {b j : ℕ} {s : Tx} {i : In}

theorem sending_start (h : Idle true true s) : Sending d w 0 0 (next lcr d s i) := by
  constructor
  · simp [next, h.txState, h.thrRdDelay, stateAt]
  · simp [next, h.txState, h.counter]
  · intro hb
    exact absurd hb (by decide)
  · intro hb
    exact absurd hb (by decide)
  · simp [next, h.txState, h.thrRdInt]
  · simp [next, h.thrRdInt]

theorem sending_no_read (h : Sending d w b j s) : s.thrRd = false := by
  rw [Tx.thrRd, h.thrRdInt, h.thrRdDelay]
  grind

theorem count_tick (hj : j < d) : count d (if j = 0 then 0 else d + 1 - j) = d + 1 - (j + 1) := by
  unfold count
  grind

theorem sending_output (h : Sending d w b j s) (hb : b ≤ 9) :
    (next lcr d s i).txOutput = symbol w b := by
  obtain rfl | ⟨hlow, hhigh⟩ | rfl : b = 0 ∨ (1 ≤ b ∧ b ≤ 8) ∨ b = 9 := by omega
  · simp [next, h.txState, stateAt]
  · have htsr := h.tsr hlow
    simp only [next, h.txState, stateAt, if_neg (Nat.ne_of_gt hlow), if_pos hhigh, symbol, htsr,
      BitVec.getLsbD_ushiftRight, Nat.add_zero]
  · simp [next, h.txState, stateAt, symbol]

theorem sending_tick (h : Sending d w b j s) (hj : j < d) (hb : b ≤ 9) :
    Sending d w b (j + 1) (next lcr d s i) := by
  have hlast : s.counter ≠ 1 := by
    rw [h.counter]
    grind
  constructor
  · obtain rfl | ⟨hlow, hhigh⟩ | rfl : b = 0 ∨ (1 ≤ b ∧ b ≤ 8) ∨ b = 9 := by omega
    · simp [next, h.txState, stateAt, hlast]
    · simp [next, h.txState, stateAt, hlast, hhigh, Nat.ne_of_gt hlow]
    · simp [next, h.txState, stateAt, hlast]
  · rw [if_neg (Nat.succ_ne_zero j), ← count_tick hj, ← h.counter]
    obtain rfl | ⟨hlow, hhigh⟩ | rfl : b = 0 ∨ (1 ≤ b ∧ b ≤ 8) ∨ b = 9 := by omega
    · simp [next, h.txState, stateAt]
    · simp [next, h.txState, stateAt, hhigh, Nat.ne_of_gt hlow]
    · simp [next, h.txState, stateAt]
  · intro hpos
    rw [← h.tsr hpos]
    cases hst : s.txState <;> simp [next, hst, hlast]
  · intro hpos
    rw [← h.txCnt hpos]
    cases hst : s.txState <;> simp [next, hst, hlast]
  · simp only [next, h.txState, h.thrRdInt, stateAt]
    grind
  · simp only [next, h.thrRdInt]
    grind

theorem counter_last (h : Sending d w b d s) (hd : 0 < d) : s.counter = 1 := by
  rw [h.counter, if_neg (Nat.ne_of_gt hd), Nat.add_sub_cancel_left]

theorem count_out (hd : 0 < d) (h : Sending d w b d s) : count d s.counter = 0 := by
  rw [counter_last h hd, count, if_neg Nat.one_ne_zero, if_pos rfl]

/-- The byte is taken over from the FIFO at the end of the start bit. -/
theorem sending_shift (hd : 0 < d) (h : Sending d w 0 d s) (hthr : i.thr = w) :
    Sending d w 1 0 (next lcr d s i) := by
  have hlast := counter_last h hd
  have hst : s.txState = .start1 := h.txState
  constructor
  · simp [next, hst, hlast, stateAt]
  · simp [next, hst, count_out hd h]
  · intro _
    simp [next, hst, hlast, hthr]
  · intro _
    simp [next, hst, hlast]
  · simp [next, hst, h.thrRdInt]
  · simp [next, h.thrRdInt]

theorem sending_wrap (hl : lcr.Plain) (hd : 0 < d) (h : Sending d w (b + 1) d s) (hb : b < 8) :
    Sending d w (b + 2) 0 (next lcr d s i) := by
  have hlast := counter_last h hd
  have hst : s.txState = .shift := by
    rw [h.txState, stateAt, if_neg (Nat.succ_ne_zero b), if_pos (by omega)]
  have hcnt : s.txCnt = b := by
    rw [h.txCnt (Nat.succ_pos b), Nat.add_sub_cancel, Nat.mod_eq_of_lt hb]
  have htsr : s.tsr = w >>> b := h.tsr (Nat.succ_pos b)
  constructor
  · simp only [next, hst, hlast, hcnt, hl.databits, hl.parityEn, lastBit, stateAt]
    grind
  · simp [next, hst, count_out hd h]
  · intro _
    simp [next, hst, hlast, htsr, BitVec.shiftRight_add]
  · intro _
    simp [next, hst, hlast, hcnt]
  · simp [next, hst]
  · simp only [next, h.thrRdInt]
    grind

theorem sending_last (hl : lcr.Plain) (hd : 0 < d) (h : Sending d w 9 d s) :
    Idle false false (next lcr d s i) := by
  have hlast := counter_last h hd
  have hst : s.txState = .stop1bit := h.txState
  constructor
  · simp [next, hst, hlast, hl.stopbits]
  · simp [next, hst, count_out hd h]
  · simp [next, hst]
  · simp [next, hst, h.thrRdInt]
  · simp [next, h.thrRdInt]

end frame

/-! ### The transmitter behind its FIFO -/

/-- txmitt.v with the FIFO and the write strobe of intface.v, and what was accepted and put on the
line. -/
structure Sender (F : Type) where
  fifo : F
  thrWr : Bool
  tx : Tx
  accepted : List Byte
  line : List Bool

variable {F : Type} {f : Fifo F Byte}

def Sender.reset (f : Fifo F Byte) (lcr : Lcr) : Sender F :=
  ⟨f.init, false, Tx.reset, [], [Tx.reset.sout lcr]⟩

/-- `w`: the byte of the first cycle of a bus write to THR. -/
def Sender.thrWrStrobe (f : Fifo F Byte) (s : Sender F) (w : Option Byte) : Option Byte :=
  if f.full s.fifo then none else w

/-- The bytes the FIFO takes in at an edge. -/
def Sender.intake (f : Fifo F Byte) (s : Sender F) (w : Option Byte) : List Byte :=
  f.takes s.fifo (s.thrWrStrobe f w)

def Sender.input (f : Fifo F Byte) (s : Sender F) : In :=
  ⟨f.empty s.fifo, f.full s.fifo, f.dout s.fifo, s.thrWr⟩

def Sender.next (f : Fifo F Byte) (lcr : Lcr) (d : ℕ) (s : Sender F)
    (w : Option Byte) : Sender F where
  fifo := f.step s.fifo (s.thrWrStrobe f w) s.tx.thrRd
  thrWr := (s.thrWrStrobe f w).isSome
  tx := UartTx.next lcr d s.tx (s.input f)
  accepted := s.accepted ++ s.intake f w
  line := s.line ++ [(UartTx.next lcr d s.tx (s.input f)).sout lcr]

/-- Edges from a byte's turn to the end of its frame. -/
def cost (v : View f) (d : ℕ) : ℕ := v.lag + 3 + 10 * (d + 1)

/-- Whole frames and a part of one on the line, the bytes still to go out, and the edges they take
at most. -/
structure Books (v : View f) (d n : ℕ) (s : Sender F) (fs : List (ℕ × Byte)) (tail : ℕ)
    (part : List Bool)
    (left : List Byte) (p : ℕ) : Prop where
  line : s.line = true :: (wave (d + 1) fs tail ++ part)
  accepted : s.accepted = fs.map Prod.snd ++ left
  due : left.length * cost v d ≤ n + p

inductive Phase (v : View f) (d n : ℕ) (s : Sender F) : Prop
  | waiting {fs : List (ℕ × Byte)} {tail : ℕ} (htx : Idle false false s.tx)
      (hb : Books v d n s fs tail [] (v.held s.fifo) (v.lag - v.late s.fifo))
  | asking {fs : List (ℕ × Byte)} {tail : ℕ} (htx : Idle true false s.tx)
      (hshown : f.empty s.fifo = false) (hb : Books v d n s fs tail [] (v.held s.fifo) (v.lag + 1))
  | taken {fs : List (ℕ × Byte)} {tail : ℕ} (htx : Idle true true s.tx)
      (hb : Books v d n s fs tail [] (f.dout s.fifo :: v.held s.fifo) (v.lag + 2))
  | sending {fs : List (ℕ × Byte)} {tail b j : ℕ} {w : Byte} (htx : Sending d w b j s.tx)
      (hsym : b ≤ 9) (hj : j ≤ d) (hthr : b = 0 → f.dout s.fifo = w)
      (hb : Books v d n s fs tail ((frame (d + 1) w).take (b * (d + 1) + j)) (w :: v.held s.fifo)
        (v.lag + 3 + (b * (d + 1) + j)))

section steps
variable {lcr : Lcr} {d n p p' : ℕ} {v : View f} {s : Sender F} {fs : List (ℕ × Byte)} {tail : ℕ}
  {part : List Bool} {left : List Byte} {w : Option Byte}

theorem next_fifo {rd : Bool} (hread : s.tx.thrRd = rd) :
    (s.next f lcr d w).fifo = f.step s.fifo (s.thrWrStrobe f w) rd := by
  subst hread
  rfl

theorem due_next {m l t c : ℕ} (h : l * c ≤ n + p) (hm : m = l + t) (hp : l = 0 ∨ p < p' ∧ p < c) :
    m * c ≤ n - 1 + t * c + p' := by
  subst hm
  rw [Nat.add_mul]
  obtain rfl | ⟨hlt, hcost⟩ := hp
  · omega
  · cases l with
    | zero => omega
    | succ l =>
      rw [Nat.succ_mul] at h ⊢
      omega

theorem sout_plain (hl : lcr.Plain) (t : Tx) : t.sout lcr = t.txOutput := by
  rw [Tx.sout, hl.txBreak, if_neg Bool.false_ne_true]

/-- An edge at which the line stays high. -/
theorem books_high (hl : lcr.Plain) (hb : Books v d n s fs tail [] left p)
    (hout : (s.next f lcr d w).tx.txOutput = true) {left' : List Byte}
    (hleft : left' = left ++ s.intake f w) (hp : left = [] ∨ p < p' ∧ p < cost v d) :
    Books v d (n - 1 + (s.intake f w).length * cost v d) (s.next f lcr d w) fs
      (tail + 1) [] left' p' := by
  constructor
  · change s.line ++ [(s.next f lcr d w).tx.sout lcr] = _
    rw [sout_plain hl, hout, hb.line, List.cons_append, List.append_nil, List.append_nil, wave_idle]
  · change s.accepted ++ s.intake f w = _
    rw [hb.accepted, hleft, List.append_assoc]
  · refine due_next hb.due ?_ (hp.imp_left fun h => by rw [h, List.length_nil])
    rw [hleft, List.length_append]

theorem phase_waiting (hl : lcr.Plain) (htx : Idle false false s.tx)
    (hb : Books v d n s fs tail [] (v.held s.fifo) (v.lag - v.late s.fifo)) :
    Phase v d (n - 1 + (s.intake f w).length * cost v d) (s.next f lcr d w) := by
  have hread : s.tx.thrRd = false := by rw [Tx.thrRd, htx.thrRdInt, Bool.false_and]
  have hfifo : (s.next f lcr d w).fifo = _ := next_fifo hread
  have hheld : v.held (s.next f lcr d w).fifo = v.held s.fifo ++ s.intake f w := by
    rw [hfifo, v.unread, Sender.intake]
  have hout : (s.next f lcr d w).tx.txOutput = true := idle_output htx
  have hnext : Idle (false || !f.empty s.fifo) false (s.next f lcr d w).tx :=
    idle_next (i := s.input f) htx
  have hlate : v.lag - v.late s.fifo < cost v d := by
    unfold cost
    omega
  cases hshown : f.empty s.fifo with
  | true =>
    rw [hshown] at hnext
    refine .waiting hnext (books_high hl hb hout hheld ?_)
    by_cases hheld : v.held s.fifo = []
    · exact .inl hheld
    · have hlt := v.late_lt s.fifo (s.thrWrStrobe f w) hheld hshown
      have hle := v.late_le s.fifo
      rw [← hfifo] at hlt
      exact .inr ⟨by omega, hlate⟩
  | false =>
    rw [hshown] at hnext
    refine .asking hnext ?_ (books_high hl hb hout hheld (.inr ⟨by omega, hlate⟩))
    rw [hfifo]
    exact v.stays _ _ hshown

theorem phase_asking (hl : lcr.Plain) (htx : Idle true false s.tx) (hshown : f.empty s.fifo = false)
    (hb : Books v d n s fs tail [] (v.held s.fifo) (v.lag + 1)) :
    Phase v d (n - 1 + (s.intake f w).length * cost v d) (s.next f lcr d w) := by
  have hread : s.tx.thrRd = true := by
    rw [Tx.thrRd, htx.thrRdInt, htx.thrRdDelay, Bool.not_false, Bool.true_and]
  have hfifo : (s.next f lcr d w).fifo = _ := next_fifo hread
  have hnext : Idle true true (s.next f lcr d w).tx := idle_next (i := s.input f) htx
  refine .taken hnext
    (books_high hl hb (idle_output htx) ?_ (.inr ⟨by omega, by unfold cost; omega⟩))
  rw [hfifo, Sender.intake, v.taken s.fifo _ hshown]

theorem phase_taken (hl : lcr.Plain) (htx : Idle true true s.tx)
    (hb : Books v d n s fs tail [] (f.dout s.fifo :: v.held s.fifo) (v.lag + 2)) :
    Phase v d (n - 1 + (s.intake f w).length * cost v d) (s.next f lcr d w) := by
  have hread : s.tx.thrRd = false := by
    rw [Tx.thrRd, htx.thrRdInt, htx.thrRdDelay, Bool.not_true, Bool.and_false]
  have hfifo : (s.next f lcr d w).fifo = _ := next_fifo hread
  have hnext : Sending d (f.dout s.fifo) 0 0 (s.next f lcr d w).tx := sending_start htx
  have hout : (s.next f lcr d w).tx.txOutput = true := idle_output htx
  have hbooks :
      Books v d (n - 1 + (s.intake f w).length * cost v d) (s.next f lcr d w) fs (tail + 1)
      ((frame (d + 1) (f.dout s.fifo)).take (0 * (d + 1) + 0))
      (f.dout s.fifo :: v.held (s.next f lcr d w).fifo)
      (v.lag + 3 + (0 * (d + 1) + 0)) := by
    rw [Nat.zero_mul, Nat.zero_add, List.take_zero, hfifo, v.unread]
    exact books_high hl hb hout rfl (.inr ⟨by omega, by unfold cost; omega⟩)
  refine .sending hnext (Nat.zero_le 9) (Nat.zero_le d) (fun _ => ?_) hbooks
  rw [hfifo, v.kept]

theorem clock_div {b j : ℕ} (hj : j ≤ d) : (b * (d + 1) + j) / (d + 1) = b := by
  rw [Nat.mul_comm, Nat.mul_add_div (Nat.succ_pos d),
    Nat.div_eq_of_lt (Nat.lt_succ_of_le hj), Nat.add_zero]

theorem clock_lt {b j : ℕ} (hb : b ≤ 9) (hj : j ≤ d) : b * (d + 1) + j < 10 * (d + 1) := by
  have hle := Nat.mul_le_mul_right (d + 1) hb
  omega

/-- An edge in a frame. -/
theorem books_symbol (hl : lcr.Plain) {c : Byte} {b j : ℕ} (htx : Sending d c b j s.tx)
    (hsym : b ≤ 9) (hj : j ≤ d)
    (hb : Books v d n s fs tail ((frame (d + 1) c).take (b * (d + 1) + j)) (c :: v.held s.fifo)
      (v.lag + 3 + (b * (d + 1) + j))) :
    Books v d (n - 1 + (s.intake f w).length * cost v d) (s.next f lcr d w) fs tail
      ((frame (d + 1) c).take (b * (d + 1) + j + 1)) (c :: v.held (s.next f lcr d w).fifo)
      (v.lag + 3 + (b * (d + 1) + j + 1)) := by
  have hlt := clock_lt hsym hj
  constructor
  · change s.line ++ [(s.next f lcr d w).tx.sout lcr] = _
    have hout : (s.next f lcr d w).tx.txOutput = symbol c b := sending_output htx hsym
    rw [sout_plain hl, hout, hb.line, frame_take_succ (d + 1) c hlt, clock_div hj, List.cons_append,
      List.append_assoc]
  · change s.accepted ++ s.intake f w = _
    rw [hb.accepted, next_fifo (sending_no_read htx), v.unread, List.append_assoc,
      List.cons_append, Sender.intake]
  · refine due_next hb.due ?_ (.inr ⟨by omega, by unfold cost; omega⟩)
    rw [next_fifo (sending_no_read htx), v.unread, List.length_cons, List.length_cons,
      List.length_append, Sender.intake]
    omega

theorem books_frame {c : Byte}
    (h : Books v d n s fs tail ((frame (d + 1) c).take (10 * (d + 1))) (c :: v.held s.fifo)
    (v.lag + 3 + 10 * (d + 1))) (p : ℕ) :
    Books v d n s (fs ++ [(tail, c)]) 0 [] (v.held s.fifo) p := by
  constructor
  · rw [h.line, ← frame_length (d + 1) c, List.take_length, wave_frame, List.append_nil]
  · rw [h.accepted, List.map_append, List.append_assoc]
    rfl
  · have hdue := h.due
    rw [List.length_cons, Nat.succ_mul, cost] at hdue
    rw [cost]
    omega

theorem phase_sending (hl : lcr.Plain) (hd : 0 < d) {c : Byte} {b j : ℕ}
    (htx : Sending d c b j s.tx) (hsym : b ≤ 9) (hj : j ≤ d) (hthr : b = 0 → f.dout s.fifo = c)
    (hb : Books v d n s fs tail ((frame (d + 1) c).take (b * (d + 1) + j)) (c :: v.held s.fifo)
      (v.lag + 3 + (b * (d + 1) + j))) :
    Phase v d (n - 1 + (s.intake f w).length * cost v d) (s.next f lcr d w) := by
  have hnext := books_symbol (w := w) hl htx hsym hj hb
  obtain hlt | rfl := Nat.lt_or_eq_of_le hj
  · refine .sending (b := b) (j := j + 1) (sending_tick htx hlt hsym) hsym hlt
      (fun hstart => ?_) hnext
    rw [next_fifo (sending_no_read htx), v.kept, hthr hstart]
  · have hsucc : b * (j + 1) + j + 1 = (b + 1) * (j + 1) + 0 := by
      rw [Nat.succ_mul]
      omega
    rw [hsucc] at hnext
    obtain rfl | ⟨hlow, hhigh⟩ | rfl : b = 0 ∨ (1 ≤ b ∧ b ≤ 8) ∨ b = 9 := by omega
    · exact .sending (sending_shift hd htx (hthr rfl)) (by decide) (Nat.zero_le _)
        (fun h => absurd h (by decide)) hnext
    · obtain ⟨b, rfl⟩ := Nat.exists_eq_add_of_le' hlow
      have hframe : Sending j c (b + 2) 0 (s.next f lcr j w).tx := sending_wrap hl hd htx (by omega)
      exact .sending hframe (by omega) (Nat.zero_le _)
        (fun h => absurd h (Nat.succ_ne_zero _)) hnext
    · exact .waiting (sending_last hl hd htx) (books_frame hnext _)

theorem phase_next (hl : lcr.Plain) (hd : 0 < d) (h : Phase v d n s) :
    Phase v d (n - 1 + (s.intake f w).length * cost v d) (s.next f lcr d w) := by
  cases h with
  | waiting htx hb => exact phase_waiting hl htx hb
  | asking htx hshown hb => exact phase_asking hl htx hshown hb
  | taken htx hb => exact phase_taken hl htx hb
  | sending htx hsym hj hthr hb => exact phase_sending hl hd htx hsym hj hthr hb

theorem phase_reset (hl : lcr.Plain) (v : View f) (d : ℕ) : Phase v d 0 (Sender.reset f lcr) := by
  have hbooks :
      Books v d 0 (Sender.reset f lcr) [] 0 [] (v.held f.init) (v.lag - v.late f.init) := by
    constructor
    · change [Tx.reset.sout lcr] = _
      rw [sout_plain hl]
      rfl
    · rw [v.init]
      rfl
    · rw [v.init, List.length_nil, Nat.zero_mul]
      exact Nat.zero_le _
  exact .waiting idle_reset hbooks

end steps

/-! ### Over whole runs -/

section runs
variable {lcr : Lcr} {d n : ℕ} {v : View f} {s : Sender F}

theorem phase_run (hl : lcr.Plain) (hd : 0 < d) (h : Phase v d n s) (ws : List (Option Byte)) :
    ∃ m, Phase v d m (run (Sender.next f lcr d) s ws) :=
  run_invariant_all (Sender.next f lcr d) (fun s => ∃ m, Phase v d m s)
    (fun _ _ h => h.imp' _ fun _ => phase_next hl hd)
    s ws ⟨n, h⟩

/-- No more than one byte is between the FIFO and the line. -/
theorem phase_line (h : Phase v d n s) :
    ∃ (fs : List (ℕ × Byte)) (tail : ℕ) (cur : Option Byte) (k : ℕ),
    k < 10 * (d + 1) ∧
    s.line =
      true :: (wave (d + 1) fs tail ++ cur.toList.flatMap fun w => (frame (d + 1) w).take k) ∧
    s.accepted = fs.map Prod.snd ++ cur.toList ++ v.held s.fifo := by
  cases h with
  | @waiting fs tail _ hb =>
    exact ⟨fs, tail, none, 0,
      by omega, hb.line, by rw [hb.accepted, Option.toList, List.append_nil]⟩
  | @asking fs tail _ _ hb =>
    exact ⟨fs, tail, none, 0,
      by omega, hb.line, by rw [hb.accepted, Option.toList, List.append_nil]⟩
  | @taken fs tail _ hb =>
    refine ⟨fs, tail, some (f.dout s.fifo), 0, by omega, hb.line, ?_⟩
    rw [hb.accepted, Option.toList, List.append_assoc, List.singleton_append]
  | @sending fs tail b j w _ hsym hj _ hb =>
    refine ⟨fs, tail, some w, b * (d + 1) + j, clock_lt hsym hj, ?_, ?_⟩
    · rw [hb.line, Option.toList, List.flatMap_singleton]
    · rw [hb.accepted, Option.toList, List.append_assoc, List.singleton_append]

theorem books_due {fs : List (ℕ × Byte)} {tail p m : ℕ} {part : List Bool} {left : List Byte}
    (hb : Books v d n s fs tail part left p) (hm : left.length * cost v d ≤ m) :
    Books v d m s fs tail part left p :=
  ⟨hb.line, hb.accepted, Nat.le_add_right_of_le hm⟩

theorem phase_due (h : Phase v d n s) : Phase v d (((v.held s.fifo).length + 1) * cost v d) s := by
  have hheld := Nat.mul_le_mul_right (cost v d) (Nat.le_succ (v.held s.fifo).length)
  cases h with
  | waiting htx hb => exact .waiting htx (books_due hb hheld)
  | asking htx hshown hb => exact .asking htx hshown (books_due hb hheld)
  | taken htx hb => exact .taken htx (books_due hb (Nat.le_refl _))
  | sending htx hsym hj hthr hb => exact .sending htx hsym hj hthr (books_due hb (Nat.le_refl _))

theorem phase_quiet (hl : lcr.Plain) (hd : 0 < d) (h : Phase v d n s) (k : ℕ) :
    Phase v d (n - k) (run (Sender.next f lcr d) s (List.replicate k none)) ∧
      (run (Sender.next f lcr d) s (List.replicate k none)).accepted = s.accepted := by
  have hstep (i : ℕ) (t : Sender F) (hp : Phase v d (n - i) t ∧ t.accepted = s.accepted) :
      Phase v d (n - (i + 1)) (t.next f lcr d none) ∧
        (t.next f lcr d none).accepted = s.accepted := by
    obtain ⟨ht, hacc⟩ := hp
    have hintake : t.intake f none = [] := by
      rw [Sender.intake, Sender.thrWrStrobe, ite_self, Fifo.takes, Option.toList, ite_self]
    have hnext := phase_next (w := none) hl hd ht
    rw [hintake, List.length_nil, Nat.zero_mul, Nat.add_zero, Nat.sub_sub] at hnext
    refine ⟨hnext, ?_⟩
    change t.accepted ++ t.intake f none = _
    rw [hintake, List.append_nil, hacc]
  have hrun := run_replicate hstep k (n := 0) ⟨h, rfl⟩
  rwa [Nat.zero_add] at hrun

theorem phase_drained (h : Phase v d 0 s) : v.held s.fifo = [] ∧
    ∃ fs tail, s.line = true :: wave (d + 1) fs tail ∧ fs.map Prod.snd = s.accepted := by
  have hnone {left : List Byte} {p : ℕ} (hdue : left.length * cost v d ≤ 0 + p)
      (hp : p < cost v d) : left = [] := by
    rw [Nat.zero_add] at hdue
    refine List.length_eq_zero_iff.mp (Nat.eq_zero_of_not_pos fun hpos => ?_)
    have hle := Nat.le_mul_of_pos_left (cost v d) hpos
    omega
  cases h with
  | @waiting fs tail _ hb =>
    have hleft := hnone hb.due (by unfold cost; omega)
    exact ⟨hleft, fs, tail,
      by rw [hb.line, List.append_nil], by rw [hb.accepted, hleft, List.append_nil]⟩
  | asking _ hshown hb => exact absurd (hnone hb.due (by unfold cost; omega)) (v.nonempty _ hshown)
  | taken _ hb => exact absurd (hnone hb.due (by unfold cost; omega)) (List.cons_ne_nil _ _)
  | sending _ hsym hj _ hb =>
    have hlt := clock_lt hsym hj
    exact absurd (hnone hb.due (by unfold cost; omega)) (List.cons_ne_nil _ _)

end runs

/-- Whatever is written and when, the line carries the accepted bytes frame by frame, and once
nothing is written any more all of them are out after a while. -/
theorem bytes_framed {lcr : Lcr} (hl : lcr.Plain) {d : ℕ} (hd : 0 < d) (v : View f)
    (ws : List (Option Byte)) :
    let s := run (Sender.next f lcr d) (Sender.reset f lcr) ws
    (∃ (fs : List (ℕ × Byte)) (tail : ℕ) (cur : Option Byte) (k : ℕ), k < 10 * (d + 1) ∧
      s.line =
        true :: (wave (d + 1) fs tail ++ cur.toList.flatMap fun w => (frame (d + 1) w).take k) ∧
      s.accepted = fs.map Prod.snd ++ cur.toList ++ v.held s.fifo) ∧
    ∀ n ≥ ((v.held s.fifo).length + 1) * cost v d, ∃ fs tail,
      (run (Sender.next f lcr d) s (List.replicate n none)).line = true :: wave (d + 1) fs tail ∧
      fs.map Prod.snd = s.accepted := by
  obtain ⟨m, hphase⟩ := phase_run hl hd (phase_reset hl v d) ws
  refine ⟨phase_line hphase, fun n hn => ?_⟩
  obtain ⟨hquiet, hacc⟩ := phase_quiet hl hd (phase_due hphase) n
  rw [Nat.sub_eq_zero_of_le hn] at hquiet
  rw [← hacc]
  exact (phase_drained hquiet).2

/-- Two bytes at once, one more a while later. -/
def threeWrites : List (Option Byte) :=
  [some 0x41, some 0x42] ++ List.replicate 20 none ++ [some 0x43]

theorem bytes_framed_three :
    let v : View (ofDepth 1022 (0 : Byte)) := ofDepth.view 1022 0
    let s := run (Sender.next (ofDepth 1022 0) (Lcr.ofReg lm32UartLcr8bit) 1)
      (Sender.reset (ofDepth 1022 0) (Lcr.ofReg lm32UartLcr8bit)) threeWrites
    s.accepted = [0x41, 0x42, 0x43] ∧ v.held s.fifo = [0x42, 0x43] ∧
      ∀ n ≥ 3 * cost v 1, ∃ fs tail,
        (run (Sender.next (ofDepth 1022 0) (Lcr.ofReg lm32UartLcr8bit) 1) s
          (List.replicate n none)).line = true :: wave 2 fs tail ∧
            fs.map Prod.snd = [0x41, 0x42, 0x43] := by
  obtain ⟨-, hquiet⟩ := bytes_framed lcr8bit_plain Nat.one_pos (ofDepth.view 1022 0) threeWrites
  have haccepted : (run (Sender.next (ofDepth 1022 0) (Lcr.ofReg lm32UartLcr8bit) 1)
      (Sender.reset (ofDepth 1022 0) (Lcr.ofReg lm32UartLcr8bit)) threeWrites).accepted =
        [0x41, 0x42, 0x43] := by
    decide +kernel
  have hheld :
      (ofDepth.view 1022 0).held (run (Sender.next (ofDepth 1022 0) (Lcr.ofReg lm32UartLcr8bit) 1)
      (Sender.reset (ofDepth 1022 0) (Lcr.ofReg lm32UartLcr8bit)) threeWrites).fifo =
        [0x42, 0x43] := by
    decide +kernel
  rw [haccepted, hheld] at hquiet
  exact ⟨haccepted, hheld, hquiet⟩

end HashRatio.UartSend
