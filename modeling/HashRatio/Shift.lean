import HashRatio.Lib.Bytes
import HashRatio.Lib.Run

/-!
# The port of the shift registers (shift.v, twi.v)

The SFT register: a byte goes out lowest bit first with eight pulses of SHCP, a pulse of
STCP stores what is shifted in, and the done bit comes 32 clocks after either.
-/

namespace HashRatio.Shift
open Bytes Run

/-! ### Registers and outputs -/

structure Regs where
  ack : Bool
  mrN : Bool
  oeN : Bool
  shcpCnt : BitVec 5
  data : Byte
  stcpCnt : BitVec 5
  doneR : Bool
  deriving DecidableEq, Repr

/-- `data` is not reset. -/
def Regs.reset (data : Byte) : Regs := ⟨false, true, true, 0, data, 0, false⟩

structure Cycle where
  stb : Bool
  we : Bool
  adr : BitVec 6
  dat : Word
  deriving DecidableEq, Repr

def sft : BitVec 6 := 0x14

def cmd (dat : Word) : BitVec 2 := dat.extractLsb' 0 2

def din (dat : Word) : Byte := dat.extractLsb' 8 8

def Regs.shcp (r : Regs) : Bool := r.shcpCnt.getLsbD 1

def Regs.stcp (r : Regs) : Bool := r.stcpCnt.getLsbD 1

def Regs.done (r : Regs) : Bool := r.stcpCnt == 31 || r.shcpCnt == 31

def Regs.regSft (r : Regs) : Word := 0#28 ++ BitVec.ofBool r.doneR ++ BitVec.ofBool r.oeN ++ 0#2

def count (starts : Bool) (n : BitVec 5) : BitVec 5 :=
  if starts then 1 else if n ≠ 0 then n + 1 else n

section wires
variable (r : Regs) (c : Cycle)

/-- `sft_wr_en`. -/
def vld : Bool := c.stb && c.we && c.adr == sft && !r.ack

def ds : Bool := if vld r c && cmd c.dat == 1 then (din c.dat).getLsbD 0 else r.data.getLsbD 0

def next : Regs where
  ack := c.stb && !r.ack
  mrN := !(vld r c && cmd c.dat == 0)
  oeN := if vld r c && cmd c.dat == 3 then c.dat.getLsbD 2 else r.oeN
  shcpCnt := count (vld r c && cmd c.dat == 1) r.shcpCnt
  data :=
    if vld r c && cmd c.dat == 1 then din c.dat
    else if r.shcpCnt.extractLsb' 0 2 == 3 then r.data >>> 1
    else r.data
  stcpCnt := count (vld r c && cmd c.dat == 2) r.stcpCnt
  doneR := if vld r c then false else if r.done then true else r.doneR

end wires

/-- The registers behind the port, the newest bit first: what is shifted in, and what is stored. -/
structure Line where
  regs : Regs
  shifted : List Bool
  stored : List Bool
  deriving DecidableEq, Repr

def step (l : Line) (c : Cycle) : Line where
  regs := next l.regs c
  shifted :=
    if !(next l.regs c).mrN then []
    else if !l.regs.shcp && (next l.regs c).shcp then ds l.regs c :: l.shifted
    else l.shifted
  stored := if !l.regs.stcp && (next l.regs c).stcp then l.shifted else l.stored

/-! ### The counters -/

/-- A counter `n` edges after its start. -/
def cnt (n : ℕ) : BitVec 5 := if n < 32 then BitVec.ofNat 5 n else 0

theorem cnt_late {n : ℕ} (h : 32 ≤ n) : cnt n = 0 := if_neg (Nat.not_lt.mpr h)

theorem count_cnt {n : ℕ} (h : 1 ≤ n) : count false (cnt n) = cnt (n + 1) := by
  by_cases hn : n < 32
  · have hall : ∀ k < 32, 1 ≤ k → count false (cnt k) = cnt (k + 1) := by decide
    exact hall n hn h
  · rw [cnt_late (by omega), cnt_late (by omega)]
    rfl

theorem cnt_pulse (n : ℕ) : (cnt n).getLsbD 1 = decide (n < 32 ∧ 2 ≤ n % 4) := by
  by_cases hn : n < 32
  · have hall : ∀ k < 32, (cnt k).getLsbD 1 = decide (k < 32 ∧ 2 ≤ k % 4) := by decide
    exact hall n hn
  · rw [cnt_late (by omega), decide_eq_false (fun h => hn h.1)]
    rfl

theorem cnt_last (n : ℕ) : (cnt n == 31) = decide (n = 31) := by
  by_cases hn : n < 32
  · have hall : ∀ k < 32, (cnt k == 31) = decide (k = 31) := by decide
    exact hall n hn
  · rw [cnt_late (by omega), decide_eq_false (by omega)]
    rfl

theorem cnt_fourth (n : ℕ) : ((cnt n).extractLsb' 0 2 == 3) = decide (n < 32 ∧ n % 4 = 3) := by
  by_cases hn : n < 32
  · have hall : ∀ k < 32, ((cnt k).extractLsb' 0 2 == 3) = decide (k < 32 ∧ k % 4 = 3) := by decide
    exact hall n hn
  · rw [cnt_late (by omega), decide_eq_false (fun h => hn h.1)]
    rfl

/-! ### Clocks without a command -/

/-- The first `k` bits of a byte, as they lie in the registers. -/
def sent (b : Byte) (k : ℕ) : List Bool := ((List.range k).map fun i => b.getLsbD i).reverse

theorem sent_succ (b : Byte) (k : ℕ) : sent b (k + 1) = b.getLsbD k :: sent b k := by
  simp [sent, List.range_succ]

/-- What is behind the port. -/
structure Board where
  shifted : List Bool
  stored : List Bool
  oeN : Bool
  deriving DecidableEq, Repr

def Line.board (l : Line) : Board := ⟨l.shifted, l.stored, l.regs.oeN⟩

/-- What a write of the register does in the end. -/
def Board.put (b : Board) (dat : Word) : Board :=
  if cmd dat = 0 then { b with shifted := [] }
  else if cmd dat = 1 then { b with shifted := sent (din dat) 8 ++ b.shifted }
  else if cmd dat = 2 then { b with stored := b.shifted }
  else { b with oeN := dat.getLsbD 2 }

structure Still (l : Line) : Prop where
  shcpCnt : l.regs.shcpCnt = 0
  stcpCnt : l.regs.stcpCnt = 0

/-- `n` edges into the byte `w`. -/
structure Shifting (w : Byte) (old : Board) (n : ℕ) (l : Line) : Prop where
  shcpCnt : l.regs.shcpCnt = cnt n
  stcpCnt : l.regs.stcpCnt = 0
  data : l.regs.data = w >>> min 8 (n / 4)
  doneR : l.regs.doneR = decide (32 ≤ n)
  board : l.board = { old with shifted := sent w (min 8 ((n + 2) / 4)) ++ old.shifted }

/-- `n` edges into storing. -/
structure Storing (old : Board) (n : ℕ) (l : Line) : Prop where
  shcpCnt : l.regs.shcpCnt = 0
  stcpCnt : l.regs.stcpCnt = cnt n
  doneR : l.regs.doneR = decide (32 ≤ n)
  board : l.board = if 2 ≤ n then { old with stored := old.shifted } else old

section quiet
variable {l : Line} {c : Cycle} {w : Byte} {old : Board} {n : ℕ}

theorem quiet_next (h : vld l.regs c = false) : next l.regs c =
    { ack := c.stb && !l.regs.ack
      mrN := true
      oeN := l.regs.oeN
      shcpCnt := count false l.regs.shcpCnt
      data := if l.regs.shcpCnt.extractLsb' 0 2 == 3 then l.regs.data >>> 1 else l.regs.data
      stcpCnt := count false l.regs.stcpCnt
      doneR := if l.regs.done then true else l.regs.doneR } := by
  simp only [next, h, Bool.false_and, Bool.not_false, Bool.false_eq_true, if_false]

theorem quiet_board (h : vld l.regs c = false) : (step l c).board =
    { shifted :=
        if !l.regs.shcp && (count false l.regs.shcpCnt).getLsbD 1 then
          l.regs.data.getLsbD 0 :: l.shifted else l.shifted
      stored := if !l.regs.stcp && (count false l.regs.stcpCnt).getLsbD 1 then
        l.shifted else l.stored
      oeN := l.regs.oeN } := by
  simp only [Line.board, step, quiet_next h, ds, h, Regs.shcp, Regs.stcp, Bool.false_and,
    Bool.not_true, Bool.false_eq_true, if_false]
  rfl

theorem Still.quiet (hs : Still l) (h : vld l.regs c = false) :
    Still (step l c) ∧ (step l c).board = l.board ∧ (step l c).regs.doneR = l.regs.doneR := by
  have hregs : (step l c).regs = _ := quiet_next h
  refine ⟨⟨?_, ?_⟩, ?_, ?_⟩
  · rw [hregs, hs.shcpCnt]
    rfl
  · rw [hregs, hs.stcpCnt]
    rfl
  · rw [quiet_board h, Regs.shcp, Regs.stcp, hs.shcpCnt, hs.stcpCnt]
    rfl
  · simp only [hregs, Regs.done, hs.shcpCnt, hs.stcpCnt]
    rfl

theorem Shifting.quiet (hs : Shifting w old n l) (hn : 1 ≤ n) (h : vld l.regs c = false) :
    Shifting w old (n + 1) (step l c) := by
  have hregs : (step l c).regs = _ := quiet_next h
  have hcount : count false l.regs.shcpCnt = cnt (n + 1) := by rw [hs.shcpCnt, count_cnt hn]
  refine ⟨?_, ?_, ?_, ?_, ?_⟩
  · rw [hregs]
    exact hcount
  · rw [hregs, hs.stcpCnt]
    rfl
  · simp only [hregs, hs.shcpCnt, cnt_fourth, hs.data, decide_eq_true_eq]
    split
    · rw [← BitVec.shiftRight_add]
      congr 1
      omega
    · congr 1
      omega
  · simp only [hregs, Regs.done, hs.shcpCnt, hs.stcpCnt, cnt_last, hs.doneR]
    by_cases hlast : n = 31
    · simp [hlast]
    · have hiff : 32 ≤ n ↔ 32 ≤ n + 1 := by omega
      simp [hlast, hiff]
  · have hb := hs.board
    simp only [Line.board] at hb
    obtain ⟨hshifted, hstored, hoe⟩ := Board.mk.inj hb
    rw [quiet_board h, hcount, Regs.shcp, Regs.stcp, hs.shcpCnt, hs.stcpCnt, cnt_pulse, cnt_pulse,
      hshifted, hstored, hoe, hs.data]
    by_cases hrise : n < 31 ∧ n % 4 = 1
    · -- A bit goes in.
      have hbit : (w >>> min 8 (n / 4)).getLsbD 0 = w.getLsbD (n / 4) := by
        rw [BitVec.getLsbD_ushiftRight, Nat.min_eq_right (by omega), Nat.add_zero]
      have hk : min 8 ((n + 1 + 2) / 4) = min 8 ((n + 2) / 4) + 1 := by omega
      have hkn : min 8 ((n + 2) / 4) = n / 4 := by omega
      rw [hk, sent_succ, hbit, hkn, decide_eq_false (by omega), decide_eq_true (by omega)]
      rfl
    · have hk : min 8 ((n + 1 + 2) / 4) = min 8 ((n + 2) / 4) := by omega
      have hlow :
          (!decide (n < 32 ∧ 2 ≤ n % 4) && decide (n + 1 < 32 ∧ 2 ≤ (n + 1) % 4)) = false := by
        rw [Bool.and_eq_false_iff, Bool.not_eq_false', decide_eq_true_iff, decide_eq_false_iff_not]
        omega
      rw [hlow, hk]
      rfl

theorem Storing.quiet (hs : Storing old n l) (hn : 1 ≤ n) (h : vld l.regs c = false) :
    Storing old (n + 1) (step l c) := by
  have hregs : (step l c).regs = _ := quiet_next h
  have hcount : count false l.regs.stcpCnt = cnt (n + 1) := by rw [hs.stcpCnt, count_cnt hn]
  refine ⟨?_, ?_, ?_, ?_⟩
  · rw [hregs, hs.shcpCnt]
    rfl
  · rw [hregs]
    exact hcount
  · simp only [hregs, Regs.done, hs.shcpCnt, hs.stcpCnt, cnt_last, hs.doneR]
    by_cases hlast : n = 31
    · simp [hlast]
    · have hiff : 32 ≤ n ↔ 32 ≤ n + 1 := by omega
      simp [hlast, hiff]
  · have hb := hs.board
    have hidle : (count false (0 : BitVec 5)).getLsbD 1 = false := rfl
    simp only [quiet_board h, Regs.shcp, Regs.stcp, hs.shcpCnt, hs.stcpCnt, cnt_pulse,
      hidle, Bool.and_false, Bool.false_eq_true, if_false]
    have hlate : 2 ≤ n + 1 := by omega
    rw [if_pos hlate]
    by_cases hfirst : n = 1
    · rw [if_neg (by omega)] at hb
      obtain ⟨hshifted, -, hoe⟩ := Board.mk.inj hb
      rw [hfirst, hshifted, hoe]
      rfl
    · -- A later pulse stores the same bits again.
      rw [if_pos (by omega)] at hb
      obtain ⟨hshifted, hstored, hoe⟩ := Board.mk.inj hb
      rw [hshifted, hstored, hoe, ite_self]

end quiet

end HashRatio.Shift
