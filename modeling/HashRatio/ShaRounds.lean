import HashRatio.ShaCore
import HashRatio.Lib.Run

/-!
# The core against the standard

While words come in, the working variables are one round behind the words taken: the
last word and its constant wait in `wt` and `kt`. From the sixteenth word on the
fifteen registers hold the schedule words that the rounds ahead need.
-/

namespace HashRatio.ShaRounds
open Bytes Sha256 ShaCore Run

/-! ### Where the core is in a block -/

/-- The chaining value of the next block: in the cycle of `done` it is not yet in `hReg`. -/
def base (c : Core) : Chain := if c.done then c.abc else c.hReg

structure Receiving (c : Core) (h : Chain) (ws : List Word) : Prop where
  few : ws.length < 16
  round : c.round = ws.length
  base : base c = h
  worked : c.abc = after h (fun t => ws.getD t 0) (ws.length - 1)
  kept : ∀ t < ws.length, t < 15 → c.w t = ws.getD t 0
  waits : ∀ n, ws.length = n + 1 → c.wt = ws.getD n 0 ∧ c.kt = constant n ∧ c.done = false

/-- All words of a block are in, and `k` rounds have gone by since. -/
structure Working (c : Core) (h : Chain) (ws : List Word) (k : ℕ) : Prop where
  full : ws.length = 16
  bound : k ≤ 48
  round : c.round = 16 + k
  hReg : c.hReg = h
  done : c.done = false
  worked : c.abc = after h (word ws) (15 + k)
  wt : c.wt = word ws (15 + k)
  kt : c.kt = constant (15 + k)
  slid : ∀ t < 15, c.w t = word ws (k + t)

def Pins.plain (i : Pins) : Prop := i.rst = false ∧ i.init = false

theorem nextDone_false {c : Core} (i : Pins) (h : c.round ≠ 64) : nextDone c i = false := by
  rw [nextDone]
  cases i.rst
  · simp only [Bool.false_eq_true, if_false, beq_eq_false_iff_ne, ne_eq, h, not_false_eq_true]
  · rfl

theorem nextHReg_base {c : Core} {i : Pins} (hi : i.init = false) : nextHReg c i = base c := by
  rw [nextHReg, hi]
  rfl

section steps
variable {c : Core} {h : Chain} {ws : List Word} {k : ℕ} {i : Pins}

theorem receiving_nil (hround : c.round = 0) (hbase : base c = h) (habc : c.abc = h) :
    Receiving c h [] :=
  ⟨by
    decide, hround, hbase, habc, fun t ht => absurd ht (Nat.not_lt_zero t), fun n hn =>
      absurd hn.symm (Nat.succ_ne_zero n)⟩

theorem nextRound_wait (hp : Pins.plain i) (hv : i.vld = false) (hlow : c.round ≤ 15) :
    nextRound c i = c := by
  simp only [nextRound, hp.1, hp.2, hv, Bool.false_eq_true, if_false, if_pos hlow]

theorem reset_round (hr : i.rst = true) : (next c i).round = 0 := by
  rw [next, nextRound, if_pos hr]

theorem idle_step (hround : c.round = 0) (hp : Pins.plain i) (hv : i.vld = false) :
    (next c i).round = 0 ∧ (next c i).done = false := by
  refine ⟨?_, nextDone_false i (by omega)⟩
  rw [next, nextRound_wait hp hv (by omega)]
  exact hround

theorem init_step (hround : c.round = 0) (hr : i.rst = false) (hi : i.init = true) :
    Receiving (next c i) i.shaH [] ∧ (next c i).done = false := by
  have hnext : nextRound c i = {c with abc := i.shaH} := by
    simp only [nextRound, hr, hi, Bool.false_eq_true, if_false, if_true]
  have hdone : nextDone c i = false := nextDone_false i (by omega)
  refine ⟨receiving_nil ?_ ?_ ?_, hdone⟩
  · rw [next, hnext]
    exact hround
  · rw [base, next, hdone, nextHReg, hi]
    rfl
  · rw [next, hnext]

theorem receiving_wait (hc : Receiving c h ws) (hp : Pins.plain i) (hv : i.vld = false) :
    Receiving (next c i) h ws ∧ (next c i).done = false := by
  have hround := hc.round
  have hlow : c.round ≤ 15 := by
    have := hc.few
    omega
  have hnext : nextRound c i = c := nextRound_wait hp hv hlow
  have hkt : nextKt c i = c.kt := by
    simp only [nextKt, hp.1, hv, Bool.false_eq_true, if_false, if_pos hlow]
  have hdone : nextDone c i = false := nextDone_false i (by omega)
  refine ⟨⟨hc.few, ?_, ?_, ?_, ?_, ?_⟩, hdone⟩
  · rw [next, hnext]
    exact hround
  · rw [base, next, hdone, nextHReg_base hp.2]
    exact hc.base
  · rw [next, hnext]
    exact hc.worked
  · rw [next, hnext]
    exact hc.kept
  · intro n hn
    obtain ⟨hwt, hkt', -⟩ := hc.waits n hn
    rw [next, hnext, hkt, hdone]
    exact ⟨hwt, hkt', rfl⟩

theorem worked_word (hc : Receiving c h ws) :
    (if c.round = 0 then c.abc else shifted c) = after h (fun t => ws.getD t 0) ws.length := by
  rw [hc.round, hc.worked]
  cases hlen : ws.length with
  | zero => rfl
  | succ n =>
    obtain ⟨hwt, hkt, -⟩ := hc.waits n hlen
    rw [if_neg (Nat.succ_ne_zero n), shifted_eq, hc.worked, hlen, hwt, hkt]
    rfl

theorem getD_push (ws : List Word) (d : Word) {t : ℕ} (ht : t < ws.length) :
    (ws ++ [d]).getD t 0 = ws.getD t 0 :=
  List.getD_append _ _ _ _ ht

theorem getD_pushed (ws : List Word) (d : Word) : (ws ++ [d]).getD ws.length 0 = d := by
  rw [List.getD_append_right _ _ _ _ (Nat.le_refl _), Nat.sub_self]
  rfl

theorem word_next (hc : Receiving c h ws) (hp : Pins.plain i) (hv : i.vld = true) :
    next c i = {takeWord c i.din with hReg := h, kt := constant ws.length, done := false} := by
  obtain ⟨hr, hi⟩ := hp
  have hround := hc.round
  have hlow : c.round ≤ 15 := by
    have := hc.few
    omega
  have hnext : nextRound c i = takeWord c i.din := by
    simp only [nextRound, hr, hi, hv, Bool.false_eq_true, if_false, if_pos hlow, if_true]
  have hkt : nextKt c i = constant ws.length := by
    rw [nextKt, hr, hv, if_neg Bool.false_ne_true, if_pos hlow, if_pos rfl, hround, kTable_eq]
    rfl
  rw [next, hnext, hkt, nextDone_false i (by omega), nextHReg_base hi, hc.base]

theorem word_kept (hc : Receiving c h ws) (d : Word) {t : ℕ}
    (ht : t < ws.length + 1) (hlow : t < 15) :
    (takeWord c d).w t = (ws ++ [d]).getD t 0 := by
  have hround := hc.round
  by_cases hlast : t = ws.length
  · rw [hlast, getD_pushed]
    simp only [takeWord]
    rw [if_pos (by omega)]
  · have hlt : t < ws.length := by omega
    rw [getD_push ws d hlt, ← hc.kept t hlt hlow]
    simp only [takeWord]
    rw [if_neg (by omega)]

theorem word_worked (hc : Receiving c h ws) (d : Word) :
    (takeWord c d).abc = after h (fun t => (ws ++ [d]).getD t 0) ws.length := by
  have hcongr : after h (fun t => ws.getD t 0) ws.length =
      after h (fun t => (ws ++ [d]).getD t 0) ws.length :=
    after_congr fun t ht => (getD_push ws d ht).symm
  rw [← hcongr, ← worked_word hc]
  rfl

theorem receiving_word (hc : Receiving c h ws) (hp : Pins.plain i) (hv : i.vld = true)
    (hfew : ws.length < 15) :
    Receiving (next c i) h (ws ++ [i.din]) ∧ (next c i).done = false := by
  have hlen : (ws ++ [i.din]).length = ws.length + 1 := by
    rw [List.length_append, List.length_singleton]
  have hround := hc.round
  rw [word_next hc hp hv]
  refine ⟨⟨by omega, ?_, rfl, ?_, ?_, ?_⟩, rfl⟩
  · rw [hlen, ← hround]
    rfl
  · rw [hlen, Nat.add_sub_cancel]
    exact word_worked hc i.din
  · intro t ht hlow
    exact word_kept hc i.din (by omega) hlow
  · intro n hn
    have hn' : n = ws.length := by omega
    rw [hn', getD_pushed]
    exact ⟨rfl, rfl, rfl⟩

theorem receiving_last (hc : Receiving c h ws) (hp : Pins.plain i) (hv : i.vld = true)
    (hlast : ws.length = 15) :
    Working (next c i) h (ws ++ [i.din]) 0 := by
  have hlen : (ws ++ [i.din]).length = 16 := by
    rw [List.length_append, List.length_singleton, hlast]
  have hround := hc.round
  rw [word_next hc hp hv]
  refine ⟨hlen, by omega, ?_, rfl, rfl, ?_, ?_, ?_, ?_⟩
  · show c.round + 1 = 16 + 0
    omega
  · have hcongr : after h (fun t => (ws ++ [i.din]).getD t 0) 15 =
        after h (word (ws ++ [i.din])) 15 :=
      after_congr fun t ht => (word_lt hlen (by omega)).symm
    rw [Nat.add_zero, ← hcongr, ← hlast]
    exact word_worked hc i.din
  · rw [word_lt hlen (by omega), Nat.add_zero, ← hlast, getD_pushed]
    rfl
  · rw [hlast]
  · intro t ht
    rw [Nat.zero_add, word_lt hlen (by omega)]
    exact word_kept hc i.din (by omega) ht

theorem shifted_working (hc : Working c h ws k) : shifted c = after h (word ws) (16 + k) := by
  rw [shifted_eq, hc.worked, hc.kt, hc.wt, show 16 + k = 15 + k + 1 from by omega]
  rfl

/-- Rounds 16 to 63 take no notice of `vld`. -/
theorem working_step (hc : Working c h ws k) (hp : Pins.plain i) (hk : k < 48) :
    Working (next c i) h ws (k + 1) := by
  obtain ⟨hr, hi⟩ := hp
  have hround := hc.round
  have hnext : nextRound c i = slide c := by
    simp only [nextRound, hr, hi, Bool.false_eq_true, if_false]
    rw [if_neg (by omega), if_pos (by omega)]
  have hkt : nextKt c i = constant (16 + k) := by
    rw [nextKt, hr, if_neg Bool.false_ne_true, if_neg (by omega), if_pos (by omega),
      hround, kTable_eq]
    rfl
  have hh : nextHReg c i = h := by
    rw [nextHReg_base hi, base, hc.done]
    exact hc.hReg
  have heq : next c i = {slide c with hReg := h, kt := constant (16 + k), done := false} := by
    rw [next, hnext, hkt, hh, nextDone_false i (by omega)]
  rw [heq]
  refine ⟨hc.full, by omega, ?_, rfl, rfl, ?_, ?_, ?_, ?_⟩
  · show c.round + 1 = 16 + (k + 1)
    omega
  · rw [show 15 + (k + 1) = 16 + k from by omega]
    exact shifted_working hc
  · show nextWt c = word ws (15 + (k + 1))
    rw [nextWt_eq, hc.slid 14 (by omega), hc.slid 9 (by omega), hc.slid 1 (by omega),
      hc.slid 0 (by omega), show 15 + (k + 1) = 16 + k from by
        omega, word_step hc.full hk, Nat.add_comm k 14, Nat.add_comm k 9,
      Nat.add_comm k 1, Nat.add_zero]
  · show constant (16 + k) = constant (15 + (k + 1))
    rw [show 15 + (k + 1) = 16 + k from by omega]
  · intro t ht
    show (if t = 14 then c.wt else c.w (t + 1)) = word ws (k + 1 + t)
    by_cases h14 : t = 14
    · rw [if_pos h14, hc.wt, h14, show 15 + k = k + 1 + 14 from by omega]
    · rw [if_neg h14, hc.slid (t + 1) (by omega), show k + (t + 1) = k + 1 + t from by omega]

theorem add_comm (x y : Chain) : x.add y = y.add x := by
  simp only [Chain.add, BitVec.add_comm x.a, BitVec.add_comm x.b, BitVec.add_comm x.c,
    BitVec.add_comm x.d, BitVec.add_comm x.e, BitVec.add_comm x.f, BitVec.add_comm x.g,
      BitVec.add_comm x.h]

/-- Round 64 adds the chaining value, and `done` rises with the sum. -/
theorem working_end (hc : Working c h ws 48) (hp : Pins.plain i) :
    Receiving (next c i) (compress h ws) [] ∧ (next c i).done = true ∧
      (next c i).abc = compress h ws := by
  obtain ⟨hr, hi⟩ := hp
  have hround : c.round = 64 := hc.round
  have hnext : nextRound c i = feedForward c := by
    simp only [nextRound, hr, hi, hround, Bool.false_eq_true, if_false, Nat.reduceLeDiff, if_true]
  have hdone : nextDone c i = true := by
    rw [nextDone, hr, hround]
    rfl
  have habc : (feedForward c).abc = compress h ws := by
    rw [compress_after hc.full, add_comm h, ← hc.hReg, hc.hReg, ← shifted_working hc, ← hc.hReg]
    rfl
  refine ⟨receiving_nil ?_ ?_ ?_, hdone, ?_⟩
  · rw [next, hnext]
    rfl
  · rw [base, next, hdone, hnext]
    exact habc
  · rw [next, hnext]
    exact habc
  · rw [next, hnext]
    exact habc

end steps

/-! ### Blocks over time -/

/-- A cycle without `vld`; the other pins are as they come. -/
def quiet (i : Pins) : Pins := {i with rst := false, init := false, vld := false}

def strobe (i : Pins) : Pins := {i with rst := false, init := false, vld := true}

/-- A word and the idle cycles before it. -/
structure Feed where
  gap : List Pins
  pins : Pins

def Feed.cycles (f : Feed) : List Pins := f.gap.map quiet ++ [strobe f.pins]

/-- Sixteen words, and the cycles up to the next block: `done` is high in the forty-ninth. -/
structure Block where
  feeds : List Feed
  wait : List Pins
  full : feeds.length = 16
  waited : 49 ≤ wait.length

def words (fs : List Feed) : List Word := fs.map fun f => f.pins.din
def Block.words (b : Block) : List Word := ShaRounds.words b.feeds
def Block.cycles (b : Block) : List Pins := b.feeds.flatMap Feed.cycles ++ b.wait.map quiet

/-- `hash` in a cycle of `done`. -/
def pulse (c : Core) : List Chain := if c.done then [c.abc] else []

theorem pulse_low {c : Core} (h : c.done = false) : pulse c = [] := by
  rw [pulse, h]
  rfl

section runs
variable {c : Core} {h : Chain} {ws : List Word} {k : ℕ}

theorem gap_run (hc : Receiving c h ws) (gap : List Pins) :
    Yields next pulse c (gap.map quiet) [] (fun c => Receiving c h ws) := by
  induction gap generalizing c with
  | nil => exact Yields.nil hc
  | cons i gap ih =>
    obtain ⟨hnext, hdone⟩ := receiving_wait hc (i := quiet i) ⟨rfl, rfl⟩ rfl
    exact Yields.silent (pulse_low hdone) (ih hnext)

theorem feeds_run (hc : Receiving c h ws) (fs : List Feed) (hfew : ws.length + fs.length < 16) :
    Yields next pulse c (fs.flatMap Feed.cycles) [] (fun c => Receiving c h (ws ++ words fs)) := by
  induction fs generalizing c ws with
  | nil => exact Yields.nil (by rwa [words, List.map_nil, List.append_nil])
  | cons f fs ih =>
    rw [List.length_cons] at hfew
    have hword (c' : Core) (hc' : Receiving c' h ws) :
        Yields next pulse c' [strobe f.pins] [] (fun c => Receiving c h (ws ++ [f.pins.din])) := by
      obtain ⟨hnext, hdone⟩ := receiving_word hc' (i := strobe f.pins) ⟨rfl, rfl⟩ rfl (by omega)
      exact Yields.silent (pulse_low hdone) (Yields.nil hnext)
    rw [List.flatMap_cons, Feed.cycles]
    refine ((gap_run hc f.gap).append hword).append (p := []) fun c' hc' => ?_
    have hrest := ih hc' (by rw [List.length_append, List.length_singleton]; omega)
    rwa [List.append_assoc] at hrest

theorem wait_run (hc : Working c h ws k) (wait : List Pins) (hlong : 49 ≤ k + wait.length) :
    Yields next pulse c (wait.map quiet) [compress h ws]
      (fun c => Receiving c (compress h ws) []) := by
  have hbound := hc.bound
  induction wait generalizing c k with
  | nil =>
    rw [List.length_nil] at hlong
    omega
  | cons i wait ih =>
    rw [List.length_cons] at hlong
    by_cases hk : k < 48
    · have hnext := working_step hc (i := quiet i) ⟨rfl, rfl⟩ hk
      exact Yields.silent (pulse_low hnext.done) (ih hnext (by omega) hnext.bound)
    · have hk' : k = 48 := by omega
      subst hk'
      obtain ⟨hnext, hdone, hhash⟩ := working_end hc (i := quiet i) ⟨rfl, rfl⟩
      have hpulse : pulse (next c (quiet i)) = [compress h ws] := by
        rw [pulse, hdone, hhash]
        rfl
      rw [← List.append_nil [compress h ws], ← hpulse]
      exact (gap_run hnext wait).cons

theorem block_run (hc : Receiving c h []) (b : Block) :
    Yields next pulse c b.cycles [compress h b.words]
      (fun c => Receiving c (compress h b.words) []) := by
  have hfull := b.full
  obtain ⟨fs, f, hfs⟩ : ∃ fs f, b.feeds = fs ++ [f] :=
    ⟨b.feeds.dropLast, b.feeds.getLast (List.ne_nil_of_length_pos (by omega)),
      (List.dropLast_append_getLast _).symm⟩
  have hfifteen : fs.length = 15 := by
    rw [hfs, List.length_append, List.length_singleton] at hfull
    omega
  have hwords : b.words = words fs ++ [f.pins.din] := by
    rw [Block.words, hfs, words, List.map_append]; rfl
  have hlast (c' : Core) (hc' : Receiving c' h (words fs)) :
      Yields next pulse c' [strobe f.pins] [] (fun c => Working c h b.words 0) := by
    have hnext :=
      receiving_last hc' (i := strobe f.pins) ⟨rfl, rfl⟩ rfl
        (by rw [words, List.length_map, hfifteen])
    rw [hwords]
    exact Yields.silent (pulse_low hnext.done) (Yields.nil hnext)
  rw [Block.cycles, hfs, List.flatMap_append, List.flatMap_singleton, Feed.cycles,
    List.append_assoc, List.append_assoc]
  refine (feeds_run hc fs (by rw [List.length_nil]; omega)).append (p :=
    [compress h b.words]) fun c1 hc1 => ?_
  refine (gap_run hc1 f.gap).append (p := [compress h b.words]) fun c2 hc2 => ?_
  refine (hlast c2 hc2).append (p := [compress h b.words]) fun c3 hc3 => ?_
  exact wait_run hc3 b.wait (by have := b.waited; omega)

theorem blocks_run (hc : Receiving c h []) (bs : List Block) :
    Yields next pulse c (bs.flatMap Block.cycles)
    ((List.range bs.length).map fun i => ((bs.take (i + 1)).map Block.words).foldl compress h)
    (fun c => Receiving c ((bs.map Block.words).foldl compress h) []) := by
  induction bs generalizing c h with
  | nil => exact Yields.nil hc
  | cons b bs ih =>
    have hhashes :
        ((List.range (b :: bs).length).map fun i =>
          (((b :: bs).take (i + 1)).map Block.words).foldl compress h) =
        [compress h b.words] ++
          (List.range bs.length).map fun i =>
          ((bs.take (i + 1)).map Block.words).foldl compress (compress h b.words) := by
      rw [List.length_cons, List.range_succ_eq_map, List.map_cons, List.map_map]
      simp only [Function.comp_def, Nat.succ_eq_add_one, List.take_succ_cons,
        List.map_cons, List.foldl_cons, List.take_zero, List.map_nil, List.foldl_nil,
          List.singleton_append]
    rw [hhashes, List.flatMap_cons, List.map_cons, List.foldl_cons]
    exact (block_run hc b).append fun c' hc' => ih hc'

end runs

/-- **The core computes the block function: with the value loaded by `init`, one `done` for every
block, and at each of them the chaining value of the blocks so far.** `init` comes in round 0, as it
is after a reset and after every block; the run may end inside a block. -/
theorem core_refines {c : Core} (hround : c.round = 0) {start : Pins} (hr : start.rst = false)
    (hi : start.init = true) (bs : List Block) (gap : List Pins) (rest : List Feed)
    (hrest : rest.length < 16) :
    output next pulse c
      (start :: (bs.flatMap Block.cycles ++ gap.map quiet ++ rest.flatMap Feed.cycles)) =
      (List.range bs.length).map fun i =>
      ((bs.take (i + 1)).map Block.words).foldl compress start.shaH := by
  obtain ⟨hstart, hdone⟩ := init_step hround hr hi
  have hblocks := (blocks_run hstart bs).append fun c' hc' => gap_run hc' gap
  have hall := hblocks.append (p := []) (b := rest.flatMap Feed.cycles) fun c' hc' =>
    feeds_run hc' rest (by rw [List.length_nil]; omega)
  rw [List.append_nil, List.append_nil] at hall
  exact (Yields.silent (pulse_low hdone) hall).1

def abcBlock : Block where
  feeds := (blocks (pad [0x61, 0x62, 0x63])).flatten.map fun w =>
    ⟨[⟨false, initial, false, false, 0⟩], ⟨false, initial, false, true, w⟩⟩
  wait := List.replicate 60 ⟨false, initial, false, false, 0⟩
  full := by decide
  waited := by decide

def resetCore : Core :=
  next ⟨7, true, initial, fun _ => 1, 1, 1, initial, 1, 1, 1, 1, 1, 1, true⟩
    ⟨true, initial, false, false, 0⟩

theorem core_refines_abc :
    (output next pulse resetCore (⟨false, initial, true, false, 0⟩ ::
        ([abcBlock].flatMap Block.cycles ++ List.map quiet [] ++ List.flatMap Feed.cycles []))).map
          Chain.words =
      [[0xba7816bf, 0x8f01cfea, 0x414140de, 0x5dae2223, 0xb00361a3, 0x96177a9c, 0xb410ff61,
        0xf20015ad]] := by
  have hround : resetCore.round = 0 := reset_round rfl
  rw [core_refines hround rfl rfl [abcBlock] [] [] (by decide)]
  decide +kernel

end HashRatio.ShaRounds
