import HashRatio.Shift

/-!
# The voltage shifter (shifter.c)

`set_voltage` on the SFT register, with any accesses to other registers in between: what
the chain of shift registers holds when it returns.
-/

namespace HashRatio.Shifter
open Bytes Shift Run

/-! ### set_voltage -/

/-- A write of the register; `wait`: with `shift_done` after it. -/
structure Op where
  dat : Word
  wait : Bool
  deriving DecidableEq, Repr

def poweroff : Word := 0x8f00

def shifteValue (value : List Word) (count : ℕ) : List Op :=
  (List.range count).map (fun i => ⟨value.getD i 0 ||| 1, true⟩) ++
    List.replicate count ⟨2, true⟩ ++ [⟨3, false⟩]

/-- `value_array` before and after each round, with what was written. -/
def powerRound (value : Word) (s : List Word × List Op) (i : ℕ) : List Word × List Op :=
  (s.1.set i value, s.2 ++ shifteValue (s.1.set i value) i)

def powerOn (value : Word) : List Op :=
  ((List.range 5).foldl (powerRound value) (List.replicate 5 poweroff, [])).2

def setVoltage (gVoltage value : Word) : List Op :=
  if gVoltage = value then []
  else ⟨0, false⟩ :: if value = poweroff then [⟨7, false⟩] else powerOn value

def calls : Word → List Word → List Op
  | _, [] => []
  | g, v :: vs => setVoltage g v ++ calls v vs

/-! ### Its accesses -/

/-- A cycle that is not for this register. -/
structure Other where
  cycle : Cycle
  away : cycle.stb = true → cycle.adr ≠ sft

def Other.cycles (o : Other) : List Cycle := if o.cycle.stb then [o.cycle, o.cycle] else [o.cycle]

def pause (l : Line) (g : List Other) : Line := run step l (g.flatMap Other.cycles)

def strobe (we : Bool) (dat : Word) : Cycle := ⟨true, we, sft, dat⟩

/-- What is still to be written, the first of it already if `polling`. -/
structure Sys where
  line : Line
  todo : List Op
  polling : Bool
  deriving DecidableEq, Repr

/-- The strobe is held for two clocks, and read data are taken in the second. -/
def poll (l : Line) (o : Op) (rest : List Op) : Sys :=
  let first := step l (strobe false 0)
  let line := step first (strobe false 0)
  if first.regs.regSft &&& 8 = 8 then ⟨line, rest, false⟩ else ⟨line, o :: rest, true⟩

def write (l : Line) (o : Op) (rest : List Op) : Sys :=
  let line := step (step l (strobe true o.dat)) (strobe true o.dat)
  if o.wait then ⟨line, o :: rest, true⟩ else ⟨line, rest, false⟩

/-- The next access, with the cycles before it. -/
def exec (x : Sys) (g : List Other) : Sys :=
  match x.todo with
  | [] => ⟨pause x.line g, [], false⟩
  | o :: rest => if x.polling then poll (pause x.line g) o rest else write (pause x.line g) o rest

/-! ### One access -/

section access
variable {l : Line} {o : Op} {rest : List Op} {b old fin : Board} {n : ℕ}

theorem away_quiet {c : Cycle} (h : c.stb = true → c.adr ≠ sft) (r : Regs) : vld r c = false := by
  cases hstb : c.stb with
  | false => rw [vld, hstb]; rfl
  | true => rw [vld, beq_false_of_ne (h hstb), Bool.and_false, Bool.false_and]

theorem next_ack (c : Cycle) : (step l c).regs.ack = (c.stb && !l.regs.ack) := rfl

/-- What quiet clocks keep stays over the cycles for others. -/
theorem pause_kept {P : ℕ → Line → Prop}
    (hP : ∀ n l c, vld l.regs c = false → P n l → P (n + 1) (step l c))
    (g : List Other) (hack : l.regs.ack = false) (h : P n l) :
    (pause l g).regs.ack = false ∧ ∃ m ≥ n, P m (pause l g) := by
  induction g generalizing l n with
  | nil => exact ⟨hack, n, Nat.le_refl n, h⟩
  | cons o g ih =>
    have hq (t : Line) : vld t.regs o.cycle = false := away_quiet o.away t.regs
    have hcons : pause l (o :: g) = pause (run step l o.cycles) g := by
      rw [pause, List.flatMap_cons, run_append]
      rfl
    rw [hcons]
    cases hstb : o.cycle.stb with
    | false =>
      have hcycles : run step l o.cycles = step l o.cycle := by rw [Other.cycles, hstb]; rfl
      rw [hcycles]
      obtain ⟨hack', m, hm, hp⟩ :=
        ih (l := step l o.cycle) (by rw [next_ack, hstb]; rfl) (hP n l o.cycle (hq l) h)
      exact ⟨hack', m, by omega, hp⟩
    | true =>
      have hcycles : run step l o.cycles = step (step l o.cycle) o.cycle := by
        rw [Other.cycles, hstb]; rfl
      rw [hcycles]
      obtain ⟨hack', m, hm, hp⟩ := ih (l := step (step l o.cycle) o.cycle)
        (by rw [next_ack, next_ack, hstb, hack]; rfl)
        (hP _ _ o.cycle (hq _) (hP n l o.cycle (hq l) h))
      exact ⟨hack', m, by omega, hp⟩

/-- `n` edges into a command that comes to `fin`. -/
def Waiting (fin : Board) (n : ℕ) (l : Line) : Prop :=
  1 ≤ n ∧ ((∃ w old, Shifting w old n l ∧ fin = { old with shifted := sent w 8 ++ old.shifted }) ∨
    ∃ old, Storing old n l ∧ fin = { old with stored := old.shifted })

theorem Waiting.quiet (h : Waiting fin n l) {c : Cycle} (hc : vld l.regs c = false) :
    Waiting fin (n + 1) (step l c) := by
  obtain ⟨hn, ⟨w, old, hs, hfin⟩ | ⟨old, hs, hfin⟩⟩ := h
  · exact ⟨Nat.le_succ_of_le hn, .inl ⟨w, old, hs.quiet hn hc, hfin⟩⟩
  · exact ⟨Nat.le_succ_of_le hn, .inr ⟨old, hs.quiet hn hc, hfin⟩⟩

theorem Waiting.doneR (h : Waiting fin n l) : l.regs.doneR = decide (32 ≤ n) := by
  obtain ⟨-, ⟨w, old, hs, -⟩ | ⟨old, hs, -⟩⟩ := h
  · exact hs.doneR
  · exact hs.doneR

theorem Waiting.still (h : Waiting fin n l) (hn : 32 ≤ n) : Still l ∧ l.board = fin := by
  obtain ⟨-, ⟨w, old, hs, rfl⟩ | ⟨old, hs, rfl⟩⟩ := h
  · refine ⟨⟨hs.shcpCnt.trans (cnt_late hn), hs.stcpCnt⟩, ?_⟩
    rw [hs.board, Nat.min_eq_left (by omega)]
  · refine ⟨⟨hs.shcpCnt, hs.stcpCnt.trans (cnt_late hn)⟩, ?_⟩
    rw [hs.board, if_pos (by omega)]

theorem strobe_vld (hack : l.regs.ack = false) (we : Bool) (dat : Word) :
    vld l.regs (strobe we dat) = we := by
  simp [vld, strobe, hack]

theorem strobe_dat (we : Bool) (dat : Word) : (strobe we dat).dat = dat := rfl

theorem ack_quiet (hack : l.regs.ack = true) (c : Cycle) : vld l.regs c = false := by
  simp [vld, hack]

theorem strobe_ack (hack : l.regs.ack = false) (we : Bool) (dat : Word) :
    (step l (strobe we dat)).regs.ack = true ∧
      (step (step l (strobe we dat)) (strobe we dat)).regs.ack = false := by
  simp [next_ack, strobe, hack]

theorem put_waits (hs : Still l) (hack : l.regs.ack = false) {dat : Word}
    (hcmd : cmd dat = 1 ∨ cmd dat = 2) :
    Waiting (l.board.put dat) 1 (step l (strobe true dat)) := by
  have hv := strobe_vld hack true dat
  refine ⟨Nat.le_refl 1, ?_⟩
  obtain hc | hc := hcmd
  · refine .inl ⟨din dat, l.board, ⟨?_, ?_, ?_, ?_, ?_⟩, by simp [Board.put, hc]⟩
    all_goals
      simp [step, next, strobe_dat, hv, hc, hs.shcpCnt, hs.stcpCnt, count, Line.board, Regs.shcp,
        Regs.stcp, cnt, sent]
  · refine .inr ⟨l.board, ⟨?_, ?_, ?_, ?_⟩, by simp [Board.put, hc]⟩
    all_goals simp [step, next, strobe_dat, hv, hc, hs.shcpCnt, hs.stcpCnt, count, Line.board,
      Regs.shcp, Regs.stcp, cnt]

theorem put_still (hs : Still l) (hack : l.regs.ack = false) {dat : Word}
    (hcmd : cmd dat = 0 ∨ cmd dat = 3) :
    Still (step l (strobe true dat)) ∧ (step l (strobe true dat)).board = l.board.put dat := by
  have hv := strobe_vld hack true dat
  obtain hc | hc := hcmd
  all_goals
    refine ⟨⟨?_, ?_⟩, ?_⟩
    all_goals
      simp [step, next, strobe_dat, hv, hc, hs.shcpCnt, hs.stcpCnt, count, Line.board, Regs.shcp,
        Regs.stcp, Board.put]

theorem put_doneR (hack : l.regs.ack = false) (dat : Word) :
    (step l (strobe true dat)).regs.doneR = false := by
  have hv := strobe_vld hack true dat
  simp [step, next, hv]

end access

/-! ### Runs -/

/-- `shift_done` follows what sets a counter, and nothing else. -/
def Op.Ok (o : Op) : Prop :=
  if o.wait then cmd o.dat = 1 ∨ cmd o.dat = 2 else cmd o.dat = 0 ∨ cmd o.dat = 3

/-- Accesses that are enough: `shift_done` reads the register sixteen times at most. -/
def budget (os : List Op) : ℕ := (os.map fun o => if o.wait then 17 else 1).sum

def polls (n : ℕ) : ℕ := 1 + (32 - n) / 2

def puts (b : Board) (os : List Op) : Board := os.foldl (fun b o => b.put o.dat) b

/-- `v` accesses are enough, and `fin` is behind the port then. -/
inductive Good (fin : Board) (v : ℕ) : Sys → Prop
  | ready {l os} (still : Still l) (ack : l.regs.ack = false) (ok : ∀ o ∈ os, o.Ok)
      (comes : puts l.board os = fin) (enough : budget os ≤ v) : Good fin v ⟨l, os, false⟩
  | polling {l o rest b n} (waiting : Waiting b n l) (ack : l.regs.ack = false)
      (ok : ∀ o ∈ rest, o.Ok) (comes : puts b rest = fin) (enough : polls n + budget rest ≤ v) :
      Good fin v ⟨l, o :: rest, true⟩

/-- `shift_done` would follow what sets no counter. -/
def Op.Bad (o : Op) : Prop := o.wait = true ∧ cmd o.dat = 3

inductive Blocked : Sys → Prop
  | ready {l pre bad post} (still : Still l) (ack : l.regs.ack = false) (ok : ∀ o ∈ pre, o.Ok)
      (slip : bad.Bad) :
      Blocked ⟨l, pre ++ bad :: post, false⟩
  | polling {l o pre bad post b n} (waiting : Waiting b n l) (ack : l.regs.ack = false)
      (ok : ∀ o ∈ pre, o.Ok) (slip : bad.Bad) : Blocked ⟨l, o :: (pre ++ bad :: post), true⟩
  | stuck {l o rest} (still : Still l) (ack : l.regs.ack = false) (done : l.regs.doneR = false) :
      Blocked ⟨l, o :: rest, true⟩

section run
variable {x : Sys} {fin b : Board} {v n : ℕ} {l : Line} {o : Op} {rest : List Op}

theorem regSft_done (r : Regs) : r.regSft &&& 8 = 8 ↔ r.doneR = true := by
  rw [Regs.regSft]
  generalize r.doneR = d
  generalize r.oeN = e
  cases d <;> cases e <;> decide

theorem write_cases (hs : Still l) (hack : l.regs.ack = false) (ho : o.Ok) (rest : List Op) :
    (o.wait = true ∧ ∃ l', write l o rest = ⟨l', o :: rest, true⟩ ∧
      Waiting (l.board.put o.dat) 2 l' ∧ l'.regs.ack = false) ∨
      (o.wait = false ∧ ∃ l', write l o rest = ⟨l', rest, false⟩ ∧ Still l' ∧
        l'.board = l.board.put o.dat ∧
        l'.regs.ack = false) := by
  obtain ⟨hacked, hdone⟩ := strobe_ack hack true o.dat
  have hquiet := ack_quiet hacked (strobe true o.dat)
  rw [write]
  rw [Op.Ok] at ho
  cases hw : o.wait with
  | true =>
    rw [hw, if_pos rfl] at ho
    exact .inl ⟨rfl, _, rfl, (put_waits hs hack ho).quiet hquiet, hdone⟩
  | false =>
    rw [hw, if_neg Bool.false_ne_true] at ho
    obtain ⟨hstill, hboard⟩ := put_still hs hack ho
    obtain ⟨hstill', hboard', -⟩ := hstill.quiet hquiet
    exact .inr ⟨rfl, _, rfl, hstill', hboard'.trans hboard, hdone⟩

/-- A read of `shift_done`: it sees the bit in its first clock. -/
theorem poll_cases (hw : Waiting b n l) (hack : l.regs.ack = false) (o : Op) (rest : List Op) :
    (32 ≤ n + 1 ∧ ∃ l', poll l o rest = ⟨l', rest, false⟩ ∧ Still l' ∧ l'.board = b ∧
      l'.regs.ack = false) ∨
      (n + 1 < 32 ∧ ∃ l', poll l o rest = ⟨l', o :: rest, true⟩ ∧ Waiting b (n + 2) l' ∧
        l'.regs.ack = false) := by
  obtain ⟨hacked, hdone⟩ := strobe_ack hack false 0
  have hfirst := hw.quiet (c := strobe false 0) (strobe_vld hack false 0)
  have hsecond := hfirst.quiet (ack_quiet hacked (strobe false 0))
  rw [poll]
  by_cases hn : 32 ≤ n + 1
  · rw [if_pos ((regSft_done _).mpr (by rw [hfirst.doneR, decide_eq_true hn]))]
    obtain ⟨hstill, hboard⟩ := hsecond.still (by omega)
    exact .inl ⟨hn, _, rfl, hstill, hboard, hdone⟩
  · have hnot : ¬(step l (strobe false 0)).regs.regSft &&& 8 = 8 := fun hd => by
      rw [regSft_done, hfirst.doneR, decide_eq_true_iff] at hd
      exact hn hd
    rw [if_neg hnot]
    exact .inr ⟨Nat.not_le.mp hn, _, rfl, hsecond, hdone⟩

theorem exec_write (l : Line) (o : Op) (rest : List Op) (g : List Other) :
    exec ⟨l, o :: rest, false⟩ g = write (pause l g) o rest := rfl

theorem exec_poll (l : Line) (o : Op) (rest : List Op) (g : List Other) :
    exec ⟨l, o :: rest, true⟩ g = poll (pause l g) o rest := rfl

theorem pause_still (hs : Still l) (hack : l.regs.ack = false) (g : List Other) :
    Still (pause l g) ∧ (pause l g).board = l.board ∧ (pause l g).regs.doneR = l.regs.doneR ∧
      (pause l g).regs.ack = false := by
  obtain ⟨hack', -, -, hs', hboard, hdone⟩ := pause_kept (n := 0)
    (P := fun _ t => Still t ∧ t.board = l.board ∧ t.regs.doneR = l.regs.doneR)
    (fun _ t c hc ⟨hs, hb, hd⟩ =>
      ⟨(hs.quiet hc).1, (hs.quiet hc).2.1.trans hb, (hs.quiet hc).2.2.trans hd⟩) g hack
    ⟨hs, rfl, rfl⟩
  exact ⟨hs', hboard, hdone, hack'⟩

theorem Good.exec (h : Good fin v x) (g : List Other) : Good fin (v - 1) (exec x g) := by
  cases h with
  | @ready l os hs hack hok hfin hv =>
    obtain ⟨hs', hboard, -, hack'⟩ := pause_still hs hack g
    rw [← hboard] at hfin
    cases os with
    | nil => exact .ready hs' hack' hok hfin (Nat.zero_le _)
    | cons o rest =>
      rw [List.forall_mem_cons] at hok
      rw [budget, List.map_cons, List.sum_cons] at hv
      obtain ⟨hw, l', heq, hwait, hdone⟩ | ⟨hw, l', heq, hstill, hput, hdone⟩ :=
        write_cases hs' hack' hok.1 rest
      · rw [hw, if_pos rfl] at hv
        rw [exec_write, heq]
        refine .polling hwait hdone hok.2 hfin ?_
        rw [polls, budget]
        omega
      · rw [hw, if_neg Bool.false_ne_true] at hv
        rw [exec_write, heq]
        refine .ready hstill hdone hok.2 (hput ▸ hfin) ?_
        rw [budget]
        omega
  | @polling l o rest b n hw hack hok hfin hv =>
    obtain ⟨hack', m, hm, hw'⟩ :=
      pause_kept (P := Waiting b) (fun _ _ _ hc h => h.quiet hc) g hack hw
    rw [polls] at hv
    obtain ⟨hn, l', heq, hstill, hboard, hdone⟩ | ⟨hn, l', heq, hwait, hdone⟩ :=
      poll_cases hw' hack' o rest
    · rw [exec_poll, heq]
      exact .ready hstill hdone hok (hboard ▸ hfin) (by omega)
    · rw [exec_poll, heq]
      refine .polling hwait hdone hok hfin ?_
      rw [polls]
      omega

theorem good_run (gs : List (List Other)) (h : Good fin v x) :
    Good fin (v - gs.length) (run Shifter.exec x gs) := by
  induction gs generalizing x v with
  | nil => exact h
  | cons g gs ih =>
    rw [run_cons, List.length_cons, Nat.add_comm, ← Nat.sub_sub]
    exact ih (h.exec g)

theorem budget_pos (o : Op) (os : List Op) : 0 < budget (o :: os) := by
  rw [budget, List.map_cons, List.sum_cons]
  split <;> omega

theorem Good.end (h : Good fin 0 x) : x.todo = [] ∧ x.line.board = fin := by
  cases h with
  | @ready l os _ _ _ hfin hv =>
    cases os with
    | nil => exact ⟨rfl, hfin⟩
    | cons o os => exact absurd hv (Nat.not_le.mpr (budget_pos o os))
  | polling _ _ _ _ hv =>
    rw [polls] at hv
    omega

theorem Blocked.exec (h : Blocked x) (g : List Other) : Blocked (exec x g) := by
  cases h with
  | @ready l pre bad post hs hack hok hbad =>
    obtain ⟨hs', -, -, hack'⟩ := pause_still hs hack g
    cases pre with
    | nil =>
      -- The counters stay at 0, and the write has cleared the done bit.
      obtain ⟨-, hdone⟩ := strobe_ack hack' true bad.dat
      obtain ⟨hstill, -, hclear⟩ :=
        (put_still hs' hack' (.inr hbad.2)).1.quiet (ack_quiet (strobe_ack hack' true bad.dat).1 _)
      rw [List.nil_append, exec_write, write, if_pos hbad.1]
      exact .stuck hstill hdone (hclear.trans (put_doneR hack' bad.dat))
    | cons o pre =>
      rw [List.forall_mem_cons] at hok
      rw [List.cons_append, exec_write]
      obtain ⟨-, l', heq, hwait, hdone⟩ | ⟨-, l', heq, hstill, -, hdone⟩ :=
        write_cases hs' hack' hok.1 (pre ++ bad :: post)
      · exact heq ▸ .polling hwait hdone hok.2 hbad
      · exact heq ▸ .ready hstill hdone hok.2 hbad
  | @polling l o pre bad post b n hw hack hok hbad =>
    obtain ⟨hack', m, -, hw'⟩ :=
      pause_kept (P := Waiting b) (fun _ _ _ hc h => h.quiet hc) g hack hw
    rw [exec_poll]
    obtain ⟨-, l', heq, hstill, -, hdone⟩ | ⟨-, l', heq, hwait, hdone⟩ :=
      poll_cases hw' hack' o (pre ++ bad :: post)
    · exact heq ▸ .ready hstill hdone hok hbad
    · exact heq ▸ .polling hwait hdone hok hbad
  | @stuck l o rest hs hack hdone =>
    obtain ⟨hs', -, hdone', hack'⟩ := pause_still hs hack g
    obtain ⟨hacked, hacked'⟩ := strobe_ack hack' false 0
    obtain ⟨hfirst, -, hclear⟩ := hs'.quiet (c := strobe false 0) (strobe_vld hack' false 0)
    obtain ⟨hsecond, -, hclear'⟩ := hfirst.quiet (ack_quiet hacked (strobe false 0))
    have hfalse := hclear.trans (hdone'.trans hdone)
    have hnot : ¬(step (pause l g) (strobe false 0)).regs.regSft &&& 8 = 8 := fun hd => by
      rw [regSft_done, hfalse] at hd
      exact Bool.false_ne_true hd
    rw [exec_poll, poll, if_neg hnot]
    exact .stuck hsecond hacked' (hclear'.trans hfalse)

theorem blocked_run (gs : List (List Other)) (h : Blocked x) :
    (run Shifter.exec x gs).todo ≠ [] := by
  induction gs generalizing x with
  | nil => cases h <;> simp [run]
  | cons g gs ih => exact ih (h.exec g)

end run

/-! ### What the calls come to -/

/-- Ten times the byte of the new voltage, or nothing. -/
def outcome : Word → Board → List Word → Board
  | _, b, [] => b
  | g, b, v :: vs =>
    let bits := (List.replicate 10 (sent (din v) 8)).flatten
    outcome v
      (if g = v then b else if v = poweroff then { b with shifted := [], oeN := true }
        else ⟨bits, bits, false⟩) vs

section calls
variable {v : Word}

theorem cmd_or (v : Word) : cmd (v ||| 1) = if v.getLsbD 1 then 3 else 1 := by
  apply BitVec.eq_of_getLsbD_eq
  intro i hi
  simp only [cmd, BitVec.getLsbD_extractLsb', BitVec.getLsbD_or]
  interval_cases i
  · cases v.getLsbD 1 <;> simp
  · cases v.getLsbD 1 <;> rfl

theorem cmd_shift (h : v.getLsbD 1 = false) : cmd (v ||| 1) = 1 := by
  rw [cmd_or, h]
  rfl

theorem din_or (v : Word) : din (v ||| 1) = din v := by
  apply BitVec.eq_of_getLsbD_eq
  intro i hi
  simp only [din, BitVec.getLsbD_extractLsb', BitVec.getLsbD_or]
  interval_cases i <;> simp

/-- One round of `set_voltage`: all the words are the same. -/
def round (v : Word) (k : ℕ) : List Op :=
  List.replicate k ⟨v ||| 1, true⟩ ++ List.replicate k ⟨2, true⟩ ++ [⟨3, false⟩]

theorem powerOn_eq (v : Word) : powerOn v = (List.range 5).flatMap (round v) := rfl

theorem round_ok (h : v.getLsbD 1 = false) (k : ℕ) : ∀ o ∈ round v k, o.Ok := by
  intro o ho
  simp only [round, List.mem_append, List.mem_replicate, List.mem_singleton] at ho
  obtain (⟨-, rfl⟩ | ⟨-, rfl⟩) | rfl := ho
  · exact .inl (cmd_shift h)
  · exact .inr rfl
  · exact .inr rfl

theorem puts_cons (b : Board) (o : Op) (os : List Op) : puts b (o :: os) = puts (b.put o.dat) os :=
  rfl

theorem puts_append (b : Board) (os os' : List Op) : puts b (os ++ os') = puts (puts b os) os' :=
  List.foldl_append

theorem shift_puts (h : v.getLsbD 1 = false) (k : ℕ) (b : Board) :
    puts b (List.replicate k ⟨v ||| 1, true⟩) =
    { b with shifted := (List.replicate k (sent (din v) 8)).flatten ++ b.shifted } := by
  have hput (b : Board) : b.put (v ||| 1) = { b with shifted := sent (din v) 8 ++ b.shifted } := by
    rw [Board.put, cmd_shift h, din_or]
    rfl
  induction k generalizing b with
  | zero => rfl
  | succ k ih =>
    -- The bits of the first byte lie below those of the others.
    rw [List.replicate_succ, puts_cons, ih, hput, List.replicate_succ', List.flatten_append,
      List.flatten_singleton, List.append_assoc]

theorem store_puts (k : ℕ) (b : Board) :
    puts b (List.replicate k ⟨2, true⟩) = if k = 0 then b else { b with stored := b.shifted } := by
  induction k generalizing b with
  | zero => rfl
  | succ k ih =>
    have hstore : b.put 2 = { b with stored := b.shifted } := rfl
    rw [List.replicate_succ, puts_cons, ih, hstore, ite_self, if_neg (Nat.succ_ne_zero k)]

theorem round_puts (h : v.getLsbD 1 = false) (k : ℕ) (b : Board) : puts b (round v k) =
    { shifted := (List.replicate k (sent (din v) 8)).flatten ++ b.shifted
      stored := if k = 0 then b.stored else (List.replicate k (sent (din v) 8)).flatten ++ b.shifted
      oeN := false } := by
  have henable (b : Board) : puts b [⟨3, false⟩] = { b with oeN := false } := rfl
  rw [round, puts_append, puts_append, shift_puts h, store_puts, henable]
  split <;> rfl

/-- One, two, three and four bytes, on top of each other. -/
theorem powerOn_puts (h : v.getLsbD 1 = false) (b : Board) (hb : b.shifted = []) :
    let bits := (List.replicate 10 (sent (din v) 8)).flatten
    puts b (powerOn v) = ⟨bits, bits, false⟩ := by
  have hrange : List.range 5 = [0, 1, 2, 3, 4] := rfl
  simp [powerOn_eq, hrange, puts_append, round_puts h, hb, List.replicate_succ]

theorem setVoltage_ok (g : Word) (h : v.getLsbD 1 = false) : ∀ o ∈ setVoltage g v, o.Ok := by
  rw [setVoltage]
  split
  · exact fun o ho => absurd ho List.not_mem_nil
  · rw [List.forall_mem_cons]
    refine ⟨.inl rfl, ?_⟩
    split
    · rw [List.forall_mem_singleton]
      exact .inr rfl
    · intro o ho
      rw [powerOn_eq, List.mem_flatMap] at ho
      obtain ⟨k, -, hk⟩ := ho
      exact round_ok h k o hk

theorem setVoltage_puts (g : Word) (b : Board) (h : v.getLsbD 1 = false) : puts b (setVoltage g v) =
    if g = v then b
    else if v = poweroff then { b with shifted := [], oeN := true }
    else
        ⟨(List.replicate 10 (sent (din v) 8)).flatten,
          (List.replicate 10 (sent (din v) 8)).flatten, false⟩ := by
  rw [setVoltage]
  split
  · rfl
  · split
    · rfl
    · rw [puts_cons]
      exact powerOn_puts h (b.put 0) rfl

theorem calls_ok (g : Word) (vs : List Word) (h : ∀ v ∈ vs, v.getLsbD 1 = false) :
    ∀ o ∈ calls g vs, o.Ok := by
  induction vs generalizing g with
  | nil => exact fun o ho => absurd ho List.not_mem_nil
  | cons v vs ih =>
    rw [calls, List.forall_mem_append]
    exact ⟨setVoltage_ok g (h v (List.mem_cons_self ..)), ih v fun w hw =>
      h w (List.mem_cons_of_mem _ hw)⟩

theorem calls_puts (g : Word) (b : Board) (vs : List Word) (h : ∀ v ∈ vs, v.getLsbD 1 = false) :
    puts b (calls g vs) = outcome g b vs := by
  induction vs generalizing g b with
  | nil => rfl
  | cons v vs ih =>
    have hv := setVoltage_puts g b (h v (List.mem_cons_self ..))
    have hsplit : puts b (calls g (v :: vs)) = puts (puts b (setVoltage g v)) (calls v vs) :=
      List.foldl_append
    rw [hsplit, hv, ih v _ fun w hw => h w (List.mem_cons_of_mem _ hw)]
    rfl

/-- The second round is the first that shifts, and it enables the outputs instead. -/
theorem setVoltage_bad {g : Word} (hg : g.getLsbD 1 = false) (h : v.getLsbD 1 = true) :
    ∃ pre bad post, setVoltage g v = pre ++ bad :: post ∧ (∀ o ∈ pre, o.Ok) ∧ bad.Bad := by
  have hne (w : Word) (hw : w.getLsbD 1 = false) : v ≠ w := fun heq => by
    rw [heq, hw] at h
    exact Bool.false_ne_true h
  refine ⟨[⟨0, false⟩, ⟨3, false⟩], ⟨v ||| 1, true⟩, (powerOn v).drop 2, ?_, ?_, rfl, ?_⟩
  · rw [setVoltage, if_neg (hne g hg).symm, if_neg (hne poweroff rfl)]
    rfl
  · rw [List.forall_mem_cons, List.forall_mem_singleton]
    exact ⟨.inl rfl, .inr rfl⟩
  · rw [cmd_or, h]
    rfl

theorem calls_bad {g : Word} (hg : g.getLsbD 1 = false) (vs : List Word)
    (h : ¬∀ v ∈ vs, v.getLsbD 1 = false) :
    ∃ pre bad post, calls g vs = pre ++ bad :: post ∧ (∀ o ∈ pre, o.Ok) ∧ bad.Bad := by
  induction vs generalizing g with
  | nil => exact absurd (fun v hv => absurd hv List.not_mem_nil) h
  | cons v vs ih =>
    rw [List.forall_mem_cons] at h
    cases hv : v.getLsbD 1 with
    | false =>
      obtain ⟨pre, bad, post, heq, hok, hbad⟩ := ih hv fun hvs => h ⟨hv, hvs⟩
      refine ⟨setVoltage g v ++ pre, bad, post, ?_, ?_, hbad⟩
      · rw [calls, heq, List.append_assoc]
      · exact List.forall_mem_append.mpr ⟨setVoltage_ok g hv, hok⟩
    | true =>
      obtain ⟨pre, bad, post, heq, hok, hbad⟩ := setVoltage_bad hg hv
      exact ⟨pre, bad, post ++ calls v vs,
        by rw [calls, heq, List.append_assoc, List.cons_append], hok, hbad⟩

end calls

def start (data : Byte) (vs : List Word) : Sys := ⟨⟨.reset data, [], []⟩, calls poweroff vs, false⟩

theorem run_good (data : Byte) {vs : List Word} (hbit : ∀ v ∈ vs, v.getLsbD 1 = false)
    {gs : List (List Other)} (hgs : budget (calls poweroff vs) ≤ gs.length) :
    Good (outcome poweroff ⟨[], [], true⟩ vs) 0 (run exec (start data vs) gs) := by
  have hstart :
      Good (outcome poweroff ⟨[], [], true⟩ vs) (budget (calls poweroff vs)) (start data vs) :=
    .ready ⟨rfl, rfl⟩ rfl (calls_ok _ _ hbit) (calls_puts _ _ _ hbit) (Nat.le_refl _)
  have hgood := good_run gs hstart
  rw [Nat.sub_eq_zero_of_le hgs] at hgood
  exact hgood

/-- From reset: the calls of `set_voltage` return whatever else is on the bus, and leave ten times
the byte of the last voltage behind the port, none of `poweroff` among them. -/
theorem voltages_shifted (data : Byte) (vs : List Word) (hbit : ∀ v ∈ vs, v.getLsbD 1 = false)
    (gs : List (List Other)) (hgs : budget (calls poweroff vs) ≤ gs.length) :
    let x := run exec (start data vs) gs
    x.todo = [] ∧ x.line.board = outcome poweroff ⟨[], [], true⟩ vs :=
  (run_good data hbit hgs).end

/-- The second voltage replaces the first. -/
theorem voltages_shifted_two :
    let x := run exec (start 0 [0x4200, 0x8100]) (List.replicate 692 [])
    let byte := sent (din 0x8100) 8
    x.todo = [] ∧
    x.line.board = ⟨(List.replicate 10 byte).flatten, (List.replicate 10 byte).flatten, false⟩ := by
  have hbit : ∀ v ∈ [0x4200, 0x8100], BitVec.getLsbD (v : Word) 1 = false := by simp
  have henough : budget (calls poweroff [0x4200, 0x8100]) ≤
      (List.replicate 692 ([] : List Other)).length := by
    rw [List.length_replicate]
    decide +kernel
  obtain ⟨htodo, hboard⟩ := voltages_shifted 0 [0x4200, 0x8100] hbit (List.replicate 692 []) henough
  exact ⟨htodo, hboard.trans (by decide +kernel)⟩

/-- A voltage with bit 1 set makes the word of the shift command one of the output enable, and
`shift_done` reads on. -/
theorem voltages_return_iff (data : Byte) (vs : List Word) (gs : List (List Other))
    (hgs : budget (calls poweroff vs) ≤ gs.length) :
    (run exec (start data vs) gs).todo = [] ↔ ∀ v ∈ vs, v.getLsbD 1 = false := by
  refine ⟨fun hreturn => ?_, fun hbit => (run_good data hbit hgs).end.1⟩
  by_contra hbit
  obtain ⟨pre, bad, post, heq, hok, hbad⟩ := calls_bad (g := poweroff) rfl vs hbit
  have hstart : Blocked (start data vs) := by
    rw [start, heq]
    exact .ready ⟨rfl, rfl⟩ rfl hok hbad
  exact blocked_run gs hstart hreturn

theorem voltages_return_iff_stuck :
    budget (calls poweroff [0x4203]) ≤ 346 ∧
      (run exec (start 0 [0x4203]) (List.replicate 346 [])).todo ≠ [] :=
  ⟨by decide +kernel, fun h =>
    absurd
      ((voltages_return_iff 0 [0x4203] (List.replicate 346 []) (by decide +kernel)).mp h 0x4203
        List.mem_cons_self) (by decide)⟩

end HashRatio.Shifter
