import HashRatio.Bus

/-!
# What a status check sends

`be200_cmd_ck` fills bytes 0, 1 and 3 of the shared transmit buffer and sends bytes
0 to 2. Byte 2 is 0, as at start-up, after every command, so each check sends
three times BE200_CMD_CHECK.
-/

namespace HashRatio.Checks
open Bytes Drivers State Bus

variable {σ : Type}

/-- The calls of be200.c and of main.c's `freq_write`. -/
inductive Call where
  | cmdCk (idx : ℕ)
  | cmdRd (idx reg : ℕ)
  | cmdWr (idx reg : ℕ) (value : Byte)
  | cmdRst (idx : ℕ)
  | reset (idx : ℕ)
  | isIdle (idx : ℕ)
  | inputTask (idx : ℕ) (task : List Byte)
  | start (idx : ℕ)
  | getDone (idx : ℕ)
  | getResult (idx : ℕ) (nonceMask : Byte)
  | dumpRegister (idx : ℕ)
  | setPll (idx : ℕ) (mult : Byte)
  | clear (idx : ℕ)
  | freqWrite (idx : ℕ) (multi : Byte)

def exec (b : Board σ) (d : Dev σ) : Call → Dev σ
  | .cmdCk idx => (be200CmdCk b d idx).1
  | .cmdRd idx reg => (be200CmdRd b d idx reg).1
  | .cmdWr idx reg value => be200CmdWr b d idx reg value
  | .cmdRst idx => be200CmdRst b d idx
  | .reset idx => be200Reset b d idx
  | .isIdle idx => (be200IsIdle b d idx).1
  | .inputTask idx task => (be200InputTask b d idx task).1
  | .start idx => be200Start b d idx
  | .getDone idx => (be200GetDone b d idx).1
  | .getResult idx nonceMask => (be200GetResult b d idx nonceMask).1
  | .dumpRegister idx => be200DumpRegister b d idx
  | .setPll idx mult => be200SetPll b d idx mult
  | .clear idx => be200Clear b d idx
  | .freqWrite idx multi => freqWrite b d idx multi

def startUp (env : σ) : Dev σ := (Fw.init env).dev

def after (b : Board σ) (env : σ) (calls : List Call) : Dev σ :=
  Run.run (exec b) (startUp env) calls

def checkBytes : List Byte := [be200CmdCheck, be200CmdCheck, be200CmdCheck]

/-- Byte 2 is ready for a check, and every check made sent what it should. -/
structure Clean (d : Dev σ) : Prop where
  byte2 : d.writeBuffer 2 = be200CmdCheck
  sent : ∀ x ∈ d.xfers, IsCheck x → x.sent = checkBytes

theorem startUp_clean (env : σ) : Clean (startUp env) := ⟨rfl, fun x hx => by cases hx⟩

/-! ### The commands -/

section commands
variable (b : Board σ) {d : Dev σ} (idx : ℕ)

theorem clean_cons {d' : Dev σ} {x : Xfer σ} (h : Clean d)
    (hbyte : d'.writeBuffer 2 = be200CmdCheck)
    (hxfers : d'.xfers = x :: d.xfers) (hx : IsCheck x → x.sent = checkBytes) : Clean d' := by
  refine ⟨hbyte, fun y hy => ?_⟩
  rw [hxfers] at hy
  rcases List.mem_cons.mp hy with rfl | hy
  · exact hx
  · exact h.sent y hy

/-- A transfer that does not begin with the check command is none. -/
theorem not_check {env : σ} {cmd : Byte} {rest : List Byte} (hcmd : cmd ≠ be200CmdCheck)
    (h : IsCheck ⟨env, idx, cmd :: rest⟩) : cmd :: rest = checkBytes :=
  absurd ((sends_iff ..).mp h) hcmd

theorem or_ne_check (cmd : Byte) (bit : ℕ) (hbit : cmd.getLsbD bit = true) (reg : ℕ) :
    cmd ||| BitVec.ofNat 8 reg ≠ be200CmdCheck := by
  intro h
  have hzero : (cmd ||| BitVec.ofNat 8 reg).getLsbD bit = false := by
    rw [h]
    exact BitVec.getLsbD_zero
  rw [BitVec.getLsbD_or, hbit, Bool.true_or] at hzero
  cases hzero

theorem ck_sent (h : Clean d) :
    (be200CmdCk b d idx).1.xfers = ⟨d.env, idx, checkBytes⟩ :: d.xfers := by
  rw [ck_xfers, h.byte2]
  rfl

theorem ck_clean (h : Clean d) : Clean (be200CmdCk b d idx).1 :=
  clean_cons h h.byte2 (ck_sent b idx h) fun _ => rfl

theorem rd_clean (h : Clean d) (reg : ℕ) : Clean (be200CmdRd b d idx reg).1 :=
  clean_cons h rfl (rd_xfers b d idx reg) (not_check idx (or_ne_check 0x40 6 rfl reg))

theorem wr_clean (h : Clean d) (reg : ℕ) (value : Byte) : Clean (be200CmdWr b d idx reg value) :=
  clean_cons h h.byte2 (wr_xfers b d idx reg value) (not_check idx (or_ne_check 0x80 7 rfl reg))

theorem rst_clean (h : Clean d) : Clean (be200CmdRst b d idx) :=
  clean_cons (x := ⟨d.env, idx, [be200CmdReset]⟩) h h.byte2 rfl (not_check idx (by decide))

end commands

/-! ### The calls built on them -/

theorem inputFrom_clean (b : Board σ) (idx : ℕ) (task : List Byte) (n i : ℕ)
    (d : Dev σ) (h : Clean d) :
    Clean (inputFrom b idx task n i d).1 := by
  induction n generalizing i d with
  | zero => exact h
  | succ n ih =>
    have hload := rd_clean b idx (wr_clean b idx h i (task.getD i 0)) i
    simp only [inputFrom]
    split
    · exact hload
    · exact ih (i + 1) _ hload

theorem getResult_clean (b : Board σ) (d : Dev σ) (idx : ℕ) (nonceMask : Byte) (h : Clean d) :
    Clean (be200GetResult b d idx nonceMask).1 := by
  simp only [be200GetResult]
  split
  · exact h
  · rename_i reg _
    exact rd_clean b idx
      (rd_clean b idx (rd_clean b idx (rd_clean b idx (rd_clean b idx h _) _) _) _) _

theorem dumpRegister_clean (b : Board σ) (d : Dev σ) (idx : ℕ) (h : Clean d) :
    Clean (be200DumpRegister b d idx) := by
  have hfold (is : List ℕ) (d : Dev σ) (h : Clean d) :
      Clean (is.foldl (fun d i => (be200CmdRd b d idx i).1) d) := by
    induction is generalizing d with
    | nil => exact h
    | cons i is ih => exact ih _ (rd_clean b idx h i)
  exact hfold (List.range 64) d h

theorem exec_clean (b : Board σ) (d : Dev σ) (c : Call) (h : Clean d) : Clean (exec b d c) := by
  cases c with
  | cmdCk idx | isIdle idx | getDone idx => exact ck_clean b idx h
  | cmdRd idx reg => exact rd_clean b idx h reg
  | cmdWr idx reg value => exact wr_clean b idx h reg value
  | cmdRst idx | reset idx => exact rst_clean b idx h
  | inputTask idx task => exact inputFrom_clean b idx task 44 0 d h
  | start idx => exact ck_clean b idx (wr_clean b idx (ck_clean b idx h) be200RegStart 0xFF)
  | getResult idx nonceMask => exact getResult_clean b d idx nonceMask h
  | dumpRegister idx => exact dumpRegister_clean b d idx h
  | setPll idx mult | freqWrite idx mult => exact wr_clean b idx h be200RegPll _
  | clear idx => exact wr_clean b idx h be200RegClear 0x00

theorem after_clean (b : Board σ) (env : σ) (calls : List Call) : Clean (after b env calls) :=
  Run.run_invariant_all (exec b) Clean (exec_clean b) (startUp env) calls (startUp_clean env)

/-- **After any calls from start-up a check sends three times the check command, and every check
made on the way did.** -/
theorem checks_sent (b : Board σ) (env : σ) (calls : List Call) :
    (∀ idx, (be200CmdCk b (after b env calls) idx).1.xfers =
      ⟨(after b env calls).env, idx, checkBytes⟩ :: (after b env calls).xfers) ∧
      ∀ x ∈ (after b env calls).xfers, IsCheck x → x.sent = checkBytes :=
  ⟨fun idx => ck_sent b idx (after_clean b env calls), (after_clean b env calls).sent⟩

end HashRatio.Checks
