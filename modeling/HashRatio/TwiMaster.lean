import HashRatio.Lib.Run
import HashRatio.TwiCore

/-!
# The firmware's TWI commands and the two lines (twipwm.c)

`twi_read_2byte` and `twi_write_2byte` as the commands they issue, each command as
the clock cycles it takes, and what a slave sees on SCL and SDA meanwhile.
-/

namespace HashRatio.TwiMaster
open Bytes TwiCore

/-! ### Commands -/

inductive Cmd where
  | start
  | write (value : Byte)
  | read
  | stop
  deriving DecidableEq, Repr

def crEnable : Byte := 0x01
def crTstart : Byte := 0x02
def crTdone : Byte := 0x04
def crCmdWd : Byte := 0x10
def crCmdRdack : Byte := 0x20
def crCmdStop : Byte := 0x30

def Cmd.cr : Cmd → Byte
  | .start => crEnable ||| crTstart
  | .write _ => crEnable ||| crTstart ||| crCmdWd
  | .read => crEnable ||| crTstart ||| crCmdRdack
  | .stop => crEnable ||| crTstart ||| crCmdStop

def Cmd.code : Cmd → BitVec 3
  | .start => 0
  | .write _ => 1
  | .read => 2
  | .stop => 3

theorem next_cr (s : Core) (c : Cmd) (sda : Bool) : next s (put i2crAddr c.cr sda) =
    {next s (quiet sda) with enR := true, initR := true, cmdR := c.code, done := false} := by
  have hcr : c.cr = 0#1 ++ c.code ++ 3#4 := by
    cases c <;> rw [Cmd.cr, Cmd.code] <;> rfl
  have hfields : ∀ k : BitVec 3, (0#1 ++ k ++ 3#4).getLsbD 0 = true ∧
      (0#1 ++ k ++ 3#4).getLsbD 1 = true ∧
      (0#1 ++ k ++ 3#4).extractLsb' 4 3 = k ∧ (0#1 ++ k ++ 3#4).getLsbD 2 = false := by decide
  obtain ⟨hen, hinit, hcmd, hdone⟩ := hfields c.code
  rw [next_i2cr, hcr, hen, hinit, hcmd, hdone]

inductive Call where
  | twiWrite2byte (buf : BitVec 16) (addr : Byte)
  | twiRead2byte (addr : Byte)
  deriving DecidableEq, Repr

def Call.cmds : Call → List Cmd
  | .twiWrite2byte buf addr =>
    [.start, .write (addr <<< 1), .write 0x00, .write (buf.setWidth 8),
      .write ((buf >>> 8).setWidth 8), .stop]
  | .twiRead2byte addr =>
    [.start, .write (addr <<< 1), .write 0x00, .stop, .start, .write ((addr <<< 1) ||| 0x1),
      .read, .read, .stop]

/-- A command with its idle cycles: before the data register is written, from there to the control
register, and after that. Only a write command writes the data register. -/
structure Transfer where
  cmd : Cmd
  before : ℕ
  between : ℕ
  after : ℕ
  deriving DecidableEq, Repr

def Transfer.prepare (t : Transfer) : List (Bool → In) :=
  match t.cmd with
  | .write value =>
    List.replicate t.before quiet ++ put i2wdAddr value :: List.replicate t.between quiet
  | _ => List.replicate t.before quiet ++ List.replicate t.between quiet

/-- The cycles of a transfer; the SDA line is an input of each. -/
def Transfer.inputs (t : Transfer) : List (Bool → In) :=
  t.prepare ++ put i2crAddr t.cmd.cr :: List.replicate t.after quiet

/-! ### The lines -/

/-- `high`: cycles SCL has been high; `rises`: the SDA drive at its rising edges; `samples`: the SDA
input in the hundredth cycle of each high phase. -/
structure Line where
  core : Core
  time : ℕ
  high : ℕ
  rises : List Bool
  samples : List Bool
  deriving DecidableEq, Repr

def Line.reset : Line := ⟨Core.reset, 0, 0, [], []⟩

/-- One clock edge, with `sda` the SDA line over time. -/
def step (sda : ℕ → Bool) (l : Line) (i : Bool → In) : Line :=
  let core := next l.core (i (sda l.time))
  { core := core
    time := l.time + 1
    high := if l.core.sclO then l.high + 1 else 0
    rises := if !l.core.sclO && core.sclO then l.rises ++ [core.sdaOen] else l.rises
    samples := if l.core.sclO && l.high == 99 then l.samples ++ [sda l.time] else l.samples }

def exec (sda : ℕ → Bool) (l : Line) (t : Transfer) : Line := Run.run (step sda) l t.inputs

/-! ### Runs -/

/-- The transfers of some calls, up to any point. -/
def Issued (ts : List Transfer) : Prop :=
  ∃ calls : List Call, ts.map Transfer.cmd <+: calls.flatMap Call.cmds

def Polled (l : Line) : Prop := l.core.i2cr &&& crTdone = crTdone

/-- The firmware leaves a command when it has read DONE. -/
def Completed (sda : ℕ → Bool) (ts : List Transfer) : Prop :=
  Run.Meets (exec sda) (fun l t => Polled (exec sda l t)) Line.reset ts

theorem polled_iff (l : Line) : Polled l ↔ l.core.done = true := i2cr_done l.core

inductive Follows : Option Cmd → Cmd → Prop
  | first : Follows none .start
  | again : Follows (some .stop) .start
  | address (v : Byte) : Follows (some .start) (.write v)
  | byte (v v' : Byte) : Follows (some (.write v)) (.write v')
  | turn (v : Byte) : Follows (some (.write v)) .read
  | more : Follows (some .read) .read
  | written (v : Byte) : Follows (some (.write v)) .stop
  | taken : Follows (some .read) .stop

def last (_ : Option Cmd) (c : Cmd) : Option Cmd := some c

theorem call_follows {p : Option Cmd} (hp : Follows p .start) (c : Call) :
    Run.Meets last Follows p c.cmds ∧ Run.run last p c.cmds = some .stop := by
  cases c with
  | twiWrite2byte buf addr =>
    exact ⟨⟨hp, .address _, .byte _ _, .byte _ _, .byte _ _, .written _, trivial⟩, rfl⟩
  | twiRead2byte addr =>
    exact ⟨⟨hp, .address _, .byte _ _, .written _, .again, .address _, .turn _, .more,
      .taken, trivial⟩, rfl⟩

theorem calls_follow {p : Option Cmd} (hp : Follows p .start) (calls : List Call) :
    Run.Meets last Follows p (calls.flatMap Call.cmds) := by
  induction calls generalizing p with
  | nil => trivial
  | cons c calls ih =>
    obtain ⟨hmeets, hrun⟩ := call_follows hp c
    rw [List.flatMap_cons, Run.meets_append, hrun]
    exact ⟨hmeets, ih .again⟩

theorem issued_follows {ts : List Transfer} (h : Issued ts) :
    Run.Meets last Follows none (ts.map Transfer.cmd) := by
  obtain ⟨calls, rest, hcalls⟩ := h
  have hall := calls_follow .first calls
  rw [← hcalls, Run.meets_append] at hall
  exact hall.1

end HashRatio.TwiMaster
