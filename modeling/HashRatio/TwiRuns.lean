import HashRatio.TwiPhases

/-!
# From one command to the next

Before a command the master holds SCL low after a start or a ninth bit, or leaves
both lines released; the write to the control register begins the next command
from there, however long it waited.
-/

namespace HashRatio.TwiRuns
open Bytes TwiCore TwiMaster TwiPhases

/-! ### Waiting with SCL low -/

/-- A finished command that holds SCL low while it waits; `n` counts the edges. -/
structure Parks (P : ℕ → Core → Prop) : Prop where
  edge : ∀ {n s} x, P n s → P (n + 1) (next s (quiet x))
  load : ∀ {n s} x v, P n s → P (n + 1) (next s (put i2wdAddr v x))
  scl : ∀ {n s}, P n s → s.sclO = false
  i2wdR : ∀ {n s} x, P n s → (next s (quiet x)).i2wdR = s.i2wdR

theorem parks_started : Parks fun n s => 2604 ≤ n ∧ Starting n s where
  edge x h := ⟨by omega, h.2.edge x⟩
  load x v h := by
    have h' := h.2.edge x
    rw [next_i2wd]
    exact ⟨by omega, ⟨h'.en, h'.cmd, h'.init, h'.cnt, h'.done⟩, h'.stale, h'.scl, h'.sda⟩
  scl h := by
    rw [h.2.scl, decide_eq_false]
    omega
  i2wdR x h := h.2.i2wdR x

theorem parks_held : Parks fun _ s => Held s where
  edge x h := h.edge x
  load x v h := by
    have h' := h.edge x
    rw [next_i2wd]
    exact ⟨h'.en, h'.cmd, h'.init, h'.cnt, h'.byteCnt, h'.scl, h'.done⟩
  scl h := h.scl
  i2wdR x h := h.i2wdR x

/-- The line as `old` left it, with `w` in the data register. -/
structure Parked (P : ℕ → Core → Prop) (old : Line) (w : Byte) (n : ℕ) (l : Line) : Prop where
  state : P n l.core
  i2wdR : l.core.i2wdR = w
  rises : l.rises = old.rises
  samples : l.samples = old.samples

theorem step_low {sda : ℕ → Bool} {l : Line} {i : Bool → In} (h : l.core.sclO = false)
    (h' : (step sda l i).core.sclO = false) :
    (step sda l i).rises = l.rises ∧ (step sda l i).samples = l.samples := by
  have hnext : (next l.core (i (sda l.time))).sclO = false := h'
  constructor
  · simp only [step, hnext, Bool.and_false, Bool.false_eq_true, if_false]
  · simp only [step, h, Bool.false_and, Bool.false_eq_true, if_false]

theorem quiet_run (sda : ℕ → Bool) {P : ℕ → Core → Prop}
    (hedge : ∀ n s x, P n s → P (n + 1) (next s (quiet x)))
    (k : ℕ) {n : ℕ} {l : Line} (h : P n l.core) :
    P (n + k) (Run.run (step sda) l (List.replicate k quiet)).core :=
  Run.run_replicate (P := fun n l => P n l.core)
    (fun n (l : Line) h => hedge n l.core (sda l.time) h) k h

section parked
variable {P : ℕ → Core → Prop} {old l : Line} {w : Byte} {n : ℕ} (sda : ℕ → Bool)

theorem Parked.edge (hP : Parks P) (h : Parked P old w n l) :
    Parked P old w (n + 1) (step sda l quiet) := by
  have hstate := hP.edge (sda l.time) h.state
  obtain ⟨hrises, hsamples⟩ := step_low (hP.scl h.state) (hP.scl hstate)
  exact ⟨hstate, (hP.i2wdR _ h.state).trans h.i2wdR, hrises.trans h.rises, hsamples.trans h.samples⟩

theorem Parked.load (hP : Parks P) (h : Parked P old w n l) (v : Byte) :
    Parked P old v (n + 1) (step sda l (put i2wdAddr v)) := by
  have hstate := hP.load (sda l.time) v h.state
  obtain ⟨hrises, hsamples⟩ := step_low (hP.scl h.state) (hP.scl hstate)
  exact ⟨hstate, rfl, hrises.trans h.rises, hsamples.trans h.samples⟩

theorem Parked.edges (hP : Parks P) (h : Parked P old w n l) (k : ℕ) :
    Parked P old w (n + k) (Run.run (step sda) l (List.replicate k quiet)) :=
  Run.run_replicate (fun _ _ h => h.edge sda hP) k h

end parked

theorem prepare_write {t : Transfer} {v : Byte} (h : t.cmd = .write v) :
    t.prepare =
      List.replicate t.before quiet ++ put i2wdAddr v :: List.replicate t.between quiet := by
  rw [Transfer.prepare, h]

theorem prepare_length {t : Transfer} {v : Byte} (h : t.cmd = .write v) :
    t.prepare.length = t.before + 1 + t.between := by
  rw [prepare_write h, List.length_append, List.length_cons, List.length_replicate,
    List.length_replicate]
  omega

theorem prepare_quiet {t : Transfer} (h : ∀ v, t.cmd ≠ .write v) :
    t.prepare = List.replicate (t.before + t.between) quiet := by
  rw [Transfer.prepare, ← List.replicate_append_replicate]
  split
  · rename_i v hv
    exact absurd hv (h v)
  · rfl

/-- What a transfer leaves in the data register before its command begins. -/
def loaded (t : Transfer) (w : Byte) : Byte :=
  match t.cmd with
  | .write v => v
  | _ => w

theorem Parked.prepare {P : ℕ → Core → Prop} {old l : Line} {w : Byte} {n : ℕ}
    (sda : ℕ → Bool) (hP : Parks P) (h : Parked P old w n l) (t : Transfer) :
    Parked P old (loaded t w) (n + t.prepare.length) (Run.run (step sda) l t.prepare) := by
  by_cases hwrite : ∃ v, t.cmd = .write v
  · obtain ⟨v, hv⟩ := hwrite
    have hdone := ((h.edges sda hP t.before).load sda hP v).edges sda hP t.between
    have hlen : n + t.prepare.length = n + t.before + 1 + t.between := by
      rw [prepare_length hv]
      omega
    rw [hlen, prepare_write hv, Run.run_append, Run.run_cons, loaded, hv]
    exact hdone
  · have hquiet : ∀ v, t.cmd ≠ .write v := fun v hv => hwrite ⟨v, hv⟩
    have hw : loaded t w = w := by
      rw [loaded]
      split
      · rename_i v hv
        exact absurd hv (hquiet v)
      · rfl
    rw [prepare_quiet hquiet, List.length_replicate, hw]
    exact h.edges sda hP _

/-! ### A command under way -/

/-- `n` edges into a command. -/
def Under : Cmd → ℕ → Core → Prop
  | .start => Starting
  | .write _ => fun n s => ∃ w, Sending w n s
  | .read => Receiving
  | .stop => Stopping

def Cmd.cycles : Cmd → ℕ
  | .start | .stop => 2604
  | .write _ | .read => 36038

section under
variable {c : Cmd} {n : ℕ} {s : Core}

theorem Under.edge (h : Under c n s) (x : Bool) : Under c (n + 1) (next s (quiet x)) := by
  cases c with
  | start => exact Starting.edge h x
  | write v =>
    obtain ⟨w, hw⟩ := h
    exact ⟨w, hw.edge x⟩
  | read => exact Receiving.edge h x
  | stop => exact Stopping.edge h x

theorem Under.done (h : Under c n s) : s.done = decide (Cmd.cycles c ≤ n) := by
  cases c with
  | start => exact Starting.toTimed h |>.done
  | write v =>
    obtain ⟨w, hw⟩ := h
    exact hw.done
  | read => exact Receiving.toMoving h |>.done
  | stop => exact Stopping.toTimed h |>.done

end under

/-- Before a command: nothing yet, or the last transfer done. -/
def Rest : Option Transfer → Core → Prop
  | none, s => Fresh s
  | some t, s => Cmd.cycles t.cmd ≤ t.after ∧ Under t.cmd t.after s

/-- The state in which the next command `c` finds the master. -/
inductive Waits : Option Transfer → Cmd → Core → Prop
  | fresh {s : Core} (h : Fresh s) : Waits none .start s
  | stopped {t : Transfer} {s : Core} (hn : 2604 ≤ t.after) (h : Stopping t.after s) :
    Waits (some t) .start s
  | started {t : Transfer} {s : Core} (hcmd : t.cmd = .start) (hn : 2604 ≤ t.after)
    (h : Starting t.after s) (v : Byte) :
    Waits (some t) (.write v) s
  | held {t : Transfer} {c : Cmd} {s : Core} (hcmd : t.cmd ≠ .start)
    (hc : c ≠ .start) (h : Held s) :
    Waits (some t) c s

theorem rest_waits {p : Option Transfer} {c : Cmd} {s : Core} (h : Rest p s)
    (hf : Follows (p.map Transfer.cmd) c) : Waits p c s := by
  cases p with
  | none =>
    cases hf
    exact .fresh h
  | some t =>
    obtain ⟨hn, hunder⟩ := h
    rw [Option.map_some] at hf
    cases hcmd : t.cmd with
    | start =>
      rw [hcmd] at hf hn hunder
      cases hf
      exact .started hcmd hn hunder _
    | write v =>
      rw [hcmd] at hf hn hunder
      obtain ⟨w, hw⟩ := hunder
      have hheld := hw.toMoving.held (Or.inl rfl) hn
      have hstart : t.cmd ≠ .start := by
        rw [hcmd]
        exact Cmd.noConfusion
      cases hf with
      | byte v v' => exact .held hstart Cmd.noConfusion hheld
      | turn v => exact .held hstart Cmd.noConfusion hheld
      | written v => exact .held hstart Cmd.noConfusion hheld
    | read =>
      rw [hcmd] at hf hn hunder
      have hheld := (Receiving.toMoving hunder).held (Or.inr rfl) hn
      have hstart : t.cmd ≠ .start := by
        rw [hcmd]
        exact Cmd.noConfusion
      cases hf with
      | more => exact .held hstart Cmd.noConfusion hheld
      | taken => exact .held hstart Cmd.noConfusion hheld
    | stop =>
      rw [hcmd] at hf hn hunder
      cases hf
      exact .stopped hn hunder

/-! ### The edge at which a command begins -/

section begun
variable (sda : ℕ → Bool) {l : Line} {t : Transfer}

def begun (l : Line) (t : Transfer) : Line :=
  step sda (Run.run (step sda) l t.prepare) (put i2crAddr t.cmd.cr)

theorem exec_eq :
    exec sda l t = Run.run (step sda) (begun sda l t) (List.replicate t.after quiet) := by
  rw [exec, Transfer.inputs, Run.run_append, Run.run_cons]
  rfl

theorem parked_begun {P : ℕ → Core → Prop} {n : ℕ} (hP : Parks P) (h : P n l.core) :
    (begun sda l t).rises = l.rises ∧ (begun sda l t).samples = l.samples ∧
      ∃ s x, P (n + t.prepare.length) s ∧ s.i2wdR = loaded t l.core.i2wdR ∧
        (begun sda l t).core = next s (put i2crAddr t.cmd.cr x) := by
  have hstart : Parked P l l.core.i2wdR n l := ⟨h, rfl, rfl, rfl⟩
  obtain ⟨hstate, hwd, hrises, hsamples⟩ := hstart.prepare sda hP t
  have hscl : (begun sda l t).core.sclO = false := by
    have hedge := hP.scl (hP.edge (sda (Run.run (step sda) l t.prepare).time) hstate)
    have hcore : (begun sda l t).core =
        next (Run.run (step sda) l t.prepare).core
          (put i2crAddr t.cmd.cr (sda (Run.run (step sda) l t.prepare).time)) := rfl
    rw [hcore, next_cr]
    exact hedge
  obtain ⟨hr, hs⟩ := step_low (hP.scl hstate) hscl
  exact ⟨hr.trans hrises, hs.trans hsamples, _, _, hstate, hwd, rfl⟩

theorem loaded_write {v w : Byte} (h : t.cmd = .write v) : loaded t w = v := by
  rw [loaded, h]

/-- Clock edges from one control register write to the next. -/
def spacing (t₁ t₂ : Transfer) : ℕ := t₁.after + t₂.prepare.length + 1

/-- A write after a start: if the counter is at the end of a bit, the first shift comes too
early. -/
theorem begun_address {t₁ : Transfer} {v : Byte} (hn : 2604 ≤ t₁.after)
    (h : Starting t₁.after l.core) (hcmd : t.cmd = .write v) :
    Sending (if spacing t₁ t = 4003 then shiftIn v true else v) 0 (begun sda l t).core ∧
      (begun sda l t).rises = l.rises := by
  obtain ⟨hrises, -, s, x, ⟨hle, hs⟩, hwd, hcore⟩ := parked_begun sda (t := t) parks_started ⟨hn, h⟩
  have hsend := hs.write hle v x
  rw [hwd, loaded_write hcmd] at hsend
  have hspacing : spacing t₁ t = 4003 ↔ t₁.after + t.prepare.length = 4002 := by
    rw [spacing]
    omega
  rw [hcore, hcmd]
  simp only [hspacing]
  exact ⟨hsend, hrises⟩

theorem begun_held (h : Held l.core) :
    (begun sda l t).rises = l.rises ∧ (begun sda l t).samples = l.samples ∧
      (∀ v, t.cmd = .write v → Sending v 0 (begun sda l t).core) ∧
      (t.cmd = .read → Receiving 0 (begun sda l t).core) ∧
      (t.cmd = .stop → Stopping 0 (begun sda l t).core) := by
  obtain ⟨hrises, hsamples, s, x, hs, hwd, hcore⟩ := parked_begun sda (t := t) (n := 0) parks_held h
  refine ⟨hrises, hsamples, fun v hv => ?_, fun hread => ?_, fun hstop => ?_⟩
  · have hsend := hs.write x v
    rw [hwd, loaded_write hv] at hsend
    rw [hcore, hv]
    exact hsend
  · rw [hcore, hread]
    exact hs.read x
  · rw [hcore, hstop]
    exact hs.stop x

theorem begun_start {p : Option Transfer} (h : Waits p .start l.core) (hcmd : t.cmd = .start) :
    Starting 0 (begun sda l t).core := by
  have hquiet : ∀ v, t.cmd ≠ .write v := by
    rw [hcmd]
    exact fun v => Cmd.noConfusion
  rw [begun, prepare_quiet hquiet, hcmd]
  cases h with
  | fresh h =>
    have hwait :=
      quiet_run sda (P := fun _ s => Fresh s) (fun _ _ x h => h.edge x)
        (t.before + t.between) (n := 0) h
    exact hwait.start _
  | stopped hn h =>
    have hwait := quiet_run sda (fun _ _ x h => h.edge x) (t.before + t.between) h
    exact hwait.start (by omega) _
  | held _ hc => exact absurd rfl hc

theorem begun_under {p : Option Transfer} (h : Waits p t.cmd l.core) :
    Under t.cmd 0 (begun sda l t).core := by
  generalize hc : t.cmd = c at h
  cases h with
  | fresh h => exact begun_start sda (.fresh h) hc
  | stopped hn h => exact begun_start sda (.stopped hn h) hc
  | started hcmd hn h v => exact ⟨_, (begun_address sda hn h hc).1⟩
  | held hcmd hne h =>
    obtain ⟨-, -, hwrite, hread, hstop⟩ := begun_held sda (t := t) h
    cases c with
    | start => exact absurd rfl hne
    | write v => exact ⟨v, hwrite v hc⟩
    | read => exact hread hc
    | stop => exact hstop hc

theorem exec_under {p : Option Transfer} (h : Waits p t.cmd l.core) :
    Under t.cmd t.after (exec sda l t).core := by
  have hrun :=
    quiet_run sda (P := Under t.cmd) (fun _ _ x h => Under.edge h x) t.after (begun_under sda h)
  rw [Nat.zero_add] at hrun
  rw [exec_eq]
  exact hrun

theorem exec_rest {p : Option Transfer} (h : Waits p t.cmd l.core) (hdone : Polled (exec sda l t)) :
    Rest (some t) (exec sda l t).core := by
  have hunder := exec_under sda h
  rw [polled_iff, hunder.done, decide_eq_true_eq] at hdone
  exact ⟨hdone, hunder⟩

end begun

/-! ### Runs -/

section runs
variable (sda : ℕ → Bool)

theorem polled_exec {p : Option Transfer} {l : Line} {t : Transfer} (h : Waits p t.cmd l.core) :
    Polled (exec sda l t) ↔ Cmd.cycles t.cmd ≤ t.after := by
  rw [polled_iff, (exec_under sda h).done, decide_eq_true_eq]

theorem completed_from {p : Option Transfer} {l : Line} {ts : List Transfer}
    (hf : Run.Meets last Follows (p.map Transfer.cmd) (ts.map Transfer.cmd)) (h : Rest p l.core) :
    Run.Meets (exec sda) (fun l t => Polled (exec sda l t)) l ts ↔
      ∀ t ∈ ts, Cmd.cycles t.cmd ≤ t.after := by
  induction ts generalizing p l with
  | nil => exact iff_of_true trivial fun t ht => absurd ht (List.not_mem_nil)
  | cons t ts ih =>
    have hwaits := rest_waits h hf.1
    rw [List.forall_mem_cons, Run.Meets, polled_exec sda hwaits]
    refine and_congr_right fun hn => ih (p := some t) hf.2 ⟨hn, exec_under sda hwaits⟩

theorem rest_reset : Rest none Line.reset.core := ⟨rfl, rfl, rfl, rfl⟩

/-- A start and a stop have DONE after 2604 cycles, a byte after 36038. -/
theorem completed_iff {ts : List Transfer} (h : Issued ts) :
    Completed sda ts ↔ ∀ t ∈ ts, Cmd.cycles t.cmd ≤ t.after :=
  completed_from sda (p := none) (issued_follows h) rest_reset

end runs

/-! ### A read of the temperature -/

def released (_ : ℕ) : Bool := true

/-- Each command some cycles after DONE. -/
def reading : List Transfer := (Call.twiRead2byte 0x48).cmds.map fun c => ⟨c, 10, 5, Cmd.cycles c⟩

theorem reading_issued : Issued reading := ⟨[.twiRead2byte 0x48], List.prefix_rfl⟩

theorem reading_completed : Completed released reading :=
  (completed_iff released reading_issued).mpr (by decide)

end HashRatio.TwiRuns
