import HashRatio.TwiRuns

/-!
# The bus the master drives

SDA changes with SCL high only in a START and a STOP, and both lines are released
when a transaction has ended.
-/

namespace HashRatio.TwiLegal
open Bytes TwiCore TwiMaster TwiPhases TwiRuns

/-! ### One clock edge -/

/-- No transaction is under way: nothing was started yet, or the stop is done. -/
def Ended (s : Core) : Prop := s.enR = false ∨ s.cmdStop = true ∧ s.done = true

def StartCondition (s s' : Core) : Prop := s.cmdStart = true ∧ s.sdaOen = true ∧ s'.sdaOen = false
def StopCondition (s s' : Core) : Prop := s.cmdStop = true ∧ s.sdaOen = false ∧ s'.sdaOen = true

structure Legal (s s' : Core) : Prop where
  change : s'.sdaOen ≠ s.sdaOen → s.sclO = true ∨ s'.sclO = true →
    (s.sclO = true ∧ s'.sclO = true) ∧ (StartCondition s s' ∨ StopCondition s s')
  ended : Ended s' → s'.sclO = true ∧ s'.sdaOen = true

theorem not_ended {s : Core} (hen : s.enR = true) (hbusy : s.cmdR ≠ 3 ∨ s.done = false) :
    ¬Ended s := by
  rintro (hoff | ⟨hstop, hdone⟩)
  · rw [hen] at hoff
    cases hoff
  · rcases hbusy with hcmd | hnot
    · rw [Core.cmdStop, beq_eq_false_iff_ne.mpr hcmd] at hstop
      cases hstop
    · rw [hdone] at hnot
      cases hnot

/-- The next edge is legal if no register is written at it. -/
def Steady (s : Core) : Prop := ∀ x, Legal s (next s (quiet x))

section steady
variable {s : Core} {n : ℕ}

theorem Steady.load (h : Steady s) (v : Byte) (x : Bool) : Legal s (next s (put i2wdAddr v x)) := by
  rw [next_i2wd]
  exact ⟨(h x).change, (h x).ended⟩

theorem Steady.issue (h : Steady s) (c : Cmd) (x : Bool) :
    Legal s (next s (put i2crAddr c.cr x)) := by
  rw [next_cr]
  exact ⟨(h x).change, fun hended => absurd hended (not_ended rfl (Or.inr rfl))⟩

theorem fresh_steady (h : Fresh s) : Steady s := by
  intro x
  have h' := h.edge x
  refine ⟨fun hchange => absurd (h'.sda.trans h.sda.symm) hchange, fun _ => ⟨h'.scl, h'.sda⟩⟩

theorem starting_steady (h : Starting n s) : Steady s := by
  intro x
  have h' := h.edge x
  refine ⟨fun hchange _ => ?_, fun hended => absurd hended (not_ended h'.en (Or.inl ?_))⟩
  · have hn : n = 1201 := by
      rw [h.sda, h'.sda, Ne, decide_eq_decide] at hchange
      omega
    subst hn
    have hcmd : s.cmdStart = true := by
      rw [Core.cmdStart, h.cmd, h.en]
      rfl
    exact ⟨⟨h.scl, h'.scl⟩, Or.inl ⟨hcmd, h.sda, h'.sda⟩⟩
  · rw [h'.cmd]
    decide

theorem stopping_steady (h : Stopping n s) : Steady s := by
  intro x
  have h' := h.edge x
  have hsda' := h'.sda (Nat.succ_ne_zero n)
  refine ⟨fun hchange hhigh => ?_, fun hended => ?_⟩
  · have hn0 : n ≠ 0 := by
      intro h0
      rw [h.scl, h'.scl, decide_eq_true_eq, decide_eq_true_eq] at hhigh
      omega
    have hn : n = 1452 := by
      rw [h.sda hn0, hsda', Ne, decide_eq_decide] at hchange
      omega
    subst hn
    have hcmd : s.cmdStop = true := by
      rw [Core.cmdStop, h.cmd, h.en]
      rfl
    exact ⟨⟨h.scl, h'.scl⟩, Or.inr ⟨hcmd, h.sda hn0, hsda'⟩⟩
  · have hdone : 2604 ≤ n + 1 := by
      rcases hended with hoff | ⟨-, hdone⟩
      · rw [h'.en] at hoff
        cases hoff
      · rwa [h'.done, decide_eq_true_eq] at hdone
    rw [h'.scl, hsda', decide_eq_true_eq, decide_eq_true_eq]
    omega

/-- Within the nine bits SDA changes only with SCL low before and after. -/
theorem moving_steady {cmd : BitVec 3} (hcmd : cmd = 1 ∨ cmd = 2) (bit : ℕ → Bool)
    (h : Moving cmd n s) (hsda : pos n % 4004 ≠ 0 → s.sdaOen = bit (pos n / 4004))
    (hsda' : ∀ x, pos (n + 1) % 4004 ≠ 0 → (next s (quiet x)).sdaOen = bit (pos (n + 1) / 4004)) :
    Steady s := by
  intro x
  have h' := h.edge hcmd x
  refine ⟨fun hchange hhigh => ?_, fun hended => absurd hended (not_ended h'.en (Or.inl ?_))⟩
  · rw [h.scl, h'.scl, decide_eq_true_eq, decide_eq_true_eq] at hhigh
    have hwithin : pos n % 4004 ≠ 0 ∧ pos (n + 1) % 4004 ≠ 0 := by
      simp only [pos] at hhigh ⊢
      omega
    have hsame : (next s (quiet x)).sdaOen = s.sdaOen := by
      rw [hsda hwithin.1, hsda' x hwithin.2, (pos_within hwithin.2).2]
    exact absurd hsame hchange
  · rw [h'.cmd]
    rcases hcmd with rfl | rfl <;> decide

theorem held_steady (h : Held s) : Steady s := by
  intro x
  have h' := h.edge x
  refine ⟨fun _ hhigh => ?_, fun hended => absurd hended (not_ended h'.en (Or.inl ?_))⟩
  · rw [h.scl, h'.scl] at hhigh
    rcases hhigh with hhigh | hhigh <;> cases hhigh
  · rcases h'.cmd with hcmd | hcmd <;> rw [hcmd] <;> decide

theorem under_steady {c : Cmd} (h : Under c n s) : Steady s := by
  cases c with
  | start => exact starting_steady h
  | write v =>
    obtain ⟨w, hw⟩ := h
    exact moving_steady (Or.inl rfl) (fun k => (shiftOnes w k).getLsbD 7) hw.toMoving hw.sda
      fun x => (hw.edge x).sda
  | read =>
    have hr : Receiving n s := h
    exact moving_steady (Or.inr rfl) (fun k => decide (k < 8)) hr.toMoving hr.sda fun x =>
      (hr.edge x).sda
  | stop => exact stopping_steady h

end steady

/-! ### Runs -/

section runs
variable (sda : ℕ → Bool)

def Obeys (l : Line) (i : Bool → In) : Prop := Legal l.core (step sda l i).core

theorem quiet_obeys {P : ℕ → Core → Prop} (hedge : ∀ n s x, P n s → P (n + 1) (next s (quiet x)))
    (hsteady : ∀ n s, P n s → Steady s) (k : ℕ) {n : ℕ} {l : Line} (h : P n l.core) :
    Run.Meets (step sda) (Obeys sda) l (List.replicate k quiet) :=
  Run.meets_replicate (P := fun n l => P n l.core)
    (fun n (l : Line) h => hedge n l.core (sda l.time) h)
    (fun n (l : Line) h => hsteady n l.core h (sda l.time)) k h

variable {l : Line} {t : Transfer}

theorem quiet_prepare {P : ℕ → Core → Prop} (hedge : ∀ n s x, P n s → P (n + 1) (next s (quiet x)))
    (hsteady : ∀ n s, P n s → Steady s) {n : ℕ} (h : P n l.core) (hquiet : ∀ v, t.cmd ≠ .write v) :
    Run.Meets (step sda) (Obeys sda) l t.prepare ∧
      Steady (Run.run (step sda) l t.prepare).core := by
  rw [prepare_quiet hquiet]
  exact ⟨quiet_obeys sda hedge hsteady _ h, hsteady _ _ (quiet_run sda hedge _ h)⟩

theorem parked_prepare {P : ℕ → Core → Prop} (hP : Parks P)
    (hsteady : ∀ n s, P n s → Steady s) {n : ℕ} (h : P n l.core) :
    Run.Meets (step sda) (Obeys sda) l t.prepare ∧
      Steady (Run.run (step sda) l t.prepare).core := by
  have hedge (n : ℕ) (s : Core) (x : Bool) (h : P n s) : P (n + 1) (next s (quiet x)) := hP.edge x h
  by_cases hwrite : ∃ v, t.cmd = .write v
  · obtain ⟨v, hv⟩ := hwrite
    have hbefore := quiet_run sda hedge t.before h
    have hload :=
      hP.load (sda (Run.run (step sda) l (List.replicate t.before quiet)).time) v hbefore
    rw [prepare_write hv, Run.meets_append, Run.run_append, Run.run_cons]
    refine ⟨⟨quiet_obeys sda hedge hsteady _ h, (hsteady _ _ hbefore).load v _, ?_⟩, ?_⟩
    · exact quiet_obeys sda hedge hsteady _ (l := step sda _ (put i2wdAddr v)) hload
    · exact hsteady _ _ (quiet_run sda hedge _ (l := step sda _ (put i2wdAddr v)) hload)
  · exact quiet_prepare sda hedge hsteady h fun v hv => hwrite ⟨v, hv⟩

theorem waits_prepare {p : Option Transfer} (h : Waits p t.cmd l.core) :
    Run.Meets (step sda) (Obeys sda) l t.prepare ∧
      Steady (Run.run (step sda) l t.prepare).core := by
  generalize hc : t.cmd = c at h
  have hquiet (hstart : t.cmd = .start) (v : Byte) : t.cmd ≠ .write v := by
    rw [hstart]
    exact Cmd.noConfusion
  cases h with
  | fresh h =>
    exact quiet_prepare sda (P := fun _ s => Fresh s) (fun _ _ x h => h.edge x)
      (fun _ _ h => fresh_steady h) (n := 0) h (hquiet hc)
  | stopped _ h =>
    exact quiet_prepare sda (P := Stopping) (fun _ _ x h => h.edge x)
      (fun _ _ h => stopping_steady h) h (hquiet hc)
  | started _ hn h v =>
    exact parked_prepare sda parks_started (fun _ _ h => starting_steady h.2) ⟨hn, h⟩
  | held _ _ h => exact parked_prepare sda parks_held (fun _ _ h => held_steady h) (n := 0) h

theorem transfer_obeys {p : Option Transfer} (h : Waits p t.cmd l.core) :
    Run.Meets (step sda) (Obeys sda) l t.inputs := by
  obtain ⟨hprepare, hsteady⟩ := waits_prepare sda h
  rw [Transfer.inputs, Run.meets_append]
  refine ⟨hprepare, hsteady.issue t.cmd _, ?_⟩
  exact quiet_obeys sda (P := Under t.cmd) (fun _ _ x h => Under.edge h x)
    (fun _ _ h => under_steady h) t.after
    (begun_under sda h)

theorem obeys_from {p : Option Transfer} {ts : List Transfer}
    (hf : Run.Meets last Follows (p.map Transfer.cmd) (ts.map Transfer.cmd)) (h : Rest p l.core)
    (hdone : Run.Meets (exec sda) (fun l t => Polled (exec sda l t)) l ts.dropLast) :
    Run.Meets (step sda) (Obeys sda) l (ts.flatMap Transfer.inputs) := by
  induction ts generalizing p l with
  | nil => trivial
  | cons t ts ih =>
    have hwaits := rest_waits h hf.1
    rw [List.flatMap_cons, Run.meets_append]
    refine ⟨transfer_obeys sda hwaits, ?_⟩
    cases ts with
    | nil => trivial
    | cons t' ts => exact ih (p := some t) hf.2 (exec_rest sda hwaits hdone.1) hdone.2

/-- **In every run of calls, whose last command may be unfinished, every clock edge is legal.** -/
theorem bus_legal (ts : List Transfer) (hissued : Issued ts) (hdone : Completed sda ts.dropLast) :
    Run.Meets (step sda) (Obeys sda) Line.reset (ts.flatMap Transfer.inputs) :=
  obeys_from sda (p := none) (issued_follows hissued) rest_reset hdone

end runs

theorem reading_legal :
    Run.Meets (step released) (Obeys released) Line.reset (reading.flatMap Transfer.inputs) := by
  have hissued : Issued reading.dropLast := ⟨[.twiRead2byte 0x48], by decide⟩
  have hdone : Completed released reading.dropLast :=
    (completed_iff released hissued).mpr (by decide)
  exact bus_legal released reading reading_issued hdone

end HashRatio.TwiLegal
