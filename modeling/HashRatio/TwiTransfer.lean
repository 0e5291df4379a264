import HashRatio.TwiRuns
import Mathlib.Data.List.Chain

/-!
# Bytes over SDA

What a slave sees at the rising edges of SCL during a write command, and what a
read command leaves in the data register. One spacing of a start and a write
shifts the byte before its first bit.
-/

namespace HashRatio.TwiTransfer
open Bytes TwiCore TwiMaster TwiPhases TwiRuns

/-- `v` and the released level at the nine rising edges of SCL since `old`. -/
def Presented (v : Byte) (old l : Line) : Prop := l.rises = old.rises ++ (byteBits v ++ [true])

/-- The data register holds the first eight of the nine samples since `old`. -/
def ReadBack (old l : Line) : Prop :=
  ∃ ss, l.samples = old.samples ++ ss ∧ ss.length = 9 ∧ byteBits l.core.i2rd = ss.take 8

/-! ### A write command -/

def risen (n : ℕ) : ℕ := (pos n + 2602) / 4004

theorem rise_iff (n : ℕ) : (!decide (1402 ≤ pos n % 4004 ∧ pos n % 4004 ≤ 2602) &&
    decide (1402 ≤ pos (n + 1) % 4004 ∧ pos (n + 1) % 4004 ≤ 2602)) = true ↔
      pos n % 4004 = 1401 := by
  simp only [Bool.and_eq_true, Bool.not_eq_true', decide_eq_false_iff_not, decide_eq_true_eq]
  simp only [pos]
  omega

theorem risen_succ (n : ℕ) :
    risen (n + 1) = if pos n % 4004 = 1401 then risen n + 1 else risen n := by
  by_cases hrise : pos n % 4004 = 1401
  · rw [if_pos hrise]
    simp only [risen, pos] at hrise ⊢
    omega
  · rw [if_neg hrise]
    simp only [risen, pos] at hrise ⊢
    omega

/-- `n` edges into a write of `w`, one level for each rising edge so far. -/
structure Sent (w : Byte) (old : Line) (n : ℕ) (l : Line) : Prop where
  core : Sending w n l.core
  rises : l.rises = old.rises ++ shiftedOut w (risen n)

theorem Sent.edge {w : Byte} {old l : Line} {n : ℕ} (sda : ℕ → Bool) (h : Sent w old n l) :
    Sent w old (n + 1) (step sda l quiet) := by
  have hcore := h.core.edge (sda l.time)
  have hrises : (step sda l quiet).rises =
      if !l.core.sclO && (next l.core (quiet (sda l.time))).sclO
      then l.rises ++ [(next l.core (quiet (sda l.time))).sdaOen] else l.rises := rfl
  refine ⟨hcore, ?_⟩
  rw [hrises, h.core.scl, hcore.scl, h.rises, risen_succ]
  by_cases hrise : pos n % 4004 = 1401
  · have hbit : pos (n + 1) % 4004 ≠ 0 ∧ pos (n + 1) / 4004 = risen n := by
      simp only [risen, pos] at hrise ⊢
      omega
    rw [if_pos ((rise_iff n).mpr hrise), if_pos hrise, hcore.sda hbit.1, hbit.2, shiftedOut_succ,
      List.append_assoc]
  · rw [if_neg (mt (rise_iff n).mp hrise), if_neg hrise]

theorem sent_begun {w : Byte} {old l : Line} (h : Sending w 0 l.core)
    (hrises : l.rises = old.rises) : Sent w old 0 l :=
  ⟨h, hrises.trans (List.append_nil _).symm⟩

theorem Sent.presented {w : Byte} {old l : Line} {n : ℕ} (h : Sent w old n l) (hn : 36038 ≤ n) :
    Presented w old l := by
  have hnine : risen n = 9 := by
    simp only [risen, pos]
    omega
  rw [Presented, h.rises, hnine, shiftedOut_nine]

/-! ### A read command -/

def sampled (n : ℕ) : ℕ := (pos n + 2502) / 4004

theorem sampled_succ (n : ℕ) :
    sampled (n + 1) = if pos n % 4004 = 1501 then sampled n + 1 else sampled n := by
  by_cases hsample : pos n % 4004 = 1501
  · rw [if_pos hsample]
    simp only [sampled, pos] at hsample ⊢
    omega
  · rw [if_neg hsample]
    simp only [sampled, pos] at hsample ⊢
    omega

/-- The register holds the first eight samples, whatever comes after. -/
theorem firstEight_append (ss : List Bool) (x : Bool) (buf : Byte) :
    ((ss ++ [x]).take 8).foldl shiftIn buf =
    if ss.length ≤ 7 then shiftIn ((ss.take 8).foldl shiftIn buf) x
        else (ss.take 8).foldl shiftIn buf := by
  by_cases hless : ss.length ≤ 7
  · have hall : (ss ++ [x]).length ≤ 8 := by
      rw [List.length_append, List.length_singleton]
      omega
    rw [if_pos hless, List.take_of_length_le hall, List.take_of_length_le (by omega),
      List.foldl_append]
    rfl
  · rw [if_neg hless, List.take_append_of_le_length (by omega)]

/-- `n` edges into a read: the first eight samples were shifted in. -/
structure Received (old : Line) (n : ℕ) (l : Line) : Prop where
  core : Receiving n l.core
  high : l.core.sclO = true → l.high + 1402 = pos n % 4004
  samples : ∃ buf ss, l.samples = old.samples ++ ss ∧ ss.length = sampled n ∧
    l.core.rdBuf = (ss.take 8).foldl shiftIn buf

theorem Received.edge {old l : Line} {n : ℕ} (sda : ℕ → Bool) (h : Received old n l) :
    Received old (n + 1) (step sda l quiet) := by
  have hcore := h.core.edge (sda l.time)
  have hscl : l.core.sclO = true ↔ 1402 ≤ pos n % 4004 ∧ pos n % 4004 ≤ 2602 := by
    rw [h.core.scl, decide_eq_true_eq]
  refine ⟨hcore, fun hnext => ?_, ?_⟩
  · have hhigh : (step sda l quiet).high = if l.core.sclO then l.high + 1 else 0 := rfl
    have hphase : 1402 ≤ pos (n + 1) % 4004 ∧ pos (n + 1) % 4004 ≤ 2602 := by
      rw [← decide_eq_true_eq (p := 1402 ≤ pos (n + 1) % 4004 ∧ pos (n + 1) % 4004 ≤ 2602),
        ← hcore.scl]
      exact hnext
    rw [hhigh]
    by_cases hup : l.core.sclO = true
    · have hold := h.high hup
      have hbefore := hscl.mp hup
      rw [if_pos hup]
      simp only [pos] at hold hbefore hphase ⊢
      omega
    · have hbefore := mt hscl.mpr hup
      rw [if_neg hup]
      simp only [pos] at hbefore hphase ⊢
      omega
  · obtain ⟨buf, ss, hsamples, hlen, hbuf⟩ := h.samples
    have hline : (step sda l quiet).samples =
        if l.core.sclO && l.high == 99 then l.samples ++ [sda l.time] else l.samples := rfl
    have hsample : (l.core.sclO && l.high == 99) = true ↔ pos n % 4004 = 1501 := by
      rw [Bool.and_eq_true, beq_iff_eq, hscl]
      constructor
      · rintro ⟨hup, h99⟩
        have hat := h.high (hscl.mpr hup)
        omega
      · intro hat
        have hup : 1402 ≤ pos n % 4004 ∧ pos n % 4004 ≤ 2602 := by omega
        have hold := h.high (hscl.mpr hup)
        exact ⟨hup, by omega⟩
    obtain ⟨hread, -⟩ := read_edge (sda l.time) h.core.en h.core.cmd
    have hnew : (step sda l quiet).core.rdBuf =
        if l.core.cnt = 1501 ∧ l.core.byteCnt ≤ 7 then shiftIn l.core.rdBuf (sda l.time)
          else l.core.rdBuf := hread
    rw [hline, sampled_succ, hnew]
    by_cases hat : pos n % 4004 = 1501
    · have hn : n ≠ 0 := by
        intro h0
        rw [h0] at hat
        cases hat
      have hbit : sampled n = pos n / 4004 := by
        rw [sampled]
        omega
      refine ⟨buf, ss ++ [sda l.time], ?_, ?_, ?_⟩
      · rw [if_pos (hsample.mpr hat), hsamples, List.append_assoc]
      · rw [if_pos hat, List.length_append, hlen, List.length_singleton]
      · rw [h.core.cnt hn, h.core.byteCnt hn, ← hbit, ← hlen, hbuf, firstEight_append]
        simp only [hat, true_and]
    · rw [if_neg (mt hsample.mp hat), if_neg hat]
      -- before the first edge the counter may stand at a sample: the register shifts, but nothing
      -- was sampled
      by_cases hn : n = 0
      · have hnil : ss = [] := by
          rw [hn] at hlen
          exact List.length_eq_zero_iff.mp hlen
        rw [hnil] at hlen hsamples
        exact ⟨_, [], hsamples, hlen, rfl⟩
      · rw [h.core.cnt hn, if_neg (fun hc => hat hc.1)]
        exact ⟨buf, ss, hsamples, hlen, hbuf⟩

theorem Received.readBack {old l : Line} {n : ℕ} (h : Received old n l) (hn : 36038 ≤ n) :
    ReadBack old l := by
  obtain ⟨buf, ss, hsamples, hlen, hbuf⟩ := h.samples
  have hnine : sampled n = 9 := by
    simp only [sampled, pos]
    omega
  rw [hnine] at hlen
  have height : (ss.take 8).length = 8 := by
    rw [List.length_take, hlen]
    rfl
  refine ⟨ss, hsamples, hlen, ?_⟩
  rw [Core.i2rd, hbuf, byteBits_read _ height]

theorem received_begun {old l : Line} (h : Receiving 0 l.core)
    (hsamples : l.samples = old.samples) :
    Received old 0 l := by
  refine ⟨h, fun hup => ?_, l.core.rdBuf, [], hsamples.trans (List.append_nil _).symm, rfl, rfl⟩
  rw [h.scl] at hup
  cases hup

/-! ### Runs -/

def Carried (sda : ℕ → Bool) (l : Line) (t : Transfer) : Prop :=
  match t.cmd with
  | .write v => Presented v l (exec sda l t)
  | .read => ReadBack l (exec sda l t)
  | .start | .stop => True

/-- Between a start and a write of anything but ones, not just the cycles of one bit. -/
def Spaced (t₁ t₂ : Transfer) : Prop :=
  t₁.cmd = .start → ∀ v, t₂.cmd = .write v → v = 0xff ∨ spacing t₁ t₂ ≠ 4003

section runs
variable (sda : ℕ → Bool) {l : Line} {t : Transfer}

theorem exec_sent {w : Byte} (h : Sending w 0 (begun sda l t).core)
    (hrises : (begun sda l t).rises = l.rises)
    (hn : 36038 ≤ t.after) : Presented w l (exec sda l t) := by
  have hrun := Run.run_replicate (fun _ _ h => Sent.edge sda h) t.after (sent_begun h hrises)
  rw [Nat.zero_add] at hrun
  rw [exec_eq]
  exact hrun.presented hn

theorem exec_received (h : Receiving 0 (begun sda l t).core)
    (hsamples : (begun sda l t).samples = l.samples)
    (hn : 36038 ≤ t.after) : ReadBack l (exec sda l t) := by
  have hrun :=
    Run.run_replicate (fun _ _ h => Received.edge sda h) t.after (received_begun h hsamples)
  rw [Nat.zero_add] at hrun
  rw [exec_eq]
  exact hrun.readBack hn

theorem shiftIn_eq_iff : ∀ v : Byte, byteBits (shiftIn v true) = byteBits v ↔ v = 0xff := by
  decide +kernel

theorem carried_address {t₁ : Transfer} {v : Byte} (hcmd : t₁.cmd = .start) (hle : 2604 ≤ t₁.after)
    (h : Starting t₁.after l.core) (hv : t.cmd = .write v) (hn : 36038 ≤ t.after) :
    Carried sda l t ↔ Spaced t₁ t := by
  obtain ⟨hsend, hrises⟩ := begun_address sda hle h hv
  have hpresented : (exec sda l t).rises =
      l.rises ++ (byteBits (if spacing t₁ t = 4003 then shiftIn v true else v) ++ [true]) :=
        exec_sent sda hsend hrises hn
  have hspaced : Spaced t₁ t ↔ v = 0xff ∨ spacing t₁ t ≠ 4003 := by
    rw [Spaced, hv]
    exact ⟨fun h => h hcmd v rfl, fun h _ v' hv' => Cmd.write.inj hv' ▸ h⟩
  have hcarried : Carried sda l t ↔ (exec sda l t).rises = l.rises ++ (byteBits v ++ [true]) := by
    rw [Carried, hv]
    rfl
  rw [hcarried, hspaced, hpresented, List.append_cancel_left_eq, List.append_cancel_right_eq]
  by_cases hearly : spacing t₁ t = 4003
  · rw [if_pos hearly, shiftIn_eq_iff]
    exact (or_iff_left (not_not_intro hearly)).symm
  · rw [if_neg hearly]
    exact iff_of_true rfl (Or.inr hearly)

theorem carried_held (h : Held l.core) (hn : Cmd.cycles t.cmd ≤ t.after) : Carried sda l t := by
  obtain ⟨hrises, hsamples, hwrite, hread, -⟩ := begun_held sda (t := t) h
  rw [Carried]
  cases hc : t.cmd with
  | write v =>
    rw [hc] at hn
    exact exec_sent sda (hwrite v hc) hrises hn
  | read =>
    rw [hc] at hn
    exact exec_received sda (hread hc) hsamples hn
  | start | stop => trivial

theorem carried_step {p : Option Transfer} (h : Waits p t.cmd l.core)
    (hn : Cmd.cycles t.cmd ≤ t.after) :
    Carried sda l t ↔ ∀ t₁, p = some t₁ → Spaced t₁ t := by
  have hfree (hstart : t.cmd = .start) : Carried sda l t ↔ ∀ t₁, p = some t₁ → Spaced t₁ t := by
    refine iff_of_true ?_ fun t₁ _ _ v hv => ?_
    · rw [Carried, hstart]
      trivial
    · rw [hstart] at hv
      cases hv
  generalize hc : t.cmd = c at h
  cases h with
  | fresh _ => exact hfree hc
  | stopped _ _ => exact hfree hc
  | @started t₁ _ hcmd hle hs v =>
    rw [hc] at hn
    rw [carried_address sda hcmd hle hs hc hn]
    exact ⟨fun h t' ht' => Option.some.inj ht' ▸ h, fun h => h t₁ rfl⟩
  | @held t₁ _ _ hcmd _ hh =>
    refine iff_of_true (carried_held sda hh hn) fun t' ht' hstart => ?_
    rw [← Option.some.inj ht'] at hstart
    exact absurd hstart hcmd

theorem carried_from {p : Option Transfer} {ts : List Transfer}
    (hf : Run.Meets last Follows (p.map Transfer.cmd) (ts.map Transfer.cmd)) (h : Rest p l.core)
    (hdone : ∀ t ∈ ts, Cmd.cycles t.cmd ≤ t.after) :
    Run.Meets (exec sda) (Carried sda) l ts ↔
      (∀ t₁, p = some t₁ → ∀ t ∈ ts.head?, Spaced t₁ t) ∧ ts.IsChain Spaced := by
  induction ts generalizing p l with
  | nil =>
    refine iff_of_true trivial ⟨fun t₁ _ t ht => ?_, .nil⟩
    cases ht
  | cons t ts ih =>
    have hwaits := rest_waits h hf.1
    rw [List.forall_mem_cons] at hdone
    have hrest : Rest (some t) (exec sda l t).core := ⟨hdone.1, exec_under sda hwaits⟩
    have hnext : (∀ t₁, some t = some t₁ → ∀ y ∈ ts.head?, Spaced t₁ y) ↔
        ∀ y ∈ ts.head?, Spaced t y :=
      ⟨fun h => h t rfl, fun h t₁ ht₁ => Option.some.inj ht₁ ▸ h⟩
    have hhead (t₁ : Transfer) : (∀ y ∈ (t :: ts).head?, Spaced t₁ y) ↔ Spaced t₁ t :=
      ⟨fun h => h t rfl, fun h y hy => Option.some.inj hy ▸ h⟩
    rw [Run.Meets, carried_step sda hwaits hdone.1, ih (p := some t) hf.2 hrest hdone.2,
      List.isChain_cons, hnext]
    simp only [hhead]

end runs

/-- **Every byte is carried exactly when no write of a byte other than ones follows a start by 4003
cycles.** -/
theorem carried_iff (sda : ℕ → Bool) (ts : List Transfer) (hissued : Issued ts)
    (hdone : Completed sda ts) :
    Run.Meets (exec sda) (Carried sda) Line.reset ts ↔ ts.IsChain Spaced := by
  have hcycles := (completed_iff sda hissued).mp hdone
  rw [carried_from sda (p := none) (issued_follows hissued) rest_reset hcycles]
  refine and_iff_right fun t₁ ht₁ => ?_
  cases ht₁

theorem reading_carried : Run.Meets (exec released) (Carried released) Line.reset reading := by
  refine (carried_iff released reading reading_issued reading_completed).mpr ?_
  simp [reading, Call.cmds, Spaced, spacing, Transfer.prepare, Cmd.cycles]

def earlyStart : Transfer := ⟨.start, 0, 0, 2604⟩
def earlyAddress : Transfer := ⟨.write 0x90, 1387, 10, 36038⟩

theorem early_spacing : spacing earlyStart earlyAddress = 4003 := by
  rw [spacing, prepare_length rfl]
  rfl

/-- The same start with its address 4003 cycles later: of 0x90 the slave sees 0x21. -/
theorem early_shifted :
    Issued [earlyStart, earlyAddress] ∧ Completed released [earlyStart, earlyAddress] ∧
    Presented 0x21 (exec released Line.reset earlyStart)
      (exec released (exec released Line.reset earlyStart) earlyAddress) ∧
    ¬Run.Meets (exec released) (Carried released) Line.reset [earlyStart, earlyAddress] := by
  have hissued : Issued [earlyStart, earlyAddress] := ⟨[.twiRead2byte 0x48], by decide⟩
  have hcycles : ∀ t ∈ [earlyStart, earlyAddress], Cmd.cycles t.cmd ≤ t.after := by decide
  have hstart := exec_under released (l := Line.reset) (t := earlyStart) (.fresh rest_reset)
  obtain ⟨hsend, hrises⟩ := begun_address released (t := earlyAddress) (Nat.le_refl 2604) hstart rfl
  rw [if_pos early_spacing] at hsend
  refine ⟨hissued, (completed_iff released hissued).mpr hcycles,
    exec_sent released hsend hrises (Nat.le_refl 36038), fun hmeets => ?_⟩
  have hcarried :=
    (carried_address released rfl (Nat.le_refl 2604) hstart rfl (Nat.le_refl 36038)).mp hmeets.2.1
  rcases hcarried rfl 0x90 rfl with hones | hspacing
  · revert hones
    decide
  · exact hspacing early_spacing

end HashRatio.TwiTransfer
