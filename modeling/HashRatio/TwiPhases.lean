import HashRatio.TwiMaster

/-!
# Where a command is, cycle by cycle

Each register in closed form over the clock edges since a command was written to
the control register, and that one more edge keeps it so.
-/

namespace HashRatio.TwiPhases
open Bytes TwiCore TwiMaster

section phases
variable {s : Core} {n : ℕ}

/-! ### Start and stop -/

/-- `n` edges into a start or stop: the counter runs on until it wraps to zero. -/
structure Timed (cmd : BitVec 3) (n : ℕ) (s : Core) : Prop where
  en : s.enR = true
  cmd : s.cmdR = cmd
  init : s.initR = decide (n = 0)
  cnt : n ≠ 0 → s.cnt = if n < 4096 then n else 0
  done : s.done = decide (2604 ≤ n)

theorem Timed.edge {cmd : BitVec 3} (hcmd : cmd = 0 ∨ cmd = 3) (h : Timed cmd n s) (x : Bool) :
    Timed cmd (n + 1) (next s (quiet x)) := by
  obtain ⟨hcnt, hdone⟩ := timed_edge x h.en (h.cmd ▸ hcmd)
  refine ⟨h.en, h.cmd, rfl, fun _ => ?_, ?_⟩
  · rw [hcnt, h.init]
    by_cases hn : n = 0
    · simp [hn]
    · have hat := h.cnt hn
      grind
  · rw [hdone, h.init, h.done]
    by_cases hn : n = 0
    · simp [hn]
    · have hat := h.cnt hn
      grind

structure Starting (n : ℕ) (s : Core) : Prop extends Timed 0 n s where
  stale : n = 0 → s.cnt ≠ 1201 ∧ s.cnt ≠ 1302
  scl : s.sclO = decide (n ≤ 1302)
  sda : s.sdaOen = decide (n ≤ 1201)

theorem Starting.edge (h : Starting n s) (x : Bool) : Starting (n + 1) (next s (quiet x)) := by
  obtain ⟨hscl, hsda⟩ := start_edge x h.en h.cmd
  have hstale := h.stale
  have hat := h.cnt
  refine ⟨h.toTimed.edge (Or.inl rfl) x, fun h0 => absurd h0 (Nat.succ_ne_zero n), ?_, ?_⟩
  · rw [hscl, h.scl]
    grind
  · rw [hsda, h.sda]
    grind

structure Stopping (n : ℕ) (s : Core) : Prop extends Timed 3 n s where
  stale : n = 0 → s.cnt = 0
  scl : s.sclO = decide (1402 ≤ n)
  sda : n ≠ 0 → s.sdaOen = decide (1453 ≤ n)

theorem Stopping.edge (h : Stopping n s) (x : Bool) : Stopping (n + 1) (next s (quiet x)) := by
  obtain ⟨hscl, hsda⟩ := stop_edge x h.en h.cmd
  have hstale := h.stale
  have hat := h.cnt
  refine ⟨h.toTimed.edge (Or.inr rfl) x, fun h0 => absurd h0 (Nat.succ_ne_zero n), ?_, fun _ => ?_⟩
  · rw [hscl, h.scl]
    grind
  · rw [hsda, h.init]
    have hsda := h.sda
    grind

/-! ### The nine bits -/

/-- Cycles into the bits; a write or a read stays at the end of the ninth. -/
def pos (n : ℕ) : ℕ := min (n - 1) 36036

theorem pos_succ (h : n ≠ 0) : pos (n + 1) = if pos n < 36036 then pos n + 1 else pos n := by
  rw [pos, pos]
  split <;> omega

theorem pos_le (n : ℕ) : pos n ≤ 36036 := min_le_right ..

/-- Except at its first cycle a bit is the one of the cycle before. -/
theorem pos_within (h : pos (n + 1) % 4004 ≠ 0) : n ≠ 0 ∧ pos (n + 1) / 4004 = pos n / 4004 := by
  have hn : n ≠ 0 := by
    intro h0
    rw [h0] at h
    exact h rfl
  have hle := pos_le n
  rw [pos_succ hn] at h ⊢
  refine ⟨hn, ?_⟩
  split at h <;> split <;> omega

structure Moving (cmd : BitVec 3) (n : ℕ) (s : Core) : Prop where
  en : s.enR = true
  cmd : s.cmdR = cmd
  init : s.initR = decide (n = 0)
  stale : n = 0 → s.cnt ≠ 1401
  cnt : n ≠ 0 → s.cnt = pos n % 4004
  byteCnt : n ≠ 0 → s.byteCnt = pos n / 4004
  scl : s.sclO = decide (1402 ≤ pos n % 4004 ∧ pos n % 4004 ≤ 2602)
  done : s.done = decide (36038 ≤ n)

theorem Moving.edge {cmd : BitVec 3} (hcmd : cmd = 1 ∨ cmd = 2) (h : Moving cmd n s) (x : Bool) :
    Moving cmd (n + 1) (next s (quiet x)) := by
  obtain ⟨hcnt, hbyte, hdone, hscl⟩ := clocked_edge x h.en (h.cmd ▸ hcmd)
  rw [h.init] at hcnt hbyte hdone
  by_cases hn : n = 0
  · subst hn
    have hstale := h.stale rfl
    refine ⟨h.en, h.cmd, rfl, fun h0 => absurd h0 (Nat.succ_ne_zero _), fun _ => hcnt,
      fun _ => hbyte, ?_, hdone⟩
    rw [hscl, h.scl, if_neg hstale]
    simp [pos]
  · have hle := pos_le n
    have hsucc := pos_succ hn
    have hat := h.cnt hn
    have hbits := h.byteCnt hn
    refine ⟨h.en, h.cmd, rfl, fun h0 => absurd h0 (Nat.succ_ne_zero _), fun _ => ?_,
      fun _ => ?_, ?_, ?_⟩
    · rw [hcnt, hsucc, hat, hbits]
      grind
    · rw [hbyte, hsucc, hat, hbits]
      grind
    · rw [hscl, hsucc, hat, h.scl]
      grind
    · rw [hdone, hbits, h.done]
      simp only [pos]
      grind

/-- A write of what the shift register holds: the top bit is on SDA one edge later. -/
structure Sending (w : Byte) (n : ℕ) (s : Core) : Prop extends Moving 1 n s where
  first : n = 0 → w = if s.cnt = 4003 then shiftIn s.i2wdR true else s.i2wdR
  i2wd : n ≠ 0 → s.i2wdR = shiftOnes w (pos n / 4004)
  sda : pos n % 4004 ≠ 0 → s.sdaOen = (shiftOnes w (pos n / 4004)).getLsbD 7

theorem Sending.edge {w : Byte} (h : Sending w n s) (x : Bool) :
    Sending w (n + 1) (next s (quiet x)) := by
  obtain ⟨hwd, hsda⟩ := write_edge x h.en h.cmd
  refine ⟨h.toMoving.edge (Or.inl rfl) x, fun h0 => absurd h0 (Nat.succ_ne_zero _), fun _ =>
    ?_, fun hpos => ?_⟩
  · by_cases hn : n = 0
    · rw [hwd, ← h.first hn, hn]
      rfl
    · have hle := pos_le n
      rw [hwd, h.cnt hn, h.i2wd hn, pos_succ hn]
      by_cases hend : pos n % 4004 = 4003
      · have hlt : pos n < 36036 := by omega
        have hdiv : (pos n + 1) / 4004 = pos n / 4004 + 1 := by omega
        rw [if_pos hend, if_pos hlt, hdiv]
        rfl
      · have hdiv : (if pos n < 36036 then pos n + 1 else pos n) / 4004 = pos n / 4004 := by
          split <;> omega
        rw [if_neg hend, hdiv]
  · obtain ⟨hn, hbit⟩ := pos_within hpos
    rw [hsda, h.i2wd hn, hbit]

/-- A read: SDA is released for eight bits and held low in the ninth. -/
structure Receiving (n : ℕ) (s : Core) : Prop extends Moving 2 n s where
  sda : pos n % 4004 ≠ 0 → s.sdaOen = decide (pos n / 4004 < 8)

theorem Receiving.edge (h : Receiving n s) (x : Bool) : Receiving (n + 1) (next s (quiet x)) := by
  obtain ⟨-, hsda⟩ := read_edge x h.en h.cmd
  refine ⟨h.toMoving.edge (Or.inr rfl) x, fun hpos => ?_⟩
  obtain ⟨hn, hbit⟩ := pos_within hpos
  have hle := pos_le n
  have hlow : ∀ k ≤ 9, (!(k == 8 || k == 9)) = decide (k < 8) := by decide
  rw [hsda, h.byteCnt hn, hbit]
  exact hlow _ (by omega)

/-! ### Between commands -/

structure Fresh (s : Core) : Prop where
  en : s.enR = false
  cnt : s.cnt = 0
  scl : s.sclO = true
  sda : s.sdaOen = true

theorem Fresh.edge (h : Fresh s) (x : Bool) : Fresh (next s (quiet x)) := by
  constructor <;> simp [next, quiet, h.en]

structure Held (s : Core) : Prop where
  en : s.enR = true
  cmd : s.cmdR = 1 ∨ s.cmdR = 2
  init : s.initR = false
  cnt : s.cnt = 0
  byteCnt : s.byteCnt = 9
  scl : s.sclO = false
  done : s.done = true

theorem Held.edge (h : Held s) (x : Bool) : Held (next s (quiet x)) := by
  obtain ⟨hcnt, hbyte, hdone, hscl⟩ := clocked_edge x h.en h.cmd
  rw [h.init, h.cnt, h.byteCnt] at hcnt
  rw [h.init, h.cnt, h.byteCnt] at hbyte
  rw [h.init, h.byteCnt] at hdone
  rw [h.cnt] at hscl
  exact ⟨h.en, h.cmd, rfl, hcnt, hbyte, hscl, hdone⟩

theorem Moving.held {cmd : BitVec 3} (hcmd : cmd = 1 ∨ cmd = 2) (h : Moving cmd n s)
    (hn : 36038 ≤ n) : Held s := by
  have hn0 : n ≠ 0 := by omega
  have hpos : pos n = 36036 := by
    rw [pos]
    omega
  have hcnt := h.cnt hn0
  have hbyte := h.byteCnt hn0
  have hscl := h.scl
  have hinit := h.init
  have hdone := h.done
  rw [hpos] at hcnt hbyte hscl
  rw [decide_eq_false hn0] at hinit
  rw [decide_eq_true hn] at hdone
  exact ⟨h.en, h.cmd ▸ hcmd, hinit, hcnt, hbyte, hscl, hdone⟩

/-! ### Writes to the registers -/

theorem start_begins {x : Bool}
    (hstale : (next s (quiet x)).cnt ≠ 1201 ∧ (next s (quiet x)).cnt ≠ 1302)
    (hscl : (next s (quiet x)).sclO = true) (hsda : (next s (quiet x)).sdaOen = true) :
    Starting 0 (next s (put i2crAddr Cmd.start.cr x)) := by
  rw [next_cr]
  exact ⟨⟨rfl, rfl, rfl, absurd rfl, rfl⟩, fun _ => hstale, hscl, hsda⟩

theorem byte_begins {x : Bool} (c : Cmd) (hstale : (next s (quiet x)).cnt ≠ 1401)
    (hscl : (next s (quiet x)).sclO = false) : Moving c.code 0 (next s (put i2crAddr c.cr x)) := by
  have hdone : false = decide (36038 ≤ 0) := (decide_eq_false (Nat.not_succ_le_zero _)).symm
  rw [next_cr]
  exact ⟨rfl, rfl, rfl, fun _ => hstale, absurd rfl, absurd rfl, hscl, hdone⟩

theorem write_begins {x : Bool} (v : Byte) (hstale : (next s (quiet x)).cnt ≠ 1401)
    (hscl : (next s (quiet x)).sclO = false) (hwd : (next s (quiet x)).i2wdR = s.i2wdR) :
    Sending (if (next s (quiet x)).cnt = 4003 then shiftIn s.i2wdR true else s.i2wdR) 0
      (next s (put i2crAddr (Cmd.write v).cr x)) := by
  refine ⟨byte_begins (.write v) hstale hscl, fun _ => ?_, absurd rfl, absurd rfl⟩
  rw [next_cr, ← hwd]

theorem Fresh.start (h : Fresh s) (x : Bool) :
    Starting 0 (next s (put i2crAddr Cmd.start.cr x)) := by
  have h' := h.edge x
  refine start_begins ?_ h'.scl h'.sda
  rw [h'.cnt]
  decide

theorem Stopping.start (h : Stopping n s) (hn : 2604 ≤ n) (x : Bool) :
    Starting 0 (next s (put i2crAddr Cmd.start.cr x)) := by
  have h' := h.edge x
  refine start_begins ?_ ?_ ?_
  · rw [h'.cnt (Nat.succ_ne_zero n)]
    split <;> omega
  · rw [h'.scl, decide_eq_true]
    omega
  · rw [h'.sda (Nat.succ_ne_zero n), decide_eq_true]
    omega

theorem Starting.i2wdR (h : Starting n s) (x : Bool) : (next s (quiet x)).i2wdR = s.i2wdR := by
  apply i2wdR_edge x
  rw [h.cmd]
  exact Or.inl (by decide)

/-- After a start the counter still runs when the write command comes. -/
theorem Starting.write (h : Starting n s) (hn : 2604 ≤ n) (v : Byte) (x : Bool) :
    Sending (if n = 4002 then shiftIn s.i2wdR true else s.i2wdR) 0
      (next s (put i2crAddr (Cmd.write v).cr x)) := by
  have h' := h.edge x
  have hcnt := h'.cnt (Nat.succ_ne_zero n)
  have hscl : (next s (quiet x)).sclO = false := by
    rw [h'.scl, decide_eq_false]
    omega
  have hstale : (next s (quiet x)).cnt ≠ 1401 := by
    rw [hcnt]
    split <;> omega
  -- the start still counts at the edge that writes the register
  have hend : (next s (quiet x)).cnt = 4003 ↔ n = 4002 := by
    rw [hcnt]
    split <;> omega
  have hsend := write_begins v hstale hscl (h.i2wdR x)
  simp only [hend] at hsend
  exact hsend

section held
variable (x : Bool)

theorem Held.i2wdR (h : Held s) : (next s (quiet x)).i2wdR = s.i2wdR := by
  apply i2wdR_edge x
  rw [h.cnt]
  exact Or.inr (by decide)

theorem Held.stale (h : Held s) : (next s (quiet x)).cnt ≠ 1401 := by
  rw [(h.edge x).cnt]
  decide

theorem Held.write (h : Held s) (v : Byte) :
    Sending s.i2wdR 0 (next s (put i2crAddr (Cmd.write v).cr x)) := by
  have hsend := write_begins v (h.stale x) (h.edge x).scl (h.i2wdR x)
  rw [(h.edge x).cnt] at hsend
  exact hsend

theorem Held.read (h : Held s) : Receiving 0 (next s (put i2crAddr Cmd.read.cr x)) :=
  ⟨byte_begins .read (h.stale x) (h.edge x).scl, absurd rfl⟩

theorem Held.stop (h : Held s) : Stopping 0 (next s (put i2crAddr Cmd.stop.cr x)) := by
  have h' := h.edge x
  rw [next_cr]
  exact ⟨⟨rfl, rfl, rfl, absurd rfl, rfl⟩, fun _ => h'.cnt, h'.scl, absurd rfl⟩

end held

end phases

end HashRatio.TwiPhases
