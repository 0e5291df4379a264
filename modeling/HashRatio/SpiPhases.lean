import HashRatio.SpiTransfer

/-!
# Where a byte is on its way through the SPI master

At rest, queued behind the byte before it, or so many edges into its bits: each
phase as a structure of closed forms, and that one more edge keeps it so.
-/

namespace HashRatio.SpiPhases
open Bytes Spi SpiFrame SpiTransfer

/-! ### What the port does to the registers -/

section port
variable (p : Port)

def sends : Bool := p.regWr && p.dw04Cs
def selects : Bool := p.regWr && p.dw10Cs
def controls : Bool := p.regWr && p.dw0cCs
def takes : Bool := p.regRd && p.dw00Cs && p.ack

end port

structure Quiet (p : Port) : Prop where
  sends : sends p = false
  selects : selects p = false
  controls : controls p = false
  takes : takes p = false

/-- Like `Quiet`, but for the second cycle of a write to the data register. -/
structure Steady (p : Port) : Prop where
  again : (SpiPhases.sends p && p.ack) = false
  selects : SpiPhases.selects p = false
  controls : SpiPhases.controls p = false
  takes : SpiPhases.takes p = false

theorem Quiet.steady {p : Port} (h : Quiet p) : Steady p :=
  ⟨by rw [h.sends, Bool.false_and], h.selects, h.controls, h.takes⟩

/-- No access is under way. -/
structure Still (p : Port) : Prop where
  wr : p.regWr = false
  rd : p.regRd = false
  ack : p.ack = false
  wait : p.readWaitDone = false

theorem Still.quiet {p : Port} (h : Still p) : Quiet p := by
  constructor <;> simp [sends, selects, controls, takes, h.wr, h.rd]

theorem still_reset : Still Port.reset := ⟨rfl, rfl, rfl, rfl⟩

/-! ### The engine's events -/

section events
variable {n : ℕ} {s : Regs}

theorem timed_trans (h : Timed n s.shifter) :
    (s.shifter.cStatus ≠ .trans ∧ s.nStatus = .trans) ↔ n = 31 := by
  have hcap := h.cap
  rw [Regs.nStatus, h.status, h.nStatus]
  cases region n <;> grind [statusAt, after]

theorem timed_received (h : Timed n s.shifter) :
    (s.nStatus = .turnaround ∧ s.shifter.clockCnt = clockSel) ↔ n = 287 := by
  have hcap := h.cap
  rw [Regs.nStatus, h.nStatus, h.clockCnt, clockSel_eq]
  cases region n <;> grind [statusAt, after]

theorem timed_load (h : Timed n s.shifter) : s.shifter.cStatus = .load ↔ n = 0 := by
  rw [h.status]
  cases region n <;> grind [statusAt]

theorem timed_selected (h : Timed n s.shifter) :
    (s.shifter.cStatus = .trans ∨ s.shifter.cStatus = .wait ∨ s.shifter.cStatus = .turnaround) ↔
      1 ≤ n ∧ n < 304 := by
  rw [h.status]
  cases region n <;> grind [statusAt]

end events

/-! ### Where a byte is -/

structure Common (n : ℕ) (trdy rrdy pending : Bool) (mask : Byte) (s : Regs) : Prop where
  timed : Timed n s.shifter
  trdy : s.regTrdy = trdy
  rrdy : s.regRrdy = rrdy
  pending : s.pendingData = pending
  toe : s.regToe = false
  roe : s.regRoe = false
  sso : s.regSso = false
  ssmask : s.regSsmask = mask

theorem Common.edge {n : ℕ} {t r p : Bool} {mask : Byte} {s : Regs} (h : Common n t r p mask s)
    (hcontrols : controls s.port = false) (ht : (!t && sends s.port && s.port.ack) = false)
    (hr : n = 287 → r = false) (c : Cycle) (x : Bool) :
    Common (after n p) (if n = 31 then true else if sends s.port && s.port.ack then false else t)
      (if n = 287 then true else if takes s.port then false else r)
      (if sends s.port then true else if n = 0 then false else p)
      (if selects s.port then s.port.latchSData.setWidth 8 else mask) (next s c x) := by
  have hp := h.pending
  subst hp
  refine ⟨h.timed.edge s.pendingData s.regTxdata x, ?_, ?_, ?_, ?_, ?_, ?_, ?_⟩
  · simp only [next, timed_trans h.timed, h.trdy]
    rfl
  · simp only [next, timed_received h.timed, h.rrdy]
    split
    · simp
    · rfl
  · simp only [next, timed_load h.timed]
    rfl
  · have htoe : (!s.regTrdy && s.port.regWr && s.port.dw04Cs && s.port.ack) = false := by
      rwa [h.trdy, Bool.and_assoc (!t)]
    simp only [next, htoe, Bool.false_eq_true, if_false, h.toe, ite_self]
  · simp only [next, timed_received h.timed, h.rrdy, h.roe, ite_self]
    split
    · rename_i hn
      simp [hr hn]
    · rfl
  · have hsso : (s.port.regWr && s.port.dw0cCs) = false := hcontrols
    simp only [next, hsso, Bool.false_eq_true, if_false, h.sso]
  · simp only [next, h.ssmask]
    rfl

theorem Common.quiet {n : ℕ} {t r p : Bool} {mask : Byte} {s : Regs} (h : Common n t r p mask s)
    (hq : Quiet s.port) (hr : n = 287 → r = false) (c : Cycle) (x : Bool) :
    Common (after n p) (if n = 31 then true else t) (if n = 287 then true else r)
      (if n = 0 then false else p) mask (next s c x) := by
  have hedge := h.edge hq.controls (by rw [hq.sends, Bool.and_false, Bool.false_and]) hr c x
  rwa [hq.sends, hq.selects, hq.takes, Bool.false_and, if_neg Bool.false_ne_true,
    if_neg Bool.false_ne_true, if_neg Bool.false_ne_true, if_neg Bool.false_ne_true] at hedge

def Pulse.out (p : Pulse) : Byte × Bool := (p.ssN, p.mosi)

/-- The bits of bytes at the rising edges, under the selects they go to. -/
def sent (mask : Byte) (bs : List Byte) : List (Byte × Bool) := (bits bs).map fun b => (~~~mask, b)

/-- No byte is on its way, or what came back was read. -/
structure Rest (mask : Byte) (old : List Pulse) (n : ℕ) (l : Line) : Prop extends
    Common n true false false mask l.regs where
  late : 289 ≤ n
  pulses : l.pulses = old

/-- The byte waits in the data register for the engine to be idle. -/
structure Queued (mask w : Byte) (old : List Pulse) (n : ℕ) (l : Line) : Prop extends
    Common n false false true mask l.regs where
  late : 289 ≤ n
  txdata : l.regs.regTxdata = w
  pulses : l.pulses = old

/-- `n` edges into the byte. -/
structure Busy (mask w : Byte) (old : List Pulse) (n : ℕ) (l : Line) : Prop extends
    Common n (decide (32 ≤ n)) (decide (288 ≤ n)) (decide (n = 0)) mask l.regs where
  shifting : Shifting w n l.regs.shifter
  txdata : l.regs.regTxdata = w
  ssN : 2 ≤ n → n ≤ 304 → l.regs.ssN = ~~~mask
  pulses : ∃ buf ps, l.pulses = old ++ ps ∧
    ps.map Pulse.out = ((byteBits w).take (risen n)).map (fun b => (~~~mask, b)) ∧
    l.regs.shifter.rxShiftData = (ps.map Pulse.miso).foldl shiftIn buf
  rxdata : 289 ≤ n → l.regs.regRxdata = l.regs.shifter.rxShiftData

section phases
variable {m : ℕ → Bool} {mask w : Byte} {old : List Pulse} {n : ℕ} {l : Line} {c : Cycle}

theorem step_pulses (h : Timed n l.regs.shifter) : (step m l c).pulses =
    if Rise n then l.pulses ++ [⟨(step m l c).regs.ssN, (step m l c).regs.shifter.mosi, m l.time⟩]
    else l.pulses := by
  have hsclk := h.sclk
  have hnext := (h.edge l.regs.pendingData l.regs.regTxdata (m l.time)).sclk
  have hrise := rise_iff h.cap l.regs.pendingData
  have hstep : (next l.regs c (m l.time)).shifter.sclk =
    (l.regs.shifter.next l.regs.pendingData l.regs.regTxdata (m l.time)).sclk := rfl
  simp only [step, hstep, hnext, hsclk, hrise]

theorem not_rise (h : 288 ≤ n) : ¬ Rise n := fun hrise => by
  have hlt := hrise.2.1
  omega

theorem Rest.edge (h : Rest mask old n l) (hq : Quiet l.regs.port) :
    Rest mask old (after n false) (step m l c) := by
  have hlate := h.late
  have hcommon := h.toCommon.quiet hq (fun _ => rfl) c (m l.time)
  rw [if_neg (by omega), if_neg (by omega), if_neg (by omega)] at hcommon
  refine ⟨hcommon, ?_, ?_⟩
  · rw [after]
    split
    · omega
    · decide
  · rw [step_pulses h.timed, if_neg (not_rise (by omega)), h.pulses]

theorem next_txdata (h : sends l.regs.port = false ∨ l.regs.regTrdy = false) :
    (step m l c).regs.regTxdata = l.regs.regTxdata := by
  have hkeep : (l.regs.port.regWr && l.regs.port.dw04Cs && l.regs.regTrdy) = false := by
    rcases h with h | h
    · exact (congrArg (· && l.regs.regTrdy) h).trans (Bool.false_and _)
    · rw [h, Bool.and_false]
  simp only [step, next, hkeep, Bool.false_eq_true, if_false]

theorem Queued.common (h : Queued mask w old n l) (hp : Steady l.regs.port) :
    Common (after n true) false false true mask (step m l c).regs := by
  have hlate := h.late
  have hedge := h.toCommon.edge hp.controls
    (by rw [Bool.not_false, Bool.true_and, hp.again]) (fun _ => rfl) c
    (m l.time)
  rw [hp.again, hp.selects, hp.takes, if_neg (by omega), if_neg Bool.false_ne_true,
    if_neg (by omega), if_neg Bool.false_ne_true, if_neg (by omega : n ≠ 0), ite_self] at hedge
  exact hedge

theorem Queued.edge (h : Queued mask w old n l) (hp : Steady l.regs.port) (hn : n < 352) :
    Queued mask w old (n + 1) (step m l c) := by
  have hlate := h.late
  have hcommon := h.common (m := m) (c := c) hp
  rw [after, if_pos hn] at hcommon
  refine ⟨hcommon, by omega, (next_txdata (Or.inr h.trdy)).trans h.txdata, ?_⟩
  rw [step_pulses h.timed, if_neg (not_rise (by omega)), h.pulses]

theorem Queued.begins (h : Queued mask w old n l) (hp : Steady l.regs.port) (hn : n = 352) :
    Busy mask w old 0 (step m l c) := by
  have hcommon := h.common (m := m) (c := c) hp
  subst hn
  refine ⟨hcommon, ⟨hcommon.timed, ?_, ?_⟩,
    (next_txdata (Or.inr h.trdy)).trans h.txdata, ?_, ?_, ?_⟩
  · exact fun lo => absurd lo (by decide)
  · exact fun lo => absurd lo (by decide)
  · exact fun lo => absurd lo (by decide)
  · refine ⟨(step m l c).regs.shifter.rxShiftData, [], ?_, rfl, rfl⟩
    rw [step_pulses h.timed, if_neg (not_rise (by decide)), h.pulses, List.append_nil]
  · exact fun lo => absurd lo (by decide)

theorem take_bits (w : Byte) {k : ℕ} (hk : k ≤ 7) :
    (byteBits w).take (k + 1) = (byteBits w).take k ++ [w.getLsbD (7 - k)] := by
  have hlt : k < (byteBits w).length := by
    rw [byteBits_length]
    omega
  have hget : (byteBits w)[k] = w.getLsbD (7 - k) := by
    simp only [byteBits, List.getElem_map, List.getElem_range]
  rw [List.take_succ_eq_append_getElem hlt, hget]

/-- A rising edge adds its pulse and shifts its level in; no other edge does either. -/
theorem Busy.pulses_edge (h : Busy mask w old n l)
    (hselects : 2 ≤ n + 1 → n + 1 ≤ 304 → (step m l c).regs.ssN = ~~~mask)
    (hshift : n < 352 → Shifting w (n + 1) (step m l c).regs.shifter) :
    ∃ buf ps, (step m l c).pulses = old ++ ps ∧
      ps.map Pulse.out = ((byteBits w).take (risen (n + 1))).map (fun b => (~~~mask, b)) ∧
      (step m l c).regs.shifter.rxShiftData = (ps.map Pulse.miso).foldl shiftIn buf := by
  obtain ⟨buf, ps, hps, hout, hrx⟩ := h.pulses
  have hrx' : (step m l c).regs.shifter.rxShiftData =
      if Rise n then shiftIn l.regs.shifter.rxShiftData (m l.time)
          else l.regs.shifter.rxShiftData :=
    h.timed.rx_edge l.regs.pendingData l.regs.regTxdata (m l.time)
  rw [step_pulses h.timed, hrx', risen_succ]
  by_cases hrise : Rise n
  · have hin : 32 ≤ n ∧ n < 288 ∧ n % 32 = 15 := hrise
    have hbit : bitNo (n + 1) = risen n ∧ risen n ≤ 7 := by
      simp only [bitNo, risen]
      omega
    have hmosi : (step m l c).regs.shifter.mosi = w.getLsbD (7 - risen n) := by
      rw [(hshift (by omega)).mosi (by omega) (by omega), hbit.1]
    rw [if_pos hrise, if_pos hrise, if_pos hrise, take_bits w hbit.2,
      hselects (by omega) (by omega), hmosi]
    refine ⟨buf, ps ++ [⟨~~~mask, w.getLsbD (7 - risen n), m l.time⟩], ?_, ?_, ?_⟩
    · rw [hps, List.append_assoc]
    · rw [List.map_append, hout, List.map_append]
      rfl
    · rw [List.map_append, List.foldl_append, ← hrx]
      rfl
  · rw [if_neg hrise, if_neg hrise, if_neg hrise]
    exact ⟨buf, ps, hps, hout, hrx⟩

theorem Busy.rxdata_edge (h : Busy mask w old n l) (hn : 288 ≤ n) :
    (step m l c).regs.regRxdata = (step m l c).regs.shifter.rxShiftData := by
  have hrx : (step m l c).regs.shifter.rxShiftData = l.regs.shifter.rxShiftData :=
    (h.timed.rx_edge l.regs.pendingData l.regs.regTxdata (m l.time)).trans (if_neg (not_rise hn))
  rw [hrx]
  simp only [step, next, h.timed.rxLatch, decide_eq_true_eq]
  by_cases hlatch : n = 288
  · rw [if_pos hlatch]
  · rw [if_neg hlatch]
    exact h.rxdata (by omega)

theorem Busy.edge (h : Busy mask w old n l) (hq : Quiet l.regs.port) :
    Busy mask w old (min (n + 1) 352) (step m l c) := by
  have hcap := h.timed.cap
  have hafter : after n (decide (n = 0)) = min (n + 1) 352 := by grind [after]
  have htrdy : (if n = 31 then true else decide (32 ≤ n)) = decide (32 ≤ min (n + 1) 352) := by
    grind
  have hrrdy : (if n = 287 then true else decide (288 ≤ n)) = decide (288 ≤ min (n + 1) 352) := by
    grind
  have hpending : (if n = 0 then false else decide (n = 0)) = decide (min (n + 1) 352 = 0) := by
    grind
  have hcommon := h.toCommon.quiet hq (fun hn => by simp [hn]) c (m l.time)
  rw [hafter, htrdy, hrrdy, hpending] at hcommon
  have hshift (hlt : n < 352) : Shifting w (n + 1) (step m l c).regs.shifter :=
    h.shifting.edge hlt l.regs.pendingData (fun _ => h.txdata) (m l.time)
  have hselects (lo : 2 ≤ n + 1) (hi : n + 1 ≤ 304) : (step m l c).regs.ssN = ~~~mask := by
    have hon : 1 ≤ n ∧ n < 304 := by omega
    simp only [step, next, h.sso, Bool.false_eq_true, if_false, timed_selected h.timed, hon,
      and_self, if_true, h.ssmask]
  have hpulses := h.pulses_edge hselects hshift
  by_cases hlt : n < 352
  · have hmin : min (n + 1) 352 = n + 1 := by omega
    rw [hmin] at hcommon ⊢
    exact ⟨hcommon, hshift hlt, (next_txdata (Or.inl hq.sends)).trans h.txdata, hselects, hpulses,
      fun lo => h.rxdata_edge (by omega)⟩
  · have hn : n = 352 := by omega
    subst hn
    exact ⟨hcommon,
      ⟨hcommon.timed, fun _ hi => absurd hi (by decide), fun _ hi => absurd hi (by decide)⟩,
      (next_txdata (Or.inl hq.sends)).trans h.txdata, fun _ hi => absurd hi (by decide), hpulses,
      fun _ => h.rxdata_edge (by decide)⟩

/-! ### Writes and the read of the received byte -/

theorem Rest.select (h : Rest mask old n l) (hsel : selects l.regs.port = true)
    (hsend : sends l.regs.port = false) (hctl : controls l.regs.port = false)
    (htake : takes l.regs.port = false) :
    Rest (l.regs.port.latchSData.setWidth 8) old (after n false) (step m l c) := by
  have hlate := h.late
  have hedge :=
    h.toCommon.edge hctl (by rw [hsend, Bool.and_false, Bool.false_and]) (fun _ => rfl) c (m l.time)
  rw [hsel, hsend, htake, Bool.false_and, if_neg (by omega), if_neg Bool.false_ne_true,
    if_neg (by omega), if_neg Bool.false_ne_true, if_neg Bool.false_ne_true, if_neg (by omega),
      if_pos rfl] at hedge
  refine ⟨hedge, ?_, ?_⟩
  · grind [after]
  · rw [step_pulses h.timed, if_neg (not_rise (by omega)), h.pulses]

theorem Rest.send (h : Rest mask old n l) (hsend : sends l.regs.port = true)
    (hack : l.regs.port.ack = true) (hsel : selects l.regs.port = false)
    (hctl : controls l.regs.port = false) (htake : takes l.regs.port = false) :
    Queued mask (l.regs.port.latchSData.setWidth 8) old (after n false) (step m l c) := by
  have hlate := h.late
  have hedge := h.toCommon.edge hctl rfl (fun _ => rfl) c (m l.time)
  rw [hsel, hsend, hack, htake, if_neg (by omega), Bool.true_and, if_pos rfl, if_neg (by omega),
    if_neg Bool.false_ne_true, if_pos rfl, if_neg Bool.false_ne_true] at hedge
  refine ⟨hedge, ?_, ?_, ?_⟩
  · grind [after]
  · have hwr : (l.regs.port.regWr && l.regs.port.dw04Cs) = true := hsend
    simp only [step, next, hwr, h.trdy, Bool.and_self, if_true]
  · rw [step_pulses h.timed, if_neg (not_rise (by omega)), h.pulses]

theorem Busy.taken (h : Busy mask w old n l) (hn : 289 ≤ n) (htake : takes l.regs.port = true)
    (hsend : sends l.regs.port = false) (hsel : selects l.regs.port = false)
    (hctl : controls l.regs.port = false) :
    Rest mask l.pulses (after n false) (step m l c) := by
  have hcommon := h.toCommon
  rw [decide_eq_true (by omega : 32 ≤ n), decide_eq_true (by omega : 288 ≤ n),
    decide_eq_false (by omega : n ≠ 0)] at hcommon
  have hedge := hcommon.edge hctl rfl (by omega) c (m l.time)
  rw [hsel, hsend, htake, Bool.false_and, if_neg (by omega), if_neg Bool.false_ne_true,
    if_neg (by omega), if_pos rfl, if_neg Bool.false_ne_true, if_neg (by omega),
      if_neg Bool.false_ne_true] at hedge
  refine ⟨hedge, ?_, ?_⟩
  · grind [after]
  · rw [step_pulses h.timed, if_neg (not_rise (by omega))]

/-- Once received, the eight pulses carry `w` out and the register's bits in. -/
theorem Busy.exchanged (h : Busy mask w old n l) (hn : 289 ≤ n) :
    ∃ ps, l.pulses = old ++ ps ∧ ps.map Pulse.out = sent mask [w] ∧
      ps.map Pulse.miso = bits [l.regs.regRxdata] := by
  obtain ⟨buf, ps, hps, hout, hrx⟩ := h.pulses
  have height : risen n = 8 := by
    rw [risen]
    omega
  rw [height, List.take_of_length_le (by rw [byteBits_length])] at hout
  have hlen : (ps.map Pulse.miso).length = 8 := by
    rw [List.length_map, ← List.length_map (f := Pulse.out), hout, List.length_map, byteBits_length]
  refine ⟨ps, hps, ?_, ?_⟩
  · rw [hout, sent, bits, List.flatMap_singleton]
  · rw [h.rxdata hn, hrx, bits, List.flatMap_singleton, byteBits_read _ hlen]

end phases

end HashRatio.SpiPhases
