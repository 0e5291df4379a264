import HashRatio.SpiPhases

/-!
# The SPI lines under any bus traffic

Whatever is written to the registers and when, SCLK keeps its half periods, MOSI is
still around each rising edge, and bytes leave whole.
-/

namespace HashRatio.SpiLegal
open Bytes Spi SpiFrame SpiTransfer SpiPhases

/-! ### The lines and how long they have been still -/

/-- `loaded`: what the data register held each time SCLK was about to start. -/
structure Wave where
  line : Line
  mosiFor : ℕ
  sclkFor : ℕ
  loaded : List Byte
  deriving DecidableEq, Repr

def Wave.reset : Wave := ⟨Line.reset, 0, 0, []⟩

def Wave.sclk (v : Wave) : Bool := v.line.regs.shifter.sclk
def Wave.mosi (v : Wave) : Bool := v.line.regs.shifter.mosi

def wave (miso : ℕ → Bool) (v : Wave) (c : Cycle) : Wave :=
  let line := step miso v.line c
  { line := line
    mosiFor := if line.regs.shifter.mosi = v.mosi then v.mosiFor + 1 else 0
    sclkFor := if line.regs.shifter.sclk = v.sclk then v.sclkFor + 1 else 0
    loaded :=
      if v.line.regs.shifter.cStatus ≠ .trans ∧ line.regs.shifter.cStatus = .trans then
        v.loaded ++ [v.line.regs.regTxdata]
      else v.loaded }

structure Legal (v v' : Wave) : Prop where
  rise : v.sclk = false → v'.sclk = true → v'.mosi = v.mosi ∧ 15 ≤ v.mosiFor
  high : v.sclk = true → v'.mosi ≠ v.mosi → v'.sclk = false
  period : v'.sclk ≠ v.sclk → 15 ≤ v.sclkFor

/-- The bits of the bytes that were loaded have left, in order, and all of them unless SCLK is
running. -/
def Whole (v : Wave) : Prop :=
  v.line.pulses.map Pulse.mosi <+: bits v.loaded ∧
    (v.line.regs.shifter.cStatus ≠ .trans → v.line.pulses.map Pulse.mosi = bits v.loaded)

/-! ### One clock edge -/

/-- Bits of the byte under way that have left. -/
def partway (n : ℕ) : ℕ := if n < 288 then risen n else 0

structure Sound (n : ℕ) (w : Byte) (bs : List Byte) (v : Wave) : Prop where
  shifting : Shifting w n v.line.regs.shifter
  mosiFor : 32 ≤ n → n < 288 → n % 32 ≤ v.mosiFor
  early : n < 32 → n ≤ v.sclkFor
  sclkFor : 32 ≤ n → n < 288 → n % 16 ≤ v.sclkFor
  pulses : v.line.pulses.map Pulse.mosi = bits bs ++ (byteBits w).take (partway n)
  loaded : v.loaded = if 32 ≤ n ∧ n < 288 then bs ++ [w] else bs

section edge
variable {m : ℕ → Bool} {n : ℕ} {w : Byte} {bs : List Byte} {v : Wave} {c : Cycle}

/-- The byte is the one found in the data register when the wait ends. -/
def byteNext (n : ℕ) (w : Byte) (v : Wave) : Byte :=
  if 32 ≤ n ∧ n < 288 then w else v.line.regs.regTxdata

theorem Sound.shifting_edge (h : Sound n w bs v) :
    Shifting (byteNext n w v) (after n v.line.regs.pendingData) (wave m v c).line.regs.shifter := by
  have htimed : Timed (after n v.line.regs.pendingData) (wave m v c).line.regs.shifter :=
    h.shifting.toTimed.edge v.line.regs.pendingData v.line.regs.regTxdata (m v.line.time)
  have hcap := h.shifting.cap
  by_cases hin : 32 ≤ n ∧ n < 288
  · rw [byteNext, if_pos hin, after, if_pos (by omega)]
    exact h.shifting.edge (by omega) _ (fun h31 => by omega) _
  · rw [byteNext, if_neg hin]
    by_cases h31 : n = 31
    · rw [after, if_pos (by omega)]
      have hfree : Shifting v.line.regs.regTxdata n v.line.regs.shifter :=
        ⟨h.shifting.toTimed, fun lo => absurd lo (by omega), fun lo => absurd lo (by omega)⟩
      exact hfree.edge (by omega) _ (fun _ => rfl) _
    · refine ⟨htimed, ?_, ?_⟩ <;> grind [after]

theorem Sound.sclk_eq (h : Sound n w bs v) : v.sclk = sclkAt n := h.shifting.sclk

theorem Sound.legal (h : Sound n w bs v) : Legal v (wave m v c) := by
  have hnext := h.shifting_edge (m := m) (c := c)
  have hsclk : (wave m v c).sclk = sclkAt (after n v.line.regs.pendingData) := hnext.sclk
  have hcap := h.shifting.cap
  have hmosi : 32 ≤ n → n < 287 → v.mosi = w.getLsbD (7 - bitNo n) ∧
      (wave m v c).mosi = w.getLsbD (7 - bitNo (n + 1)) := by
    intro lo hi
    rw [byteNext, if_pos ⟨lo, by omega⟩, after, if_pos (by omega)] at hnext
    exact ⟨h.shifting.mosi lo (by omega), hnext.mosi (by omega) (by omega)⟩
  refine ⟨fun hlow hhigh => ?_, fun hhigh hchange => ?_, fun hchange => ?_⟩
  · rw [h.sclk_eq] at hlow
    rw [hsclk] at hhigh
    have hrise : Rise n := (rise_iff hcap v.line.regs.pendingData).mp (by rw [hlow, hhigh]; rfl)
    have hin : 32 ≤ n ∧ n < 288 ∧ n % 32 = 15 := hrise
    obtain ⟨hold, hnew⟩ := hmosi (by omega) (by omega)
    have hbit : bitNo (n + 1) = bitNo n := by
      simp only [bitNo]
      omega
    have hstill := h.mosiFor (by omega) (by omega)
    exact ⟨by rw [hold, hnew, hbit], by omega⟩
  · rw [h.sclk_eq, sclkAt, decide_eq_true_eq] at hhigh
    rw [hsclk, sclkAt, decide_eq_false_iff_not, after, if_pos (by omega)]
    by_cases hfall : n % 32 = 31
    · omega
    · obtain ⟨hold, hnew⟩ := hmosi (by omega) (by omega)
      have hbit : bitNo (n + 1) = bitNo n := by
        simp only [bitNo]
        omega
      rw [hold, hnew, hbit] at hchange
      exact absurd rfl hchange
  · rw [h.sclk_eq, hsclk] at hchange
    have hin : 32 ≤ n ∧ n < 288 ∧ n % 16 = 15 := by grind [sclkAt, after]
    have hstill := h.sclkFor (by omega) (by omega)
    omega

theorem pulses_mosi (h : Timed n v.line.regs.shifter) : (wave m v c).line.pulses.map Pulse.mosi =
    if Rise n then v.line.pulses.map Pulse.mosi ++ [(wave m v c).mosi]
        else v.line.pulses.map Pulse.mosi := by
  have hpulses : (wave m v c).line.pulses = _ := step_pulses (m := m) (c := c) h
  rw [hpulses]
  split
  · rw [List.map_append]
    rfl
  · rfl

theorem Sound.loaded_edge (h : Sound n w bs v) :
    (wave m v c).loaded = if n = 31 then v.loaded ++ [v.line.regs.regTxdata] else v.loaded := by
  have hnext : (wave m v c).line.regs.shifter.cStatus = v.line.regs.nStatus := rfl
  have hloaded : (wave m v c).loaded =
      if v.line.regs.shifter.cStatus ≠ .trans ∧ (wave m v c).line.regs.shifter.cStatus = .trans
      then v.loaded ++ [v.line.regs.regTxdata] else v.loaded := rfl
  simp only [hloaded, hnext, timed_trans h.shifting.toTimed]

/-- The bytes behind the one under way. -/
def doneNext (n : ℕ) (w : Byte) (bs : List Byte) : List Byte := if n = 287 then bs ++ [w] else bs

theorem Sound.pulses_edge (h : Sound n w bs v) : (wave m v c).line.pulses.map Pulse.mosi =
    bits (doneNext n w bs) ++
      (byteBits (byteNext n w v)).take (partway (after n v.line.regs.pendingData)) := by
  have hcap := h.shifting.cap
  rw [pulses_mosi h.shifting.toTimed, h.pulses]
  by_cases hrise : Rise n
  · have hin : 32 ≤ n ∧ n < 288 ∧ n % 32 = 15 := hrise
    have hnext := h.shifting_edge (m := m) (c := c)
    have hbit : bitNo (n + 1) = risen n ∧ risen n ≤ 7 := by
      simp only [bitNo, risen]
      omega
    have hbyte : byteNext n w v = w := if_pos ⟨hin.1, hin.2.1⟩
    have hafter : after n v.line.regs.pendingData = n + 1 := if_pos (by omega)
    have hdone : doneNext n w bs = bs := if_neg (by omega)
    have hold : partway n = risen n := if_pos hin.2.1
    have hnew : partway (n + 1) = risen n + 1 := by
      rw [partway, if_pos (by omega), risen_succ, if_pos hrise]
    rw [hbyte, hafter] at hnext
    have hmosi : (wave m v c).mosi = w.getLsbD (7 - risen n) := by
      rw [Wave.mosi, hnext.mosi (by omega) (by omega), hbit.1]
    rw [if_pos hrise, hbyte, hafter, hdone, hold, hnew, take_bits w hbit.2, hmosi,
      List.append_assoc]
  · rw [if_neg hrise]
    by_cases hlast : n = 287
    · have hold : partway 287 = 8 := by decide
      have hnew : partway (after 287 v.line.regs.pendingData) = 0 := rfl
      rw [hlast, hold, hnew, doneNext, if_pos rfl, List.take_zero, List.append_nil, bits_append,
        List.take_of_length_le (by rw [byteBits_length]), bits, bits, List.flatMap_singleton]
    · rw [doneNext, if_neg hlast]
      by_cases hin : 32 ≤ n ∧ n < 288
      · have hbyte : byteNext n w v = w := if_pos hin
        have hafter : after n v.line.regs.pendingData = n + 1 := if_pos (by omega)
        have hsame : partway (n + 1) = partway n := by
          rw [partway, partway, if_pos hin.2, if_pos (by omega), risen_succ, if_neg hrise]
        rw [hbyte, hafter, hsame]
      · have hnone : partway n = 0 ∧ partway (after n v.line.regs.pendingData) = 0 := by
          grind [partway, risen, after]
        rw [hnone.1, hnone.2, List.take_zero, List.take_zero]

theorem Sound.edge (h : Sound n w bs v) : ∃ n' w' bs', Sound n' w' bs' (wave m v c) := by
  have hcap := h.shifting.cap
  have hnext := h.shifting_edge (m := m) (c := c)
  have hsclk : (wave m v c).sclk = sclkAt (after n v.line.regs.pendingData) := hnext.sclk
  have hmosiFor : (wave m v c).mosiFor = if (wave m v c).mosi = v.mosi then
      v.mosiFor + 1 else 0 := rfl
  have hsclkFor : (wave m v c).sclkFor = if (wave m v c).sclk = v.sclk then
      v.sclkFor + 1 else 0 := rfl
  refine ⟨_, _, _, hnext, fun lo hi => ?_, fun hi => ?_, fun lo hi => ?_, h.pulses_edge, ?_⟩
  · by_cases hfirst : after n v.line.regs.pendingData % 32 = 0
    · omega
    have hafter : after n v.line.regs.pendingData = n + 1 := by grind [after]
    rw [hafter] at hnext lo hi hfirst ⊢
    have hin : 32 ≤ n ∧ n < 288 := by omega
    have hbit : bitNo (n + 1) = bitNo n := by
      simp only [bitNo]
      omega
    have hbyte : byteNext n w v = w := if_pos hin
    rw [hbyte] at hnext
    have hsame : (wave m v c).mosi = v.mosi := by
      rw [Wave.mosi, hnext.mosi lo hi, hbit, Wave.mosi, h.shifting.mosi hin.1 hin.2]
    have hstill := h.mosiFor hin.1 hin.2
    rw [hmosiFor, if_pos hsame]
    omega
  · by_cases hfirst : after n v.line.regs.pendingData = 0
    · omega
    have hafter : after n v.line.regs.pendingData = n + 1 := by grind [after]
    have hsame : (wave m v c).sclk = v.sclk := by
      rw [hsclk, h.sclk_eq, hafter]
      grind [sclkAt]
    have hstill := h.early (by omega)
    rw [hsclkFor, if_pos hsame]
    omega
  · by_cases hfirst : after n v.line.regs.pendingData % 16 = 0
    · omega
    have hafter : after n v.line.regs.pendingData = n + 1 := by grind [after]
    rw [hafter] at lo hi hfirst hsclk ⊢
    have hsame : (wave m v c).sclk = v.sclk := by
      rw [hsclk, h.sclk_eq]
      grind [sclkAt]
    have hstill := h.sclkFor (by omega) (by omega)
    rw [hsclkFor, if_pos hsame]
    omega
  · rw [h.loaded_edge, h.loaded]
    by_cases h31 : n = 31
    · subst h31
      rfl
    · rw [if_neg h31]
      grind [after, byteNext, doneNext]

theorem Sound.whole (h : Sound n w bs v) : Whole v := by
  rw [Whole, h.pulses, h.loaded, h.shifting.status]
  by_cases hin : 32 ≤ n ∧ n < 288
  · have htrans : statusAt n = .trans := by grind [statusAt]
    rw [if_pos hin, bits_append, List.prefix_append_right_inj, bits, List.flatMap_singleton]
    exact ⟨List.take_prefix .., fun hnot => absurd htrans hnot⟩
  · have hnone : partway n = 0 := by grind [partway, risen]
    rw [if_neg hin, hnone, List.take_zero, List.append_nil]
    exact ⟨List.prefix_rfl, fun _ => rfl⟩

end edge

theorem sound_reset : Sound 352 0 [] Wave.reset := by
  refine ⟨⟨timed_reset, ?_, ?_⟩, ?_, ?_, ?_, rfl, rfl⟩ <;> omega

/-- Every run of bus cycles, with the accesses of any master and any levels on MISO. -/
theorem traffic_legal (m : ℕ → Bool) (cs : List Cycle) :
    Run.Meets (wave m) (fun v c => Legal v (wave m v c)) Wave.reset cs ∧
      Whole (Run.run (wave m) Wave.reset cs) := by
  have hall (cs : List Cycle) (v : Wave) (h : ∃ n w bs, Sound n w bs v) :
      Run.Meets (wave m) (fun v c => Legal v (wave m v c)) v cs ∧
        Whole (Run.run (wave m) v cs) := by
    induction cs generalizing v with
    | nil =>
      obtain ⟨n, w, bs, h⟩ := h
      exact ⟨trivial, h.whole⟩
    | cons c cs ih =>
      obtain ⟨n, w, bs, h⟩ := h
      obtain ⟨hmeets, hwhole⟩ := ih _ h.edge
      exact ⟨⟨h.legal, hmeets⟩, hwhole⟩
  exact hall cs _ ⟨_, _, _, sound_reset⟩

end HashRatio.SpiLegal
