import HashRatio.Twi

/-!
# The watchdog and wdg_feed_sec

The 32-bit product and the 31-bit mask leave the seconds times CPU_FREQUENCY
modulo 2 ^ 31 in the counter, which is a multiple of 256. WATCH_DOG is high while
the counter is 2 or 1.
-/

namespace HashRatio.Watchdog
open Bytes Drivers Twi

/-! ### What is loaded -/

def load (seconds : Word) : ℕ := 100000000 * seconds.toNat % 2 ^ 31

def feedWord (seconds : Word) : Word := ((100000000 * seconds &&& 0x7fffffff) <<< 1) ||| 1

theorem wdgFeedSec_env (d : Dev Idle) (seconds : Word) :
    (wdgFeedSec twiBoard d seconds).env = bus d.env true wdg (feedWord seconds) := rfl

theorem mask_bit (i : ℕ) (h : i < 31) : (0x7fffffff : Word).getLsbD i = true := by
  interval_cases i <;> rfl

theorem feedWord_enable (seconds : Word) : (feedWord seconds).getLsbD 0 = true := by
  simp [feedWord]

theorem one_bit (i : ℕ) : (1 : Word).getLsbD (1 + i) = false := by
  rw [Nat.add_comm]
  change Nat.testBit 1 (i + 1) = false
  rw [Nat.testBit_succ]
  exact Nat.zero_testBit i

theorem feedWord_load (seconds : Word) :
    ((feedWord seconds).extractLsb' 1 31).toNat = load seconds := by
  have hword : (feedWord seconds).extractLsb' 1 31 = (100000000 * seconds).setWidth 31 := by
    apply BitVec.eq_of_getLsbD_eq
    intro i hi
    simp only [feedWord, BitVec.getLsbD_extractLsb', BitVec.getLsbD_or, BitVec.getLsbD_shiftLeft,
      BitVec.getLsbD_and, BitVec.getLsbD_setWidth, one_bit, Nat.add_sub_cancel_left, mask_bit i hi,
        Bool.or_false, Bool.and_true]
    have hlt : 1 + i < 32 := by omega
    simp [hi, hlt]
  rw [hword, BitVec.toNat_setWidth, BitVec.toNat_mul, load]
  have hfreq : (100000000 : Word).toNat = 100000000 := rfl
  rw [hfreq]
  omega

theorem load_mod (seconds : Word) : load seconds % 256 = 0 := by
  rw [load]
  omega

theorem load_eq_zero_iff (seconds : Word) : load seconds = 0 ↔ 2 ^ 23 ∣ seconds.toNat := by
  rw [load]
  omega

/-! ### Without a further write -/

/-- No edge of `cs` writes the register; resets may come. -/
def NoFeed : Regs → List Cycle → Prop := Run.Meets tick fun r c => wrEn r c wdg = false

theorem tick_noFeed {r : Regs} {c : Cycle} (h : wrEn r c wdg = false) :
    (tick r c).wdgEn = false ∨ (tick r c).wdgEn = r.wdgEn ∧
      (tick r c).wdgCnt.toNat = r.wdgCnt.toNat - 1 := by
  cases hrst : c.rst with
  | true =>
    rw [tick, hrst]
    exact Or.inl rfl
  | false => exact Or.inr (tick_counts hrst h)

/-- The counter goes down at every edge, or a reset has cleared the enable bit. -/
theorem run_noFeed (r : Regs) (cs : List Cycle) (h : NoFeed r cs) :
    (Run.run tick r cs).wdgEn = false ∨
      (Run.run tick r cs).wdgCnt.toNat = r.wdgCnt.toNat - cs.length := by
  induction cs generalizing r with
  | nil => exact Or.inr rfl
  | cons c cs ih =>
    have hoff (r : Regs) (cs : List Cycle) (h : NoFeed r cs) (hen : r.wdgEn = false) :
        (Run.run tick r cs).wdgEn = false :=
      Run.run_invariant tick (fun r c => wrEn r c wdg = false) (fun r => r.wdgEn = false)
        (fun s e he hs => (tick_noFeed he).elim id fun hsame => hsame.1.trans hs) r cs h hen
    rw [Run.run_cons]
    rcases tick_noFeed h.1 with hen | ⟨_, hcnt⟩
    · exact Or.inl (hoff _ _ h.2 hen)
    · rcases ih _ h.2 with hen | hrest
      · exact Or.inl hen
      · right
        rw [hrest, hcnt, List.length_cons]
        omega

def idleCycle : Cycle := ⟨false, false, false, 0, 0⟩

theorem run_idle (r : Regs) (n : ℕ) :
    NoFeed r (List.replicate n idleCycle) ∧
      (Run.run tick r (List.replicate n idleCycle)).wdgEn = r.wdgEn ∧
      (Run.run tick r (List.replicate n idleCycle)).wdgCnt.toNat = r.wdgCnt.toNat - n := by
  induction n generalizing r with
  | zero => exact ⟨trivial, rfl, rfl⟩
  | succ n ih =>
    have hwr : wrEn r idleCycle wdg = false := rfl
    obtain ⟨hen, hcnt⟩ := tick_counts (r := r) (c := idleCycle) rfl hwr
    obtain ⟨hrest, hen', hcnt'⟩ := ih (tick r idleCycle)
    rw [List.replicate_succ]
    refine ⟨⟨hwr, hrest⟩, hen'.trans hen, ?_⟩
    rw [Run.run_cons, hcnt', hcnt]
    omega

/-! ### How long WATCH_DOG stays low -/

/-- After `wdg_feed_sec`, in any state and whatever is done but feed it, WATCH_DOG is low for `n`
cycles. -/
def StaysLow (seconds : Word) (n : ℕ) : Prop :=
  ∀ (d : Dev Idle) (cs : List Cycle),
    NoFeed (wdgFeedSec twiBoard d seconds).env.toRegs cs → cs.length < n →
    (Run.run tick (wdgFeedSec twiBoard d seconds).env.toRegs cs).watchDog = false

theorem fed (d : Dev Idle) (seconds : Word) :
    (wdgFeedSec twiBoard d seconds).env.wdgEn = true ∧
      (wdgFeedSec twiBoard d seconds).env.wdgCnt.toNat = load seconds - 1 := by
  rw [wdgFeedSec_env, bus_eq]
  obtain ⟨hen, hcnt⟩ := tick_counts (r := stored d.env wdg (feedWord seconds))
    (c := access true wdg (feedWord seconds)) rfl (wrEn_held d.env wdg (feedWord seconds) wdg)
  rw [hen, hcnt, stored_wdgEn, stored_wdgCnt _ _ (feedWord_enable seconds),
    feedWord_enable, feedWord_load]
  exact ⟨rfl, rfl⟩

theorem watchDog_low {r : Regs} (h : r.wdgEn = false ∨ r.wdgCnt.toNat ≠ 1 ∧ r.wdgCnt.toNat ≠ 2) :
    r.watchDog = false := by
  rw [Regs.watchDog]
  rcases h with h | ⟨h1, h2⟩
  · rw [h, Bool.false_and]
  · have hone : (r.wdgCnt == 1) = false := beq_eq_false_iff_ne.mpr fun h => h1 (by rw [h]; rfl)
    have htwo : (r.wdgCnt == 2) = false := beq_eq_false_iff_ne.mpr fun h => h2 (by rw [h]; rfl)
    rw [hone, htwo, Bool.or_self, Bool.and_false]

/-- A load of 0 never fires; any other fires when the counter comes to 2. -/
theorem staysLow_iff_load (seconds : Word) (n : ℕ) :
    StaysLow seconds n ↔ load seconds = 0 ∨ n + 3 ≤ load seconds := by
  have hmod := load_mod seconds
  constructor
  · intro h
    by_contra hnot
    let d : Dev Idle := ⟨Idle.reset, fun _ => 0, 0x3ff, []⟩
    obtain ⟨hen, hcnt⟩ := fed d seconds
    obtain ⟨hrun, hen', hcnt'⟩ :=
      run_idle (wdgFeedSec twiBoard d seconds).env.toRegs (load seconds - 3)
    have hlow := h d _ hrun (by rw [List.length_replicate]; omega)
    have htwo : (Run.run tick (wdgFeedSec twiBoard d seconds).env.toRegs
        (List.replicate (load seconds - 3) idleCycle)).wdgCnt = 2 := by
      apply BitVec.eq_of_toNat_eq
      rw [hcnt', hcnt]
      change load seconds - 1 - (load seconds - 3) = 2
      omega
    rw [Regs.watchDog, hen', hen, htwo] at hlow
    cases hlow
  · intro h d cs hcs hlen
    obtain ⟨_, hcnt⟩ := fed d seconds
    apply watchDog_low
    rcases run_noFeed _ cs hcs with hen | hrest
    · exact Or.inl hen
    · right
      rw [hrest, hcnt]
      omega

/-! ### Which times are kept -/

/-- The cycles the seconds stand for, as far as a counter of 31 bits goes, less the 3 of the
feed. -/
def requested (seconds : Word) : ℕ := min (100000000 * seconds.toNat) (2 ^ 31 - 1) - 3

def Kept (seconds : Word) : Prop := seconds.toNat ≤ 21 ∨ 2 ^ 23 ∣ seconds.toNat

instance (seconds : Word) : Decidable (Kept seconds) := inferInstanceAs (Decidable (_ ∨ _))

theorem load_small (seconds : Word) (h : seconds.toNat ≤ 21) :
    load seconds = 100000000 * seconds.toNat := by
  rw [load]
  omega

theorem staysLow_requested (seconds : Word) :
    StaysLow seconds (requested seconds) ↔ Kept seconds := by
  have hzero := load_eq_zero_iff seconds
  have hmod := load_mod seconds
  have hlt : load seconds < 2 ^ 31 := Nat.mod_lt _ (by decide)
  rw [staysLow_iff_load, Kept, ← hzero, requested]
  by_cases hsmall : seconds.toNat ≤ 21
  · have hload := load_small seconds hsmall
    omega
  · omega

theorem staysLow_mono {r s : Word} (hr : 1 ≤ r.toNat) (hle : r.toNat ≤ s.toNat)
    (hs : Kept s) (n : ℕ) (h : StaysLow r n) : StaysLow s n := by
  have hzero := load_eq_zero_iff s
  rw [staysLow_iff_load] at h ⊢
  rcases hs with hs | hs
  · have hload := load_small r (Nat.le_trans hle hs)
    have hload' := load_small s hs
    omega
  · exact Or.inl (hzero.mpr hs)

/-- **A feed lasts what was asked for, and at least as long as any shorter one, for up to 21 seconds
and for the multiples of 2 ^ 23 (which never fire).** -/
theorem feed_lasts_iff (s : Word) :
    (StaysLow s (requested s) ∧
      ∀ r : Word, 1 ≤ r.toNat → r.toNat ≤ s.toNat → ∀ n, StaysLow r n → StaysLow s n) ↔ Kept s :=
  ⟨fun h => (staysLow_requested s).mp h.1, fun h =>
    ⟨(staysLow_requested s).mpr h, fun _ hr hle n => staysLow_mono hr hle h n⟩⟩

/-- The 60 seconds of `main` are over after 17, before 21 seconds would be. -/
theorem sixty_early :
    ¬StaysLow 60 (requested 60) ∧ StaysLow 21 2000000000 ∧ ¬StaysLow 60 2000000000 := by
  simp only [staysLow_iff_load]
  decide

end HashRatio.Watchdog
