import HashRatio.Bus
import HashRatio.Pass

/-!
# The frequency of the chips

SET writes the PLL registers only when the frequency differs from `g_asic_freq`.
The self-test commands and the reset of the chips write them too, with the
default, and leave `g_asic_freq` alone.
-/

namespace HashRatio.Frequency
open Bytes Protocol Drivers State Packets Results MainLoop Bus Pass

variable {σ : Type} {b : Board σ}

-- no simp set is to evaluate a test
attribute [local irreducible] Jobs.test

/-! ### The PLL registers -/

def pllWrite (idx : ℕ) (x : Xfer σ) : Option Byte :=
  if x.chip = idx ∧ Sends x (be200CmdWriteReg be200RegPll) then some (x.sent.getD 1 0) else none

/-- What was last written to the PLL register of each chip. -/
def lastPll (d : Dev σ) (idx : ℕ) : Option Byte := d.xfers.findSome? (pllWrite idx)

/-- The registers hold `g_asic_freq/10 - 1`. -/
def Synced (s : Fw σ) : Prop :=
  ∀ idx < chipNumber, ∃ v, lastPll s.dev idx = some v ∧ v.toNat = s.asicFreq.toNat / 10 - 1

def written (pll : ℕ → Option Byte) (n : ℕ) (v : Byte) : ℕ → Option Byte :=
  fun idx => if idx < n then some v else pll idx

theorem lastPll_congr {d d' : Dev σ} (h : d'.xfers = d.xfers) : lastPll d' = lastPll d := by
  funext idx
  rw [lastPll, h, lastPll]

theorem lastPll_other {d d' : Dev σ} (env : σ) (idx : ℕ) (c : Byte) (rest : List Byte)
    (h : d'.xfers = ⟨env, idx, c :: rest⟩ :: d.xfers) (hc : c ≠ be200CmdWriteReg be200RegPll) :
    lastPll d' = lastPll d := by
  funext i
  have hnone : pllWrite i (⟨env, idx, c :: rest⟩ : Xfer σ) = none :=
    if_neg fun hw => hc ((sends_iff ..).mp hw.2)
  rw [lastPll, h, List.findSome?_cons, hnone, lastPll]

theorem readReg_pll : ∀ reg < 64, be200CmdReadReg reg ≠ be200CmdWriteReg be200RegPll := by decide

theorem writeReg_pll :
    ∀ reg < 64, reg ≠ be200RegPll → be200CmdWriteReg reg ≠ be200CmdWriteReg be200RegPll := by decide

theorem startReg_lt (mask : Byte) {reg : ℕ} (h : nonceStartReg mask = some reg) : reg + 3 < 64 := by
  have hall : ∀ m : Byte, (nonceStartReg m).all (· + 3 < 64) = true := by decide
  have hmask := hall mask
  rw [h] at hmask
  exact of_decide_eq_true hmask

section drivers
variable (b : Board σ) (d : Dev σ) (idx : ℕ)

theorem ck_pll : lastPll (be200CmdCk b d idx).1 = lastPll d :=
  lastPll_other _ _ _ _ (ck_xfers b d idx) (by decide)

theorem rd_pll (reg : ℕ) (h : reg < 64) : lastPll (be200CmdRd b d idx reg).1 = lastPll d :=
  lastPll_other _ _ _ _ (rd_xfers b d idx reg) (readReg_pll reg h)

theorem wr_pll (reg : ℕ) (value : Byte) (h : reg < 64) (hne : reg ≠ be200RegPll) :
    lastPll (be200CmdWr b d idx reg value) = lastPll d :=
  lastPll_other _ _ _ _ (wr_xfers b d idx reg value) (writeReg_pll reg h hne)

theorem freqWrite_pll (multi : Byte) (i : ℕ) :
    lastPll (freqWrite b d idx multi) i = if idx = i then some (0x7F &&& multi)
      else lastPll d i := by
  have hx : (freqWrite b d idx multi).xfers =
      ⟨d.env, idx, [be200CmdWriteReg be200RegPll, 0x7F &&& multi]⟩ :: d.xfers := wr_xfers ..
  rw [lastPll, hx, List.findSome?_cons, pllWrite]
  by_cases hi : idx = i
  · rw [if_pos ⟨hi, (sends_iff ..).mpr rfl⟩, if_pos hi]
    rfl
  · rw [if_neg fun hw => hi hw.1, if_neg hi]
    rfl

theorem freqWriteAll_pll (n : ℕ) (multi : Byte) :
    lastPll (freqWriteAll b d n multi) = written (lastPll d) n (0x7F &&& multi) := by
  induction n with
  | zero => rfl
  | succ n ih =>
    funext i
    have hfold : freqWriteAll b d (n + 1) multi =
        freqWrite b (freqWriteAll b d n multi) n multi := by
      rw [freqWriteAll, List.range_succ, List.foldl_append]
      rfl
    rw [hfold, freqWrite_pll, ih, written, written]
    by_cases hi : n = i
    · rw [if_pos hi, if_pos (by omega)]
    · rw [if_neg hi]
      by_cases hlt : i < n
      · rw [if_pos hlt, if_pos (by omega)]
      · rw [if_neg hlt, if_neg (by omega)]

theorem setAllChipsIdle_pll : lastPll (setAllChipsIdle b d) = written (lastPll d) 80 27 :=
  freqWriteAll_pll b d 80 27

theorem inputFrom_pll (task : List Byte) (n i : ℕ) (h : i + n ≤ 44) :
    lastPll (inputFrom b idx task n i d).1 = lastPll d := by
  induction n generalizing i d with
  | zero => rfl
  | succ n ih =>
    have hwr := wr_pll b d idx i (task.getD i 0) (by omega) (by unfold be200RegPll; omega)
    have hrd := rd_pll b (be200CmdWr b d idx i (task.getD i 0)) idx i (by omega)
    simp only [inputFrom]
    split
    · exact hrd.trans hwr
    · rw [ih _ (i + 1) (by omega)]
      exact hrd.trans hwr

theorem load_pll (task : List Byte) :
    lastPll (be200Start b (be200InputTask b (be200CmdRd b d idx be200RegClear).1 idx task).1 idx) =
      lastPll d := by
  rw [be200Start, ck_pll, wr_pll _ _ _ _ _ (by decide) (by decide), ck_pll, be200InputTask,
    inputFrom_pll _ _ _ _ _ _ (by omega), rd_pll _ _ _ _ (by decide)]

theorem getDone_pll : lastPll (be200GetDone b d idx).1 = lastPll d := ck_pll b d idx

theorem getResult_pll (mask : Byte) : lastPll (be200GetResult b d idx mask).1 = lastPll d := by
  unfold be200GetResult
  cases h : nonceStartReg mask with
  | none => rfl
  | some reg =>
    have hlt := startReg_lt mask h
    simp only
    rw [rd_pll _ _ _ _ (by decide), rd_pll _ _ _ _ (by omega), rd_pll _ _ _ _ (by omega),
      rd_pll _ _ _ _ (by omega), rd_pll _ _ _ _ hlt]

end drivers

/-! ### Packets -/

structure Same (s s' : Fw σ) : Prop where
  pll : lastPll s'.dev = lastPll s.dev
  freq : s'.asicFreq = s.asicFreq
  flag : s'.resetFlag = s.resetFlag

theorem Same.synced {s s' : Fw σ} (h : Same s s') (hs : Synced s) : Synced s' := by
  intro idx hidx
  rw [h.pll, h.freq]
  exact hs idx hidx

/-- The first `n` chips are given the default frequency, the bookkeeping stays. -/
structure Defaults (s s' : Fw σ) (n : ℕ) : Prop where
  pll : lastPll s'.dev = written (lastPll s.dev) n 27
  freq : s'.asicFreq = s.asicFreq
  flag_lt : s.resetFlag < 10 → s'.resetFlag < 10
  pos : 0 < n
  le : n ≤ chipNumber

theorem Defaults.stays_synced {s s' : Fw σ} {n : ℕ} (h : Defaults s s' n) (hs : Synced s) :
    Synced s' ↔ s.asicFreq.toNat / 10 = 28 := by
  have hpos := h.pos
  constructor
  · intro hs'
    obtain ⟨v, hv, hval⟩ := hs' 0 (by decide)
    rw [h.pll, written, if_pos hpos] at hv
    rw [← Option.some.inj hv, h.freq] at hval
    have h27 : (27 : Byte).toNat = 27 := rfl
    omega
  · intro hfreq idx hidx
    rw [h.pll, h.freq, written]
    by_cases hlt : idx < n
    · rw [if_pos hlt]
      exact ⟨27, rfl, by rw [hfreq]; rfl⟩
    · rw [if_neg hlt]
      exact hs idx hidx

/-- The frequency is one SET may ask for, or the default; `reset_flag` is below its limit. -/
structure Bounded (s : Fw σ) : Prop where
  freq_gt : 100 < s.asicFreq.toNat
  freq_le : s.asicFreq.toNat ≤ 750
  flag_lt : s.resetFlag < 10

theorem Same.bounded {s s' : Fw σ} (h : Same s s') (hs : Bounded s) : Bounded s' :=
  ⟨h.freq ▸ hs.freq_gt, h.freq ▸ hs.freq_le, h.flag ▸ hs.flag_lt⟩

theorem set_multi (tmp : Word) (h1 : 100 < tmp.toNat) (h2 : tmp.toNat ≤ 750) :
    (0x7F &&& BitVec.ofNat 8 (tmp.toNat / 10 - 1) : Byte).toNat = tmp.toNat / 10 - 1 := by
  have hmask : ∀ k < 128, (0x7F &&& BitVec.ofNat 8 k : Byte).toNat = k := by decide
  exact hmask _ (by omega)

theorem handleSet_synced (s : Fw σ) (p : Pkg) (h : Synced s) (hb : Bounded s) :
    Synced (handleSet b s p) ∧ Bounded (handleSet b s p) := by
  have hpre :
      lastPll (adjustFan b (timerSet b s.dev 0 idleTime) (dataWord p 0).toInt) = lastPll s.dev :=
    lastPll_congr (by rw [adjustFan_xfers, timerSet_xfers])
  by_cases hchange : 100 < (dataWord p 1).toNat ∧ (dataWord p 1).toNat ≤ 750 ∧
    dataWord p 1 ≠ s.asicFreq
  · have hfreq : (handleSet b s p).asicFreq = dataWord p 1 := if_pos hchange
    have hdev : lastPll (handleSet b s p).dev = written (lastPll s.dev) 80
        (0x7F &&& BitVec.ofNat 8 ((dataWord p 1).toNat / 10 - 1)) := by
      rw [← hpre, ← hrtoDefaultMiners, ← freqWriteAll_pll b]
      exact (lastPll_congr (ledBlink_xfers ..)).trans (by rw [if_pos hchange])
    refine ⟨fun idx hidx => ?_,
      by rw [hfreq]; exact hchange.1, by rw [hfreq]; exact hchange.2.1, hb.flag_lt⟩
    rw [hdev, hfreq]
    exact ⟨_, if_pos hidx, set_multi _ hchange.1 hchange.2.1⟩
  · have hsame : Same s (handleSet b s p) := by
      refine ⟨?_, if_neg hchange, rfl⟩
      rw [← hpre]
      exact (lastPll_congr (ledBlink_xfers ..)).trans (by rw [if_neg hchange])
    exact ⟨hsame.synced h, hsame.bounded hb⟩

/-- The self-test task, with its second half, on the first `n` chips. -/
theorem itpTask_defaults (s : Fw σ) (p : Pkg) (n : ℕ) (hidx : pkgIdx p = 2) (hpos : 0 < n)
    (hle : n ≤ chipNumber) :
    Defaults s (itpTask b s p n) n := by
  have hload (is : List ℕ) (task : List Byte) (d : Dev σ) :
      lastPll
        (is.foldl
          (fun d i => be200Start b (be200InputTask b (be200CmdRd b d i be200RegClear).1 i task).1 i)
          d) = lastPll d := by
    induction is generalizing d with
    | nil => rfl
    | cons i is ih => rw [List.foldl_cons, ih, load_pll]
  rw [itpTask, if_neg (by omega), if_pos hidx]
  exact ⟨(hload _ _ _).trans (freqWriteAll_pll b s.dev n _), rfl, id, hpos, hle⟩

theorem itpTask_same (s : Fw σ) (p : Pkg) (n : ℕ) (hidx : pkgIdx p ≠ 2) :
    Same s (itpTask b s p n) := by
  rw [itpTask, if_neg hidx]
  split <;> exact ⟨rfl, rfl, rfl⟩

theorem itpResultAll_same (s : Fw σ) (n : ℕ) : Same s (itpResultAll b s n) := by
  have hchip (expected : Word) (st : ItpState σ) (i : ℕ) :
      lastPll (itpResultChip b expected st i).dev = lastPll st.dev := by
    simp only [itpResultChip]
    split
    · exact getDone_pll b st.dev i
    · exact (rd_pll _ _ _ _ (by decide)).trans
        ((getResult_pll _ _ _ _).trans (getDone_pll b st.dev i))
  have hfold (expected : Word) (is : List ℕ) (st : ItpState σ) :
      lastPll (is.foldl (itpResultChip b expected) st).dev = lastPll st.dev := by
    induction is generalizing st with
    | nil => rfl
    | cons i is ih => rw [List.foldl_cons, ih, hchip]
  exact ⟨hfold _ _ _, rfl, rfl⟩

theorem sendPkg_same (s : Fw σ) (type : PkgType) (buf : List Byte) (idx cnt : Byte) :
    Same s (sendPkg b s type buf idx cnt) := by
  refine ⟨lastPll_congr (sendPkg_xfers b s type buf idx cnt), ?_, ?_⟩
  all_goals
    simp only [sendPkg, encodePkg]
    split <;> rfl

theorem be200Polling_same (s : Fw σ) : Same s (be200Polling b s) := by
  unfold be200Polling
  split
  · have h := sendPkg_same (b := b) s .status [] 1 1
    exact ⟨h.pll, h.freq, h.flag⟩
  · rename_i jobs data _
    have h := sendPkg_same (b := b) {s with jobs := jobs} .nonce (nonceData s.jobs.works data) 1 1
    exact ⟨h.pll, h.freq, h.flag⟩

theorem reply_same (s : Fw σ) (p : Pkg) : Same s (reply b s p) := by
  unfold reply
  split
  · exact sendPkg_same s .ackdetect b.mmVersion 1 1
  · exact sendPkg_same s .status [] 1 1
  · exact ⟨rfl, rfl, rfl⟩

def IsTask (p : Pkg) : Prop :=
  CrcOk p ∧ (pkgType p = some .itpTask ∨ pkgType p = some .itpSingleTask) ∧ pkgIdx p = 2

instance (p : Pkg) : Decidable (IsTask p) := inferInstanceAs (Decidable (_ ∧ _))

theorem handlePkg_accept (s : Fw σ) (p : Pkg) (h : CrcOk p) :
    (handlePkg b s p).1 = reply b (acceptPkg b s p) p := by
  simp only [handlePkg, decodePkg_accept b s p h, Bool.false_eq_true, if_false]

theorem task_defaults (s : Fw σ) (p : Pkg) (h : IsTask p) :
    ∃ n, Defaults s (handlePkg b s p).1 n := by
  obtain ⟨hcrc, htype, hidx⟩ := h
  obtain ⟨n, hn⟩ : ∃ n, Defaults s (acceptPkg b s p) n := by
    rcases htype with ht | ht
    · exact ⟨80, by rw [acceptPkg, ht]; exact itpTask_defaults s p 80 hidx (by decide) (by decide)⟩
    · exact ⟨16, by rw [acceptPkg, ht]; exact itpTask_defaults s p 16 hidx (by decide) (by decide)⟩
  have hreply := reply_same (b := b) (acceptPkg b s p) p
  rw [handlePkg_accept s p hcrc]
  exact ⟨n, hreply.pll.trans hn.pll, hreply.freq.trans hn.freq, fun h =>
    hreply.flag ▸ hn.flag_lt h, hn.pos, hn.le⟩

theorem pkg_synced (s : Fw σ) (p : Pkg) (hp : ¬IsTask p) (h : Synced s) (hb : Bounded s) :
    Synced (handlePkg b s p).1 ∧ Bounded (handlePkg b s p).1 := by
  by_cases hcrc : CrcOk p
  · have haccept : Synced (acceptPkg b s p) ∧ Bounded (acceptPkg b s p) := by
      have hkeep {s' : Fw σ} (hsame : Same s s') : Synced s' ∧ Bounded s' :=
        ⟨hsame.synced h, hsame.bounded hb⟩
      unfold acceptPkg
      split
      case h_7 => exact hkeep (be200Polling_same s)
      case h_9 => exact handleSet_synced s p h hb
      case h_12 ht => exact hkeep (itpTask_same s p 80 fun hidx => hp ⟨hcrc, Or.inl ht, hidx⟩)
      case h_13 => exact hkeep (itpResultAll_same s 80)
      case h_14 ht => exact hkeep (itpTask_same s p 16 fun hidx => hp ⟨hcrc, Or.inr ht, hidx⟩)
      case h_15 => exact hkeep (itpResultAll_same s 16)
      case h_17 => exact hkeep ⟨lastPll_congr (adjustFan_xfers ..), rfl, rfl⟩
      case h_18 => exact hkeep ⟨lastPll_congr (adjustFan_xfers ..), rfl, rfl⟩
      all_goals exact hkeep ⟨rfl, rfl, rfl⟩
    have hreply := reply_same (b := b) (acceptPkg b s p) p
    rw [handlePkg_accept s p hcrc]
    exact ⟨hreply.synced haccept.1, hreply.bounded haccept.2⟩
  · rw [handlePkg, decodePkg_reject b s p hcrc]
    exact ⟨h, hb⟩

/-! ### Passes -/

/-- What a turn does to the registers and `reset_flag`. -/
def countTurn (a : (ℕ → Option Byte) × ℕ) (t : Turn b) : (ℕ → Option Byte) × ℕ :=
  if t.Counted then (if a.2 + 1 ≥ 10 then (written a.1 80 27, 0) else (a.1, a.2 + 1)) else a

theorem readOut_pll (t : Turn b) : lastPll t.readOut.1 = lastPll t.scan.fw.dev :=
  (getResult_pll b _ _ _).trans (getDone_pll b _ _)

theorem countInvalid_count (s : Fw σ) :
    (lastPll (countInvalid b s).dev, (countInvalid b s).resetFlag) =
    if s.resetFlag + 1 ≥ 10 then (written (lastPll s.dev) 80 27, 0)
        else (lastPll s.dev, s.resetFlag + 1) := by
  have hblink : lastPll (ledBlink b s.dev 0x08) = lastPll s.dev := lastPll_congr (ledBlink_xfers ..)
  have hreset : lastPll (chipHardReset b (ledBlink b s.dev 0x08)) = lastPll s.dev :=
    (lastPll_congr (chipHardReset_xfers ..)).trans hblink
  simp only [countInvalid]
  split
  · rw [setAllChipsIdle_pll, hreset]
  · rw [hblink]

theorem after_count (t : Turn b) : (lastPll t.after.fw.dev, t.after.fw.resetFlag) =
    countTurn (lastPll t.scan.fw.dev, t.scan.fw.resetFlag) t := by
  have hread := readOut_pll t
  have hflag : t.counting.resetFlag = t.scan.fw.resetFlag := rfl
  have hpll : lastPll t.counting.dev = lastPll t.scan.fw.dev := hread
  rw [countTurn, ← hpll, ← hflag]
  cases h : t.verified with
  | some nonce =>
    have hcounted : ¬t.Counted := fun hc => by
      rw [hc.1] at h
      cases h
    rw [t.after_verified h, if_neg hcounted]
    generalize t.counting = s
    exact Prod.ext (lastPll_congr (ledBlink_xfers ..)) rfl
  | none =>
    rw [t.after_none h]
    generalize t.counting = s
    by_cases hf : t.scan.found = true
    · have hcounted : ¬t.Counted := fun hc => by
        rw [hc.2] at hf
        cases hf
      rw [if_pos hf, if_neg hcounted]
    · rw [if_neg hf, if_pos ⟨h, Bool.eq_false_iff.mpr hf⟩]
      exact countInvalid_count s

theorem after_freq (t : Turn b) : t.after.fw.asicFreq = t.scan.fw.asicFreq := by
  have hfreq : t.counting.asicFreq = t.scan.fw.asicFreq := rfl
  rw [← hfreq]
  cases h : t.verified with
  | some nonce =>
    rw [t.after_verified h]
    generalize t.counting = s
    rfl
  | none =>
    rw [t.after_none h]
    generalize t.counting = s
    simp only [countInvalid]
    split
    · rfl
    · split <;> rfl

theorem written_twice (pll : ℕ → Option Byte) (n : ℕ) (v : Byte) :
    written (written pll n v) n v = written pll n v := by
  funext idx
  unfold written
  split <;> rfl

theorem countTurns (ts : List (Turn b)) (pll : ℕ → Option Byte) (flag : ℕ) (h : flag < 10) :
    ts.foldl countTurn (pll, flag) =
      (if 10 ≤ flag + ts.countP (fun t => t.Counted) then written pll 80 27 else pll,
        (flag + ts.countP fun t => t.Counted) % 10) := by
  induction ts generalizing pll flag with
  | nil => rw [List.countP_nil, Nat.add_zero, if_neg (by omega), Nat.mod_eq_of_lt h, List.foldl_nil]
  | cons t ts ih =>
    rw [List.foldl_cons, countTurn]
    by_cases hc : t.Counted
    · have hcons : (t :: ts).countP (fun t => decide t.Counted) =
          ts.countP (fun t => decide t.Counted) + 1 :=
        List.countP_cons_of_pos (by simpa using hc)
      rw [if_pos hc, hcons]
      generalize hn : ts.countP (fun t => decide t.Counted) = n at ih ⊢
      by_cases hflag : flag + 1 ≥ 10
      · rw [if_pos hflag, ih _ _ (by omega), if_pos (by omega : 10 ≤ flag + (n + 1)),
          written_twice, ite_self]
        exact congrArg (Prod.mk _) (by omega)
      · rw [if_neg hflag, ih _ _ (by omega), Nat.add_assoc, Nat.add_comm 1]
    · rw [if_neg hc, ih _ _ h, List.countP_cons_of_neg (by simpa using hc)]

/-- The hardware errors of a pass bring `reset_flag` to its limit. -/
def PassResets (b : Board σ) (s : Fw σ) : Prop :=
  10 ≤ s.resetFlag + (passTurns b s).countP fun t => t.Counted

instance (b : Board σ) (s : Fw σ) : Decidable (PassResets b s) :=
  inferInstanceAs (Decidable (_ ≤ _))

theorem pass_count (s : Fw σ) (hb : Bounded s) :
    lastPll (be200ReadResult b s).dev =
      (if PassResets b s then written (lastPll s.dev) 80 27 else lastPll s.dev) ∧
      (be200ReadResult b s).asicFreq = s.asicFreq ∧ (be200ReadResult b s).resetFlag < 10 := by
  have hskip (st : Scan σ) (idx : ℕ) (h : (be200GetDone b st.fw.dev idx).2 = none) :
      (lastPll (resultChip b st idx).fw.dev, (resultChip b st idx).fw.resetFlag) =
        (lastPll st.fw.dev, st.fw.resetFlag) := by
    rw [skip_eq h]
    exact Prod.ext (getDone_pll b st.fw.dev idx) rfl
  have hcount := pass_fold (b := b) (fun st => (lastPll st.fw.dev, st.fw.resetFlag))
    countTurn hskip after_count (passStart b s) (List.range chipNumber)
  have hfreq := pass_fold (b := b) (fun st => st.fw.asicFreq) (fun a _ => a)
    (fun st idx h => by rw [skip_eq h]) after_freq (passStart b s) (List.range chipNumber)
  rw [List.foldl_fixed] at hfreq
  have hturns := countTurns (passTurns b s) (lastPll s.dev) s.resetFlag hb.flag_lt
  have hend : (lastPll (be200ReadResult b s).dev, (be200ReadResult b s).resetFlag) = _ :=
    hcount.trans hturns
  rw [Prod.mk.injEq] at hend
  exact ⟨hend.1, hfreq, by rw [hend.2]; exact Nat.mod_lt _ (by decide)⟩

/-! ### Runs -/

/-- The step writes the default frequency without keeping it in `g_asic_freq`. -/
def WritesDefault (b : Board σ) (s : Fw σ) : Event → Prop
  | .pkg p => IsTask p
  | .readResult => PassResets b s
  | _ => False

/-- It does so only while `g_asic_freq` is the default, up to its last digit. -/
def InStep (b : Board σ) (s : Fw σ) (e : Event) : Prop :=
  WritesDefault b s e → s.asicFreq.toNat / 10 = 28

theorem step_default (s : Fw σ) (e : Event) (h : WritesDefault b s e) (hb : Bounded s) :
    ∃ n, Defaults s (step b s e) n := by
  cases e with
  | pkg p => exact task_defaults s p h
  | readResult =>
    have hreset : PassResets b s := h
    obtain ⟨hpll, hfreq, hflag⟩ := pass_count (b := b) s hb
    rw [if_pos hreset] at hpll
    exact ⟨80, hpll, hfreq, fun _ => hflag, by decide, by decide⟩
  | _ => exact absurd h id

theorem loopCheck_same (s : Fw σ) : Same s (checkIdle b (checkTemp b s)) := by
  have htemp : (checkTemp b s).asicFreq = s.asicFreq ∧ (checkTemp b s).resetFlag = s.resetFlag := by
    simp only [checkTemp]
    split <;> exact ⟨rfl, rfl⟩
  refine ⟨lastPll_congr (loopCheck_xfers b s), ?_, ?_⟩
  · rw [← htemp.1]
    simp only [checkIdle]
    split <;> rfl
  · rw [← htemp.2]
    simp only [checkIdle]
    split <;> rfl

theorem step_other (s : Fw σ) (e : Event) (h : ¬WritesDefault b s e) (hs : Synced s)
    (hb : Bounded s) :
    Synced (step b s e) ∧ Bounded (step b s e) := by
  have hkeep {s' : Fw σ} (hsame : Same s s') : Synced s' ∧ Bounded s' :=
    ⟨hsame.synced hs, hsame.bounded hb⟩
  cases e with
  | pkg p => exact pkg_synced s p h hs hb
  | loopHead => exact hkeep ⟨lastPll_congr (wdgFeedSec_xfers ..), rfl, rfl⟩
  | loopCheck => exact hkeep (loopCheck_same s)
  | dispatch idx =>
    have hck : lastPll (be200IsIdle b s.dev idx).1 = lastPll s.dev := ck_pll b s.dev idx
    simp only [step, dispatch]
    split
    · exact hkeep ⟨(load_pll b _ idx _).trans hck, rfl, rfl⟩
    · exact hkeep ⟨hck, rfl, rfl⟩
  | readResult =>
    have hreset : ¬PassResets b s := h
    obtain ⟨hpll, hfreq, hflag⟩ := pass_count (b := b) s hb
    rw [if_neg hreset] at hpll
    refine ⟨fun idx hidx => ?_, hfreq ▸ hb.freq_gt, hfreq ▸ hb.freq_le, hflag⟩
    rw [step, hpll, hfreq]
    exact hs idx hidx

theorem step_synced_iff (s : Fw σ) (e : Event) (hs : Synced s) (hb : Bounded s) :
    (Synced (step b s e) ↔ InStep b s e) ∧ Bounded (step b s e) := by
  by_cases h : WritesDefault b s e
  · obtain ⟨n, hn⟩ := step_default s e h hb
    refine ⟨?_, hn.freq ▸ hb.freq_gt, hn.freq ▸ hb.freq_le, hn.flag_lt hb.flag_lt⟩
    rw [hn.stays_synced hs]
    exact ⟨fun hfreq _ => hfreq, fun hin => hin h⟩
  · obtain ⟨hsynced, hbounded⟩ := step_other s e h hs hb
    exact ⟨⟨fun _ hw => absurd hw h, fun _ => hsynced⟩, hbounded⟩

theorem start_synced (b : Board σ) (env : σ) : Synced (start b env) ∧ Bounded (start b env) := by
  have hfreq : (start b env).asicFreq.toNat = 280 := rfl
  have hflag : (start b env).resetFlag = 0 := rfl
  refine ⟨fun idx hidx => ⟨27, ?_, by rw [hfreq]; rfl⟩, by omega, by omega, by omega⟩
  have hdev : ∃ d, lastPll (start b env).dev = lastPll (setAllChipsIdle b d) :=
    ⟨_, lastPll_congr (timerSet_xfers ..)⟩
  obtain ⟨d, hd⟩ := hdev
  rw [hd, setAllChipsIdle_pll]
  exact if_pos hidx

/-- **The PLL registers agree with `g_asic_freq`** at every step boundary of a run exactly when each
step of it that writes the default frequency meets that frequency in `g_asic_freq`. -/
theorem synced_iff (b : Board σ) (env : σ) (es : List Event) :
    (∀ pre, pre <+: es → Synced (Run.run (step b) (start b env) pre)) ↔
      Run.Meets (step b) (InStep b) (start b env) es := by
  have hrun (es : List Event) (s : Fw σ) (hs : Synced s) (hb : Bounded s) :
      (∀ pre, pre <+: es → Synced (Run.run (step b) s pre)) ↔
        Run.Meets (step b) (InStep b) s es := by
    induction es generalizing s with
    | nil =>
      refine ⟨fun _ => trivial, fun _ pre hpre => ?_⟩
      rw [List.prefix_nil.mp hpre]
      exact hs
    | cons e es ih =>
      obtain ⟨hiff, hbounded⟩ := step_synced_iff (b := b) s e hs hb
      constructor
      · intro h
        have hfirst : Synced (step b s e) :=
          h [e] (List.cons_prefix_cons.mpr ⟨rfl, List.nil_prefix⟩)
        refine ⟨hiff.mp hfirst, (ih _ hfirst hbounded).mp fun pre hpre => ?_⟩
        exact h (e :: pre) (List.cons_prefix_cons.mpr ⟨rfl, hpre⟩)
      · rintro ⟨hin, hrest⟩ pre hpre
        cases pre with
        | nil => exact hs
        | cons e' pre =>
          obtain ⟨rfl, htail⟩ := List.cons_prefix_cons.mp hpre
          exact (ih _ (hiff.mpr hin) hbounded).mpr hrest pre htail
  exact hrun es _ (start_synced b env).1 (start_synced b env).2

/-- SET asks for 300 MHz, then a self-test task runs. -/
def testRun : List Event :=
  [.pkg (setPkg [500, 300, 0, 0xffffffff]), .pkg (hostPkg .itpTask 2 2 [])]

theorem test_unsynced : (∀ p, Event.pkg p ∈ testRun → CrcOk p) ∧
    (Run.run (step (stillBoard 7)) (start (stillBoard 7) ()) testRun).asicFreq = 300 ∧
    lastPll (Run.run (step (stillBoard 7)) (start (stillBoard 7) ()) testRun).dev 0 = some 27 ∧
    ¬Synced (Run.run (step (stillBoard 7)) (start (stillBoard 7) ()) testRun) := by
  have hset :
      (step (stillBoard 7) (start (stillBoard 7) ())
        (.pkg (setPkg [500, 300, 0, 0xffffffff]))).asicFreq = 300 := by
    decide +kernel
  have htask : IsTask (hostPkg .itpTask 2 2 []) := ⟨hostPkg_crcOk .., Or.inl (hostPkg_type ..), rfl⟩
  refine ⟨fun p hp => ?_, ?_⟩
  · simp only [testRun, List.mem_cons, Event.pkg.injEq, List.not_mem_nil, or_false] at hp
    rcases hp with rfl | rfl <;> exact hostPkg_crcOk ..
  · rw [testRun, Run.run_cons, Run.run_cons, Run.run_nil]
    generalize step (stillBoard 7) (start (stillBoard 7) ())
      (.pkg (setPkg [500, 300, 0, 0xffffffff])) = s at hset ⊢
    obtain ⟨n, hn⟩ := task_defaults (b := stillBoard 7) s _ htask
    have hpll := congrFun hn.pll 0
    rw [written, if_pos hn.pos] at hpll
    have hfreq := hn.freq.trans hset
    rw [step]
    refine ⟨hfreq, hpll, fun hs => ?_⟩
    obtain ⟨v, hv, hval⟩ := hs 0 (by decide)
    rw [Option.some.inj (hv.symm.trans hpll), hfreq] at hval
    revert hval
    decide

end HashRatio.Frequency
