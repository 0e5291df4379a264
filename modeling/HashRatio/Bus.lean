import HashRatio.MainLoop

/-!
# The transfers of the drivers

What each driver puts on the SPI bus: the first byte of a transfer says whether
it checks, reads or writes, and the register. Everything but the two drivers
that load or clear a chip adds transfers that do neither.
-/

namespace HashRatio.Bus
open Bytes Protocol Drivers State Packets Results MainLoop

variable {σ : Type}

/-! ### Kinds of transfers -/

def Sends (x : Xfer σ) (cmd : Byte) : Prop := x.sent.head? = some cmd

instance (x : Xfer σ) (cmd : Byte) : Decidable (Sends x cmd) := inferInstanceAs (Decidable (_ = _))

def IsCheck (x : Xfer σ) : Prop := Sends x be200CmdCheck
def Reads (x : Xfer σ) (reg : ℕ) : Prop := Sends x (be200CmdReadReg reg)
def IsClear (x : Xfer σ) : Prop := Reads x be200RegClear
def IsStart (x : Xfer σ) : Prop := Sends x (be200CmdWriteReg be200RegStart)

instance (x : Xfer σ) : Decidable (IsCheck x) := inferInstanceAs (Decidable (Sends x _))
instance (x : Xfer σ) (reg : ℕ) : Decidable (Reads x reg) := inferInstanceAs (Decidable (Sends x _))
instance (x : Xfer σ) : Decidable (IsClear x) := inferInstanceAs (Decidable (Sends x _))
instance (x : Xfer σ) : Decidable (IsStart x) := inferInstanceAs (Decidable (Sends x _))

theorem ck_xfers (b : Board σ) (d : Dev σ) (idx : ℕ) :
    (be200CmdCk b d idx).1.xfers = ⟨d.env, idx, [0, 0, d.writeBuffer 2]⟩ :: d.xfers := rfl

theorem rd_xfers (b : Board σ) (d : Dev σ) (idx reg : ℕ) :
    (be200CmdRd b d idx reg).1.xfers = ⟨d.env, idx, [be200CmdReadReg reg, 0, 0, 0]⟩ :: d.xfers :=
  rfl

theorem wr_xfers (b : Board σ) (d : Dev σ) (idx reg : ℕ) (value : Byte) :
    (be200CmdWr b d idx reg value).xfers = ⟨d.env, idx, [be200CmdWriteReg reg, value]⟩ :: d.xfers :=
  rfl

/-! ### Drivers that neither clear nor start -/

/-- From `d` to `d'` no chip is cleared or started. -/
def Plain (d d' : Dev σ) : Prop :=
  ∃ new, d'.xfers = new ++ d.xfers ∧ ∀ x ∈ new, ¬IsClear x ∧ ¬IsStart x

theorem plain_of_eq {d d' : Dev σ} (h : d'.xfers = d.xfers) : Plain d d' := ⟨[], h, by simp⟩

theorem Plain.trans {d d' d'' : Dev σ} (h : Plain d d') (h' : Plain d' d'') : Plain d d'' := by
  obtain ⟨new, hnew, hplain⟩ := h
  obtain ⟨new', hnew', hplain'⟩ := h'
  refine ⟨new' ++ new, by rw [hnew', hnew, List.append_assoc], fun x hx => ?_⟩
  rcases List.mem_append.mp hx with hx | hx
  · exact hplain' x hx
  · exact hplain x hx

theorem sends_iff (env : σ) (idx : ℕ) (c : Byte) (rest : List Byte) (cmd : Byte) :
    Sends ⟨env, idx, c :: rest⟩ cmd ↔ c = cmd :=
  ⟨fun h => Option.some.inj h, fun h => congrArg some h⟩

theorem plain_cons {d d' : Dev σ} (env : σ) (idx : ℕ) (c : Byte) (rest : List Byte)
    (h : d'.xfers = ⟨env, idx, c :: rest⟩ :: d.xfers) (hc : c ≠ be200CmdReadReg be200RegClear)
    (hs : c ≠ be200CmdWriteReg be200RegStart) : Plain d d' := by
  refine ⟨[⟨env, idx, c :: rest⟩], h, fun x hx => ?_⟩
  rw [List.mem_singleton.mp hx]
  exact ⟨fun h => hc ((sends_iff ..).mp h), fun h => hs ((sends_iff ..).mp h)⟩

theorem readReg_ne (reg : ℕ) (h : reg < 62) :
    be200CmdReadReg reg ≠ be200CmdReadReg be200RegClear ∧
      be200CmdReadReg reg ≠ be200CmdWriteReg be200RegStart := by
  revert reg
  decide

theorem writeReg_ne (reg : ℕ) (h : reg < 46) (hne : reg ≠ be200RegStart) :
    be200CmdWriteReg reg ≠ be200CmdReadReg be200RegClear ∧
      be200CmdWriteReg reg ≠ be200CmdWriteReg be200RegStart := by
  revert reg
  decide

theorem ck_plain (b : Board σ) (d : Dev σ) (idx : ℕ) : Plain d (be200CmdCk b d idx).1 :=
  plain_cons _ _ _ _ (ck_xfers b d idx) (by decide) (by decide)

theorem rd_plain (b : Board σ) (d : Dev σ) (idx reg : ℕ) (h : reg < 62) :
    Plain d (be200CmdRd b d idx reg).1 :=
  plain_cons _ _ _ _ (rd_xfers b d idx reg) (readReg_ne reg h).1 (readReg_ne reg h).2

theorem wr_plain (b : Board σ) (d : Dev σ) (idx reg : ℕ) (value : Byte) (h : reg < 46)
    (hne : reg ≠ be200RegStart) :
    Plain d (be200CmdWr b d idx reg value) :=
  plain_cons _ _ _ _ (wr_xfers b d idx reg value) (writeReg_ne reg h hne).1
    (writeReg_ne reg h hne).2

theorem inputFrom_plain (b : Board σ) (idx : ℕ) (task : List Byte) (n i : ℕ) (d : Dev σ)
    (h : i + n ≤ 44) :
    Plain d (inputFrom b idx task n i d).1 := by
  induction n generalizing i d with
  | zero => exact plain_of_eq rfl
  | succ n ih =>
    have hwr := wr_plain b d idx i (task.getD i 0) (by omega) (by unfold be200RegStart; omega)
    have hrd := rd_plain b (be200CmdWr b d idx i (task.getD i 0)) idx i (by omega)
    simp only [inputFrom]
    split
    · exact hwr.trans hrd
    · exact (hwr.trans hrd).trans (ih (i + 1) _ (by omega))

theorem inputTask_plain (b : Board σ) (d : Dev σ) (idx : ℕ) (task : List Byte) :
    Plain d (be200InputTask b d idx task).1 := inputFrom_plain b idx task 44 0 d (by omega)

theorem freqWriteAll_plain (b : Board σ) (d : Dev σ) (n : ℕ) (multi : Byte) :
    Plain d (freqWriteAll b d n multi) := by
  have hfold (is : List ℕ) (d : Dev σ) :
      Plain d (is.foldl (fun d i => freqWrite b d i multi) d) := by
    induction is generalizing d with
    | nil => exact plain_of_eq rfl
    | cons i is ih => exact (wr_plain b d i be200RegPll _ (by decide) (by decide)).trans (ih _)
  exact hfold (List.range n) d

/-! ### Drivers that use other buses -/

section registers
variable (b : Board σ) (d : Dev σ)

@[simp] theorem writel_xfers (r : Reg) (v : Word) : (writel b d r v).xfers = d.xfers := rfl
@[simp] theorem readl_xfers (r : Reg) : (readl b d r).1.xfers = d.xfers := rfl
@[simp] theorem readTemp_xfers : (readTemp b d).1.xfers = d.xfers := rfl
@[simp] theorem readTemps_xfers : (readTemps b d).1.xfers = d.xfers := rfl
@[simp] theorem readFans_xfers : (readFans b d).1.xfers = d.xfers := rfl
@[simp] theorem timerRead_xfers (timer : ℕ) : (timerRead b d timer).1.xfers = d.xfers := rfl
@[simp] theorem gpioModify_xfers (f : Word → Word) : (gpioModify b d f).xfers = d.xfers := rfl
@[simp] theorem ledOn_xfers (mask : Byte) : (ledOn b d mask).xfers = d.xfers := rfl
@[simp] theorem ledOff_xfers (mask : Byte) : (ledOff b d mask).xfers = d.xfers := rfl
@[simp] theorem ledBlink_xfers (mask : Byte) : (ledBlink b d mask).xfers = d.xfers := rfl
@[simp] theorem chipHardReset_xfers : (chipHardReset b d).xfers = d.xfers := rfl
@[simp] theorem wdgFeedSec_xfers (seconds : Word) : (wdgFeedSec b d seconds).xfers = d.xfers := rfl

@[simp] theorem timerSet_xfers (timer : ℕ) (load : Byte) :
    (timerSet b d timer load).xfers = d.xfers := by
  simp only [timerSet]
  split <;> rfl

@[simp] theorem adjustFan_xfers (pwm : ℤ) : (adjustFan b d pwm).xfers = d.xfers := by
  simp only [adjustFan]
  split <;> rfl

end registers

/-! ### Replies, the ends of the main loop, the start -/

theorem sendPkg_xfers (b : Board σ) (s : Fw σ) (type : PkgType) (buf : List Byte) (idx cnt : Byte) :
    (sendPkg b s type buf idx cnt).dev.xfers = s.dev.xfers := by
  simp only [sendPkg, encodePkg]
  split <;> simp

theorem be200Polling_xfers (b : Board σ) (s : Fw σ) :
    (be200Polling b s).dev.xfers = s.dev.xfers := by
  unfold be200Polling
  split <;> simp only [sendPkg_xfers]

theorem reply_xfers (b : Board σ) (s : Fw σ) (p : Pkg) : (reply b s p).dev.xfers = s.dev.xfers := by
  unfold reply
  split <;> simp only [sendPkg_xfers]

theorem handleSet_plain (b : Board σ) (s : Fw σ) (p : Pkg) : Plain s.dev (handleSet b s p).dev := by
  have hpre : Plain s.dev (adjustFan b (timerSet b s.dev 0 idleTime) (dataWord p 0).toInt) :=
    plain_of_eq (by simp)
  simp only [handleSet]
  split
  · exact (hpre.trans (freqWriteAll_plain b _ _ _)).trans (plain_of_eq (ledBlink_xfers ..))
  · exact hpre.trans (plain_of_eq (ledBlink_xfers ..))

theorem loopCheck_xfers (b : Board σ) (s : Fw σ) :
    (checkIdle b (checkTemp b s)).dev.xfers = s.dev.xfers := by
  have htemp : (checkTemp b s).dev.xfers = s.dev.xfers := by
    simp only [checkTemp]
    split <;> split <;> simp
  simp only [checkIdle]
  split <;> simp [htemp]

theorem start_plain (b : Board σ) (env : σ) : Plain (Fw.init env).dev (start b env).dev := by
  have hblink (is : List ℕ) (d : Dev σ) :
      (is.foldl (fun d _ => ledOff b (ledOn b d 0xFF) 0xFF) d).xfers = d.xfers := by
    induction is generalizing d with
    | nil => rfl
    | cons i is ih => rw [List.foldl_cons, ih, ledOff_xfers, ledOn_xfers]
  simp only [start, setAllChipsIdle]
  refine Plain.trans ?_ ((freqWriteAll_plain b _ _ _).trans (plain_of_eq (timerSet_xfers ..)))
  apply plain_of_eq
  rw [chipHardReset_xfers, adjustFan_xfers, ledOn_xfers, hblink, ledOff_xfers,
    wdgFeedSec_xfers, writel_xfers]

end HashRatio.Bus
