import HashRatio.Soundness

/-!
# One job per work

A ledger beside the firmware keeps the data each chip's work was made from and
which chip each waiting result came from; the firmware keeps slot indexes. A slot
still holds the data of a work as long as no packet is stored in it before the
results of the work are out. Three slots do not give that: with the third SET
after a dispatch the chip's slot is filled again.
-/

namespace HashRatio.Provenance
open Bytes Memory MmWork Miner Job Protocol Drivers State Packets Results MainLoop Bounds
  Slots Generation Pass
open ResultRing Soundness

variable {σ : Type} {b : Board σ}

-- no simp set is to evaluate a test
attribute [local irreducible] Jobs.test

/-! ### What chips are given -/

/-- A work with the memory `miner_gen_nonce2_work` made it in. -/
structure Given where
  mem : Mem Byte
  work : Work

def Given.slot (g : Given) : ℤ := slotAddr g.work.mmIdx

def Given.job (g : Given) : JobData := jobAt g.mem g.slot

/-- What `test_nonce` says of a nonce on the data the work was made from. -/
def Given.verdict (g : Given) (nonce : Word) : NonceCheck :=
  (testNonce g.mem g.slot g.work.nonce2 nonce).2

/-- What a chip was given last; the data of an ITP task is of no job. -/
inductive Task where
  | none
  | itp
  | work (g : Given)

/-- What is asked of a nonce: `P` of the work it was found for, nothing of a chip that was given
nothing. The firmware has no job for what a chip finds on an ITP task. -/
def Task.Of (P : Given → Prop) : Task → Prop
  | .none => True
  | .itp => False
  | .work g => P g

theorem Task.Of.imp {P Q : Given → Prop} {task : Task} (h : task.Of P)
    (hpq : ∀ g, task = .work g → P g → Q g) : task.Of Q := by
  cases task with
  | none => trivial
  | itp => exact h
  | work g => exact hpq g rfl h

structure Entry where
  task : Task
  chip : ℕ
  nonce : Word

structure Ledger where
  chips : ℕ → Task
  ring : ℕ → Entry

namespace Ledger

def empty : Ledger := ⟨fun _ => .none, fun _ => ⟨.none, 0, 0⟩⟩

def give (L : Ledger) (idx : ℕ) (g : Given) : Ledger :=
  {L with chips := fun i => if i = idx then .work g else L.chips i}

def giveItp (L : Ledger) (n : ℕ) : Ledger :=
  {L with chips := fun i => if i < n then .itp else L.chips i}

def put (L : Ledger) (pos chip : ℕ) (nonce : Word) : Ledger :=
  {L with ring := fun k => if k = pos then ⟨L.chips chip, chip, nonce⟩ else L.ring k}

def turn (L : Ledger) (t : Turn b) : Ledger := t.verified.elim L (L.put t.tested.retProduce t.chip)

end Ledger

/-- How many chips an accepted packet starts on ITP data. -/
def itpChips (p : Pkg) : ℕ :=
  if pkgIdx p = 2 then
    match pkgType p with
    | some .itpTask => 80
    | some .itpSingleTask => 16
    | _ => 0
  else 0

def Ledger.next (b : Board σ) (s : Fw σ) (L : Ledger) : Event → Ledger
  | .pkg p => if CrcOk p then L.giveItp (itpChips p) else L
  | .dispatch idx =>
    if (be200IsIdle b s.dev idx).2 then
      L.give idx ⟨s.jobs.bumpNonce2, (s.jobs.genWork idx).2⟩ else L
  | .readResult => (passTurns b s).foldl Ledger.turn L
  | _ => L

/-- The firmware and the ledger side by side. -/
def watch (b : Board σ) (x : Fw σ × Ledger) (e : Event) : Fw σ × Ledger :=
  (step b x.1 e, x.2.next b x.1 e)

/-! ### What is claimed of a step -/

/-- Every candidate of the turn is tested on the job of the chip's work, with the outcome it has
on the data the work was made from. -/
def Verifies (L : Ledger) (t : Turn b) : Prop :=
  (L.chips t.chip).Of fun g =>
    jobAt t.scan.fw.jobs.works (slotAddr (status t).mmIdx) = g.job ∧
      ∀ r ∈ t.tests, r.2 = g.verdict r.1

/-- Bytes 16 to 19 of a NONCE packet. -/
def frameJobId (q : Pkg) : List Byte := ((pkgData q).drop 16).take 4

/-- The frame tells of the entry's nonce, for the job of its work. -/
def Reports (en : Entry) (q : Pkg) : Prop :=
  en.task.Of fun g => frameReport q = ⟨BitVec.ofNat 32 en.chip, g.work.nonce2, en.nonce⟩ ∧
    dataWord q 1 = g.job.poolNo ∧ frameJobId q = g.job.jobId

def Faithful (b : Board σ) (x : Fw σ × Ledger) (e : Event) : Prop :=
  (e = .readResult → ∀ t ∈ passTurns b x.1, Verifies x.2 t) ∧
    ∀ q ∈ sent b x.1 e, pkgType q = some .nonce → Reports (x.2.ring x.1.jobs.retConsume) q

/-! ### Slots in use -/

/-- `pos` holds a result that was not reported. -/
def Pending (j : Jobs) (pos : ℕ) : Prop :=
  pos < 64 ∧ (pos + 64 - j.retConsume) % 64 < (j.retProduce + 64 - j.retConsume) % 64

/-- The slot of a work that a chip has, or that a waiting result was found for. -/
def InUse (L : Ledger) (j : Jobs) (slot : ℕ) : Prop :=
  (∃ idx g, L.chips idx = .work g ∧ g.work.mmIdx = slot) ∨
    ∃ pos g, Pending j pos ∧ (L.ring pos).task = .work g ∧ g.work.mmIdx = slot

def Stores (p : Pkg) : Prop :=
  pkgType p ∈ [some .static, some .jobId, some .coinbase, some .merkles, some .header, some .target]

/-- An accepted packet is in range and is not stored in a slot that is in use; no chip that is
found ready has an ITP task. -/
def EventKept (b : Board σ) (x : Fw σ × Ledger) : Event → Prop
  | .pkg p => CrcOk p → PktOk p ∧ (Stores p → ¬InUse x.2 x.1.jobs x.1.jobs.mmWriteIdx)
  | .readResult => ∀ t ∈ passTurns b x.1, x.2.chips t.chip ≠ .itp
  | _ => True

theorem pkgStore_none (p : Pkg) (h : ¬Stores p) (m : Mem Byte) (mw : ℤ) : pkgStore p m mw = m := by
  unfold Stores at h
  unfold pkgStore
  cases ht : pkgType p with
  | none => rfl
  | some t =>
    rw [ht] at h
    cases t <;> first | rfl | exact absurd (by decide) h

/-! ### Memory that still holds what was given -/

structure Holds (m : Mem Byte) (g : Given) : Prop where
  slot_lt : g.work.mmIdx < mmBufNum
  safe : Safe g.mem g.slot
  same : SameSlot g.mem m g.slot

namespace Holds
variable {m m' : Mem Byte} {g : Given}

theorem trans (h : Holds m g) (hm : SameSlot m m' g.slot) : Holds m' g :=
  ⟨h.slot_lt, h.safe, sameSlot_trans h.safe h.same hm⟩

theorem job (h : Holds m g) : jobAt m g.slot = g.job := jobAt_same h.safe h.same

theorem verdict (h : Holds m g) (nonce : Word) :
    (testNonce m g.slot g.work.nonce2 nonce).2 = g.verdict nonce :=
  testNonce_same h.safe h.same g.work.nonce2 nonce

end Holds

/-- The slots the chips and the waiting results refer to hold what the ledger says. -/
structure Kept (L : Ledger) (j : Jobs) : Prop where
  slots : SlotsOk j
  produce_lt : j.retProduce < 64
  consume_lt : j.retConsume < 64
  chips : ∀ idx g, L.chips idx = .work g →
    Holds j.works g ∧ j.minerStatus idx = ⟨g.work.nonce2, g.work.mmIdx⟩
  ring : ∀ pos, Pending j pos → (L.ring pos).task.Of fun g =>
    Holds j.works g ∧
      j.resultBuff pos = ⟨g.work.nonce2, (L.ring pos).nonce, (L.ring pos).chip, g.work.mmIdx⟩

theorem kept_start (env : σ) (b : Board σ) : Kept Ledger.empty (start b env).jobs where
  slots := slotsOk_init
  produce_lt := Nat.zero_lt_succ _
  consume_lt := Nat.zero_lt_succ _
  chips := fun _ _ h => by cases h
  ring := fun _ _ => trivial

/-! ### Operations that give no chip a work and put nothing into the ring -/

def OpKept (L : Ledger) (j : Jobs) : JobOp → Prop
  | .store p => PktOk p ∧ (Stores p → ¬InUse L j j.mmWriteIdx)
  | .dispatch _ | .push _ _ => False
  | _ => True

section op
variable {L : Ledger} {j : Jobs} {op : JobOp} (h : Kept L j) (hok : OpKept L j op)
include h hok

theorem apply_holds {g : Given} (hg : Holds j.works g) (huse : InUse L j g.work.mmIdx) :
    Holds (j.apply op).works g := by
  refine hg.trans ?_
  by_cases hop : ∃ p, op = .store p
  · obtain ⟨p, rfl⟩ := hop
    by_cases hs : Stores p
    · have hne : g.work.mmIdx ≠ j.mmWriteIdx := fun he => hok.2 hs (he ▸ huse)
      exact store_same j p hok.1.idx _ hne
    · rw [apply_store, Jobs.store, pkgStore_none p hs]
      exact sameSlot_refl _ _
  · exact apply_sameSlots j h.slots op (fun p hp => hop ⟨p, hp⟩) _ hg.slot_lt

omit h in
theorem apply_opOk : OpOk op := by
  cases op with
  | store p => exact hok.1
  | _ => trivial

omit hok in
theorem pop_places : (j.apply .pop).retConsume < 64 ∧ (j.apply .pop).retProduce = j.retProduce ∧
    (j.apply .pop).resultBuff = j.resultBuff ∧ ∀ pos, Pending (j.apply .pop) pos →
    Pending j pos := by
  have hp := h.produce_lt
  have hc := h.consume_lt
  rcases apply_pop_cases j with ⟨_, hpop⟩ | ⟨_, hpop⟩
  · rw [hpop]
    exact ⟨hc, rfl, rfl, fun pos hpos => hpos⟩
  · rw [hpop]
    refine ⟨?_, rfl, rfl, fun pos hpos => ?_⟩
    · simp only [ringNext_eq]
      omega
    · simp only [Pending, ringNext_eq] at hpos
      unfold Pending
      omega

/-- No place of the ring is filled, and none that was not waiting is waiting. -/
theorem apply_places : (j.apply op).retProduce < 64 ∧ (j.apply op).retConsume < 64 ∧
    (j.apply op).resultBuff = j.resultBuff ∧ ∀ pos, Pending (j.apply op) pos → Pending j pos := by
  have hp := h.produce_lt
  have hc := h.consume_lt
  cases op with
  | dispatch idx => exact hok.elim
  | push idx nonce => exact hok.elim
  | pop =>
    obtain ⟨hconsume, hproduce, hbuff, hpending⟩ := pop_places h
    exact ⟨hproduce ▸ hp, hconsume, hbuff, hpending⟩
  | clearRing =>
    refine ⟨Nat.zero_lt_succ _, Nat.zero_lt_succ _, rfl, fun pos hpos => ?_⟩
    simp only [apply_clearRing, Jobs.clearRing, Pending] at hpos
    omega
  | test idx nonce =>
    rw [apply_test, test_note]
    exact ⟨hp, hc, rfl, fun pos hpos => hpos⟩
  | _ => exact ⟨hp, hc, rfl, fun pos hpos => hpos⟩

theorem apply_kept : Kept L (j.apply op) := by
  have hdispatch : ∀ idx, op ≠ .dispatch idx := by
    rintro idx rfl
    exact hok
  obtain ⟨hproduce, hconsume, hbuff, hpending⟩ := apply_places h hok
  refine ⟨apply_slotsOk j h.slots op (apply_opOk hok), hproduce, hconsume, fun idx g hg => ?_,
    fun pos hpos => (h.ring pos (hpending pos hpos)).imp fun g hg hold => ?_⟩
  · obtain ⟨hholds, hstatus⟩ := h.chips idx g hg
    rw [apply_status j op hdispatch]
    exact ⟨apply_holds h hok hholds (.inl ⟨idx, g, hg, rfl⟩), hstatus⟩
  · rw [hbuff]
    exact ⟨apply_holds h hok hold.1 (.inr ⟨pos, g, hpending pos hpos, hg, rfl⟩), hold.2⟩

end op

/-! ### Works given and nonces kept -/

section given
variable {L : Ledger} {j : Jobs} (h : Kept L j)
include h

theorem giveItp_kept (n : ℕ) : Kept (L.giveItp n) j := by
  refine ⟨h.slots, h.produce_lt, h.consume_lt, fun idx g hg => ?_, h.ring⟩
  simp only [Ledger.giveItp] at hg
  by_cases hi : idx < n
  · rw [if_pos hi] at hg
    cases hg
  · rw [if_neg hi] at hg
    exact h.chips idx g hg

theorem dispatch_kept (idx : ℕ) :
    Kept (L.give idx ⟨j.bumpNonce2, (j.genWork idx).2⟩) (j.apply (.dispatch idx)) := by
  have hslots := apply_slotsOk j h.slots (.dispatch idx) trivial
  have hsafe := allSafe_same h.slots.safe (bump_sameSlots j h.slots)
  have hnew : SameSlots j.bumpNonce2 (j.apply (.dispatch idx)).works := by
    rw [apply_dispatch, genWork_note]
    exact minerGen_sameSlots j.bumpNonce2 j.curMmIdx h.slots.cur_lt hsafe _
  have hold : SameSlots j.works (j.apply (.dispatch idx)).works := dispatch_sameSlots j h.slots idx
  have hstatus (i : ℕ) : (j.apply (.dispatch idx)).minerStatus i =
      if i = idx then ⟨(j.genWork idx).2.nonce2, (j.genWork idx).2.mmIdx⟩ else j.minerStatus i := by
    rw [apply_dispatch, genWork_note]
    rfl
  have hplaces : (j.apply (.dispatch idx)).resultBuff = j.resultBuff ∧
      (j.apply (.dispatch idx)).retProduce = j.retProduce ∧
      (j.apply (.dispatch idx)).retConsume = j.retConsume := by
    rw [apply_dispatch, genWork_note]
    exact ⟨rfl, rfl, rfl⟩
  generalize j.apply (.dispatch idx) = j' at *
  obtain ⟨hbuff, hproduce, hconsume⟩ := hplaces
  refine ⟨hslots, hproduce ▸ h.produce_lt, hconsume ▸ h.consume_lt, fun i g hg => ?_,
    fun pos hpos => ?_⟩
  · rw [hstatus]
    simp only [Ledger.give] at hg
    by_cases hi : i = idx
    · rw [if_pos hi] at hg ⊢
      cases hg
      exact ⟨⟨h.slots.cur_lt, hsafe _ h.slots.cur_lt, hnew _ h.slots.cur_lt⟩, rfl⟩
    · rw [if_neg hi] at hg ⊢
      obtain ⟨hholds, hi'⟩ := h.chips i g hg
      exact ⟨hholds.trans (hold _ hholds.slot_lt), hi'⟩
  · rw [Pending, hproduce, hconsume] at hpos
    rw [hbuff]
    exact (h.ring pos hpos).imp fun g _ hg => ⟨hg.1.trans (hold _ hg.1.slot_lt), hg.2⟩

theorem push_kept (idx : ℕ) (nonce : Word) (hitp : L.chips idx ≠ .itp) :
    Kept (L.put j.retProduce idx nonce) (j.push idx nonce) := by
  have hp := h.produce_lt
  have hc := h.consume_lt
  refine ⟨apply_slotsOk j h.slots (.push idx nonce) trivial, ?_, hc, h.chips, fun pos hpos => ?_⟩
  · simp only [Jobs.push, ringNext_eq]
    omega
  · simp only [Jobs.push, Pending, ringNext_eq] at hpos
    simp only [Jobs.push, Ledger.put]
    by_cases hk : pos = j.retProduce
    · rw [if_pos hk, if_pos hk]
      cases htask : L.chips idx with
      | none => trivial
      | itp => exact hitp htask
      | work g =>
        obtain ⟨hholds, hstatus⟩ := h.chips idx g htask
        exact ⟨hholds, by rw [hstatus]⟩
    · -- a pending place other than the one just filled was pending before
      rw [if_neg hk, if_neg hk]
      exact h.ring pos (by unfold Pending; omega)

end given

/-! ### A turn of a result pass -/

theorem turn_chips (L : Ledger) (t : Turn b) : (L.turn t).chips = L.chips := by
  unfold Ledger.turn
  cases t.verified <;> rfl

section turn
variable {L : Ledger} {t : Turn b} (h : Kept L t.scan.fw.jobs) (hitp : L.chips t.chip ≠ .itp)
include h

theorem tested_kept : Kept L t.tested := by
  have hready : Kept L t.jobs := apply_kept h (show OpKept L _ (.ready t.chip t.mask) from trivial)
  refine Run.run_invariant Jobs.apply (OpKept L) (Kept L)
    (fun j op hop hj => apply_kept hj hop) t.jobs _
    (Run.meets_of_forall Jobs.apply _ t.jobs _ fun op hop j => ?_) hready
  obtain ⟨r, _, rfl⟩ := List.mem_map.mp hop
  trivial

include hitp

theorem turn_kept : Kept (L.turn t) t.after.fw.jobs := by
  have htested := tested_kept h
  have hafter := t.after_jobs
  rw [Ledger.turn]
  generalize t.tested = j at *
  rw [hafter]
  cases t.verified with
  | none => rwa [Option.elim_none, Option.elim_none]
  | some nonce =>
    rw [Option.elim_some, Option.elim_some]
    exact push_kept htested t.chip nonce hitp

theorem turn_verifies : Verifies L t := by
  rw [Verifies]
  cases htask : L.chips t.chip with
  | none => trivial
  | itp => exact hitp htask
  | work g =>
    obtain ⟨hholds, hstatus⟩ := h.chips t.chip g htask
    have hslot : slotAddr (status t).mmIdx = g.slot := by
      rw [status, hstatus]
      rfl
    have hn2 : (status t).nonce2 = g.work.nonce2 := by rw [status, hstatus]
    refine ⟨by rw [hslot, hholds.job], fun r hr => ?_⟩
    have hsafe : Safe t.jobs.works (slotAddr (t.jobs.minerStatus t.chip).mmIdx) := by
      rw [jobs_works, jobs_status, hslot]
      exact safe_same hholds.safe hholds.same
    rw [Accounting.tries_same t.chip t.base diffNonce t.jobs hsafe r hr, jobs_works,
      jobs_status, hslot, hn2, hholds.verdict]

end turn

theorem pass_kept {L : Ledger} (st : Scan σ) (is : List ℕ) (h : Kept L st.fw.jobs)
    (hitp : ∀ t ∈ turnsFrom b st is, L.chips t.chip ≠ .itp) :
    Kept ((turnsFrom b st is).foldl Ledger.turn L) (is.foldl (resultChip b) st).fw.jobs ∧
      ∀ t ∈ turnsFrom b st is, Verifies L t := by
  induction is generalizing st L with
  | nil => exact ⟨h, fun t ht => by cases ht⟩
  | cons idx is ih =>
    rw [turnsFrom] at hitp ⊢
    rw [List.foldl_cons]
    cases hdone : (be200GetDone b st.fw.dev idx).2 with
    | none =>
      rw [turnAt_none hdone, Option.toList_none, List.nil_append] at hitp ⊢
      exact ih _ (by rwa [skip_eq hdone]) hitp
    | some mask =>
      rw [turnAt_some hdone, Option.toList_some, List.singleton_append] at hitp ⊢
      obtain ⟨hfirst, hrest⟩ := List.forall_mem_cons.mp hitp
      have hih := ih (L := L.turn _) _ (turn_kept h hfirst) fun t ht => by
        rw [turn_chips]
        exact hrest t ht
      refine ⟨hih.1, List.forall_mem_cons.mpr ⟨turn_verifies h hfirst, fun t ht => ?_⟩⟩
      have hverifies := hih.2 t ht
      rwa [Verifies, turn_chips] at hverifies

/-! ### Steps -/

section step
variable {L : Ledger} {s : Fw σ} (h : Kept L s.jobs)
include h

theorem pkg_kept (p : Pkg)
    (hok : CrcOk p → PktOk p ∧ (Stores p → ¬InUse L s.jobs s.jobs.mmWriteIdx)) :
    Kept (L.next b s (.pkg p)) (step b s (.pkg p)).jobs := by
  rw [step, handlePkg_jobs, Ledger.next]
  by_cases hcrc : CrcOk p
  · rw [if_pos hcrc, if_pos hcrc]
    refine giveItp_kept (apply_kept h ?_) _
    unfold acceptOp
    split
    · trivial
    · trivial
    · exact hok hcrc
  · rw [if_neg hcrc, if_neg hcrc]
    exact h

theorem step_kept (e : Event) (hok : EventKept b (s, L) e) :
    Kept (L.next b s e) (step b s e).jobs := by
  cases e with
  | pkg p => exact pkg_kept h p hok
  | loopHead => exact h
  | loopCheck =>
    simp only [step, checkIdle, Ledger.next]
    split
    · have hcleared : Kept L (s.jobs.apply .clearRing) := apply_kept h trivial
      rwa [← checkTemp_jobs b s] at hcleared
    · rwa [← checkTemp_jobs b s] at h
  | dispatch idx =>
    rw [step, dispatch_jobs, Ledger.next]
    split
    · exact dispatch_kept h idx
    · exact h
  | readResult => exact (pass_kept (passStart b s) (List.range chipNumber) h hok).1

/-- The frame of a poll is made from the oldest place that waits, whose slot holds the job of its
work. -/
theorem poll_reports (p : Pkg) (hp : IsPoll p) (q : Pkg) (hq : q ∈ sent b s (.pkg p))
    (hnonce : pkgType q = some .nonce) : Reports (L.ring s.jobs.retConsume) q := by
  have hproduce := h.produce_lt
  have hconsume := h.consume_lt
  by_cases hne : s.jobs.retConsume = s.jobs.retProduce
  · obtain ⟨_, f, hsent, htype⟩ := poll_tells (b := b) s p hp (if_pos hne)
    rw [hsent, List.mem_singleton] at hq
    rw [hq, htype] at hnonce
    cases hnonce
  · obtain ⟨_, hsent⟩ := poll_sends (b := b) s p hp (if_neg hne)
    rw [hsent, List.mem_singleton] at hq
    rw [hq]
    refine (h.ring s.jobs.retConsume (by unfold Pending; omega)).imp fun g _ hg => ?_
    obtain ⟨hholds, hdata⟩ := hg
    rw [hdata]
    refine ⟨nonceData_report .., ?_, ?_⟩
    · rw [nonceData_word b _ _ _ 1 (by omega)]
      exact congrArg JobData.poolNo hholds.job
    · rw [frameJobId, nonceData_data]
      exact congrArg JobData.jobId hholds.job

theorem step_faithful (e : Event) (hok : EventKept b (s, L) e) : Faithful b (s, L) e := by
  refine ⟨?_, fun q hq hnonce => ?_⟩
  · rintro rfl
    exact (pass_kept (passStart b s) (List.range chipNumber) h hok).2
  · cases e with
    | pkg p =>
      by_cases hp : IsPoll p
      · exact poll_reports h p hp q hq hnonce
      · exact absurd hnonce (sent_other s p hp q hq)
    | _ =>
      rw [sent_none s fun p => by simp] at hq
      cases hq

end step

/-- **Nonces are verified and reported for the job of their work** in every run whose packets are in
range and leave the slots in use alone, and whose passes find no chip on an ITP task. -/
theorem same_job (b : Board σ) (env : σ) (es : List Event)
    (hes : Run.Meets (watch b) (EventKept b) (start b env, Ledger.empty) es) :
    Run.Meets (watch b) (Faithful b) (start b env, Ledger.empty) es :=
  Run.meets_imp (watch b) (fun x => Kept x.2 x.1.jobs) (fun _ e he h => step_kept h e he)
    (fun _ e he h => step_faithful h e he) _ es hes (kept_start env b)

/-! ### The sample job with later jobs behind it -/

open Sample Accounting FullTest Queue

theorem giveItp_zero (L : Ledger) : L.giveItp 0 = L := by
  simp only [Ledger.giveItp, Nat.not_lt_zero, if_false]

theorem next_plain (s : Fw σ) (L : Ledger) (p : Pkg) (hp : itpChips p = 0) :
    L.next b s (.pkg p) = L := by
  rw [Ledger.next, hp, giveItp_zero, ite_self]

/-- Packets that give no chip a task leave the ledger alone. -/
theorem watch_plain (x : Fw σ × Ledger) (ps : List Pkg) (hps : ∀ p ∈ ps, itpChips p = 0) :
    Run.run (watch b) x (ps.map .pkg) = (Run.run (step b) x.1 (ps.map .pkg), x.2) := by
  induction ps generalizing x with
  | nil => rfl
  | cons p ps ih =>
    obtain ⟨hp, hrest⟩ := List.forall_mem_cons.mp hps
    rw [List.map_cons, Run.run_cons, Run.run_cons, ih _ hrest, watch, next_plain _ _ p hp]

theorem empty_free (j : Jobs) (slot : ℕ) : ¬InUse Ledger.empty j slot := by
  rintro (⟨idx, g, hg, _⟩ | ⟨pos, g, _, hg, _⟩) <;> cases hg

theorem kept_plain (s : Fw σ) (ps : List Pkg) (hps : ∀ p ∈ ps, itpChips p = 0 ∧ PktOk p) :
    Run.Meets (watch b) (EventKept b) (s, Ledger.empty) (ps.map .pkg) := by
  induction ps generalizing s with
  | nil => trivial
  | cons p ps ih =>
    obtain ⟨hp, hrest⟩ := List.forall_mem_cons.mp hps
    refine ⟨fun _ => ⟨hp.2, fun _ => empty_free _ _⟩, ?_⟩
    rw [watch, next_plain _ _ p hp.1]
    exact ih _ hrest

/-- What the host sends before the first work, and the state it leads to. -/
def offer : List Pkg := jobPackets easyTarget ++ [setPkg [500, 280, 0, 0xffffffff]]

def offered : Fw Unit := Run.run (step belowBoard) (start belowBoard ()) (offer.map .pkg)

theorem offer_plain : ∀ p ∈ offer, itpChips p = 0 ∧ PktOk p := by
  have hall : (offer.all fun p => itpChips p = 0 ∧ PktOk p) = true := by decide +kernel
  exact fun p hp => of_decide_eq_true (List.all_eq_true.mp hall p hp)

theorem jobRun_offer : jobRun easyTarget = offer.map .pkg ++ [.dispatch 0] := by
  rw [jobRun, offer, List.map_append, List.append_assoc]
  rfl

theorem firstChip_idle (d : Dev Unit) (idx : ℕ) :
    (be200IsIdle belowBoard d idx).2 = (firstChip idx &&& be200StatWAllow != 0) := rfl

theorem first_idle (d : Dev Unit) : (be200IsIdle belowBoard d 0).2 = true := by
  rw [firstChip_idle]
  decide

def firstGiven : Given := ⟨offered.jobs.bumpNonce2, (offered.jobs.genWork 0).2⟩

/-- The ledger once chip 0 has the first work. -/
def firstLedger : Ledger := Ledger.empty.give 0 firstGiven

theorem watch_offer :
    Run.run (watch belowBoard) (start belowBoard (), Ledger.empty) (offer.map .pkg) =
    (offered, Ledger.empty) := watch_plain _ offer fun p hp => (offer_plain p hp).1

theorem watch_sampled :
    Run.run (watch belowBoard) (start belowBoard (), Ledger.empty) (jobRun easyTarget) =
    (sampled easyTarget, firstLedger) := by
  have hlast : sampled easyTarget = step belowBoard offered (.dispatch 0) := by
    rw [sampled, jobRun_offer]
    exact Run.run_append _ _ _ _
  rw [jobRun_offer, Run.run_append, watch_offer, Run.run_cons, Run.run_nil, watch, Ledger.next,
    if_pos (first_idle _), hlast, firstLedger, firstGiven]

theorem jobRun_kept :
    Run.Meets (watch belowBoard) (EventKept belowBoard) (start belowBoard (), Ledger.empty)
    (jobRun easyTarget) := by
  rw [jobRun_offer, Run.meets_append]
  exact ⟨kept_plain _ offer offer_plain, trivial, trivial⟩

theorem sampled_kept : Kept firstLedger (sampled easyTarget).jobs := by
  have hkept := Run.run_invariant (watch belowBoard) (EventKept belowBoard)
    (fun x => Kept x.2 x.1.jobs) (fun _ e he h => step_kept h e he) _ _ jobRun_kept
    (kept_start () belowBoard)
  rwa [watch_sampled] at hkept

theorem give_chips (L : Ledger) (idx : ℕ) (g : Given) : (L.give idx g).chips idx = .work g :=
  if_pos rfl

theorem first_given : firstGiven.work.mmIdx = 1 ∧ firstGiven.job = sampleJob easyTarget := by
  obtain ⟨hholds, hstatus⟩ := sampled_kept.chips 0 firstGiven (by rw [firstLedger, give_chips])
  rw [mined_start.status, ChipStatus.mk.injEq] at hstatus
  refine ⟨hstatus.2.symm, ?_⟩
  rw [← hholds.job, Given.slot, ← hstatus.2]
  exact mined_start.job

theorem first_free (j : Jobs) (slot : ℕ) (hslot : slot ≠ 1) : ¬InUse firstLedger j slot := by
  rintro (⟨idx, g, hg, rfl⟩ | ⟨pos, g, _, hg, _⟩)
  · simp only [firstLedger, Ledger.give] at hg
    split at hg
    · cases hg
      exact hslot first_given.1
    · cases hg
  · cases hg

/-- A later job begins in the next slot; then the nonce of chip 0 is verified and asked for. -/
def laterPkg : Pkg := staticPkg [60, 0, 4, 36, 0, 1, 2]

def laterRun : List Event := jobRun easyTarget ++ [.pkg laterPkg, .readResult, .pkg pollPkg]

def later : Fw Unit := step belowBoard (sampled easyTarget) (.pkg laterPkg)

theorem later_mined : Mined later.jobs ∧ later.jobs.retProduce = 0 ∧ later.jobs.retConsume = 0 ∧
    (sampled easyTarget).jobs.mmWriteIdx = 2 := by
  have hjobs :
      ((later.jobs.minerStatus 0 = ⟨0, 1⟩ ∧
        jobAt later.jobs.works (slotAddr 1) = sampleJob easyTarget ∧
      InRange later.jobs.works (slotAddr 1)) ∧ later.jobs.retProduce = 0 ∧
        later.jobs.retConsume = 0 ∧
      (sampled easyTarget).jobs.mmWriteIdx = 2) := by decide +kernel
  exact ⟨⟨hjobs.1.1, hjobs.1.2.1, hjobs.1.2.2⟩, hjobs.2⟩

theorem later_plain :
    (itpChips laterPkg = 0 ∧ PktOk laterPkg ∧ ¬IsPoll laterPkg) ∧ PktOk pollPkg := by
  decide +kernel

theorem laterRun_kept : Run.Meets (watch belowBoard) (EventKept belowBoard)
    (start belowBoard (), Ledger.empty) laterRun := by
  obtain ⟨⟨hitp, hok, _⟩, hpoll⟩ := later_plain
  rw [laterRun, Run.meets_append, watch_sampled]
  refine ⟨jobRun_kept, fun _ => ⟨hok, fun _ => ?_⟩, ?_, fun _ =>
    ⟨hpoll, fun hstores => ?_⟩, trivial⟩
  · rw [later_mined.2.2.2]
    exact first_free _ 2 (by decide)
  · intro t ht
    rw [watch, next_plain _ _ _ hitp, first_turn, List.mem_singleton] at ht
    rw [watch, next_plain _ _ _ hitp, ht, firstLedger, give_chips]
    exact Task.noConfusion
  · rw [Stores, pollPkg, hostPkg_type] at hstores
    exact absurd hstores (by decide)

theorem later_acts : runActs belowBoard (start belowBoard ()) laterRun =
    [.put (report sampleResult), .poll, .give (report sampleResult)] := by
  obtain ⟨hmined, hproduce, hconsume, _⟩ := later_mined
  have hfound := (mined_pass later hmined).1
  have hempty : Waiting later.jobs [] := by
    rw [Waiting, hproduce, hconsume]
    exact Ring.holds_nil _ (by decide)
  have hwait := pass_waiting later [] (by rw [hfound]; decide) hempty
  rw [hfound, List.nil_append] at hwait
  obtain ⟨j, hpop, _⟩ := pop_cons hwait
  have hlater := pkg_acts (b := belowBoard) (sampled easyTarget) laterPkg later_plain.1.2.2
  have hpass : acts belowBoard later .readResult = [.put (report sampleResult)] := by
    rw [own_acts later fun p => by simp, input, hfound]
    rfl
  have hpoll :=
    (poll_give (b := belowBoard) (be200ReadResult belowBoard later) pollPkg pollPkg_poll hpop).2
  have hjob := jobRun_acts (b := belowBoard) easyTarget (start belowBoard ())
  have hrun : Run.run (step belowBoard) (start belowBoard ()) (jobRun easyTarget) =
      sampled easyTarget := rfl
  have hstep : step belowBoard later .readResult = be200ReadResult belowBoard later := rfl
  rw [runActs] at hjob ⊢
  rw [laterRun, trace_append, hjob, hrun, trace, hlater, trace, ← later, hpass, trace, hstep, hpoll]
  rfl

theorem same_job_later : runActs belowBoard (start belowBoard ()) laterRun =
      [.put (report sampleResult), .poll, .give (report sampleResult)] ∧
    Run.Meets (watch belowBoard) (Faithful belowBoard)
      (start belowBoard (), Ledger.empty) laterRun :=
  ⟨later_acts, same_job belowBoard () laterRun laterRun_kept⟩

/-! ### A slot filled again -/

/-- Two further jobs, and a third one that begins with its target, in the slot chip 0 works on. -/
def refillPkgs : List Pkg :=
  [staticPkg [60, 0, 4, 36, 0, 1, 2], setPkg [500, 280, 0, 0x1000],
    staticPkg [60, 0, 4, 36, 0, 1, 3], setPkg [500, 280, 0, 0x1000], hostPkg .target 1 1 noTarget]

def refilled : Fw Unit := Run.run (step belowBoard) (sampled easyTarget) (refillPkgs.map .pkg)

def refillRun : List Event := jobRun easyTarget ++ (refillPkgs.map .pkg ++ [.readResult])

theorem refill_plain : ∀ p ∈ refillPkgs, itpChips p = 0 ∧ PktOk p ∧ CrcOk p := by
  have hall : (refillPkgs.all fun p => itpChips p = 0 ∧ PktOk p ∧ CrcOk p) = true := by
    decide +kernel
  exact fun p hp => of_decide_eq_true (List.all_eq_true.mp hall p hp)

theorem refilled_slot : refilled.jobs.minerStatus 0 = ⟨0, 1⟩ ∧
    jobAt refilled.jobs.works (slotAddr 1) = sampleJob noTarget ∧
    InRange refilled.jobs.works (slotAddr 1) := by
  decide +kernel

/-- The one turn of a pass of the board. -/
def firstTurn (s : Fw Unit) : Turn belowBoard := ⟨0, passStart belowBoard s, 1, first_ready _⟩

section turn
variable (s : Fw Unit)

theorem pass_firstTurn : passTurns belowBoard s = [firstTurn s] := first_turn s

theorem firstTurn_chip : (firstTurn s).chip = 0 := rfl

theorem firstTurn_status : status (firstTurn s) = s.jobs.minerStatus 0 := rfl

theorem firstTurn_works : (firstTurn s).scan.fw.jobs.works = s.jobs.works := rfl

theorem faithful_turn {L : Ledger} (h : Faithful belowBoard (s, L) .readResult) :
    Verifies L (firstTurn s) :=
  h.1 rfl (firstTurn s) (by rw [pass_firstTurn]; exact List.mem_singleton_self _)

end turn

/-- The nonce that the job of the chip's work accepts is found to be of no use. -/
theorem refilled_found : found belowBoard refilled = [] := by
  obtain ⟨hstatus, hjob, hrange⟩ := refilled_slot
  have hslot : SlotInRange (firstTurn refilled) := by
    rw [SlotInRange, firstTurn_works, firstTurn_status, hstatus]
    exact hrange
  have hnone : firstDiff (firstTurn refilled).tests = none := by
    rw [← Option.not_isSome_iff_eq_none, firstDiff_isSome]
    intro hsome
    obtain ⟨r, hr, hdiff⟩ := List.mem_map.mp hsome
    rw [tests_check hslot r hr, check, firstTurn_works, firstTurn_status, hstatus,
      testNonce_job _ _ hrange, hjob] at hdiff
    exact noTarget_check _ _ hdiff
  have hresult : result (firstTurn refilled) = none := by
    rw [result, Turn.verified, hnone, Option.map_none]
  rw [found, pass_firstTurn, List.filterMap_cons_none hresult, List.filterMap_nil]

theorem watch_refilled :
    Run.run (watch belowBoard) (sampled easyTarget, firstLedger) (refillPkgs.map .pkg) =
    (refilled, firstLedger) := watch_plain _ refillPkgs fun p hp => (refill_plain p hp).1

/-- Chip 0 is started on the data of an ITP task. -/
def itpPkgs : List Pkg := [hostPkg .itpTask 1 2 [], hostPkg .itpTask 2 2 []]

def itpStarted : Fw Unit := Run.run (step belowBoard) (sampled easyTarget) (itpPkgs.map .pkg)

def itpRun : List Event := jobRun easyTarget ++ (itpPkgs.map .pkg ++ [.readResult])

theorem watch_itp :
    Run.run (watch belowBoard) (sampled easyTarget, firstLedger) (itpPkgs.map .pkg) =
    (itpStarted, firstLedger.giveItp 80) := by
  have hfirst : itpChips (hostPkg .itpTask 1 2 []) = 0 := by decide +kernel
  have hsecond : itpChips (hostPkg .itpTask 2 2 []) = 80 := by decide +kernel
  rw [itpStarted, itpPkgs, List.map_cons, List.map_singleton, Run.run_cons, Run.run_cons,
    Run.run_nil, watch, watch, next_plain _ _ _ hfirst, Ledger.next, if_pos (hostPkg_crcOk ..),
      hsecond, Run.run_cons, Run.run_cons, Run.run_nil]

/-- With the target of a later job in its slot chip 0's nonce is dropped; what the chip finds on an
ITP task is tested on the job it had before. -/
theorem refill_other_job : (∀ p ∈ refillPkgs, CrcOk p ∧ PktOk p) ∧
    found belowBoard (sampled easyTarget) = [sampleResult] ∧ found belowBoard refilled = [] ∧
    ¬Run.Meets (watch belowBoard) (Faithful belowBoard)
      (start belowBoard (), Ledger.empty) refillRun ∧
    ¬Run.Meets (watch belowBoard) (Faithful belowBoard)
      (start belowBoard (), Ledger.empty) itpRun := by
  refine ⟨fun p hp => (refill_plain p hp).2.symm, (mined_pass _ mined_start).1,
    refilled_found, fun h => ?_, fun h => ?_⟩
  · rw [refillRun, Run.meets_append, watch_sampled, Run.meets_append, watch_refilled] at h
    have hverifies := faithful_turn refilled h.2.2.1
    rw [Verifies, firstTurn_chip, firstLedger, give_chips] at hverifies
    have hjob := hverifies.1
    rw [firstTurn_works, firstTurn_status, refilled_slot.1, first_given.2] at hjob
    have htarget := congrArg JobData.target (refilled_slot.2.1.symm.trans hjob)
    exact absurd htarget (by decide)
  · rw [itpRun, Run.meets_append, watch_sampled, Run.meets_append, watch_itp] at h
    exact faithful_turn itpStarted h.2.2.1

end HashRatio.Provenance
