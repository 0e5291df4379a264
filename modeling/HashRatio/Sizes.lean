import HashRatio.Slots

/-!
# The sizes work generation finds

`decode_pkg` stores the sizes of a STATIC packet as they come, and nothing looks
at them before `miner_gen_nonce2_work` uses them. They are in range at every call
when the host sends them so, when no SET makes a slot current that never got a
STATIC, and when chips answer for work they were given.
-/

namespace HashRatio.Sizes
open Bytes Memory MmWork Miner Job Protocol Drivers State Packets Results MainLoop Bounds Slots

/-! ### What is observed -/

/-- The memory and the slot of a call of `miner_gen_nonce2_work`, by main or by `test_nonce`. -/
def GenCall (P : Mem Byte → ℤ → Prop) : Obs → Prop
  | .work _ mem slot _ => P mem (slotAddr slot)
  | .test _ mem slot _ _ => P mem (slotAddr slot)
  | _ => True

abbrev GenInRange : Obs → Prop := GenCall InRange

instance : DecidablePred GenInRange := fun o => by
  cases o <;> simp only [GenInRange, GenCall] <;> infer_instance

def genFields : List Field :=
  [.coinbaseLen, .coinbase, .nonce2Offset, .merkleOffset, .nmerkles, .merkles, .header]

/-- A call that stays inside: the sizes are in range, it writes into the coinbase and the header
only, and its work depends on the arrays and the sizes of the slot only. -/
structure GenInside (m : Mem Byte) (mw : ℤ) : Prop where
  sizes : InRange m mw
  writes : ∀ n2 x, ¬InField mw .coinbase x → ¬InField mw .header x →
    (minerGenNonce2Work m mw n2).1 x = m x
  reads : ∀ n2 m', (∀ f ∈ genFields, ∀ x, InField mw f x → m' x = m x) →
    (minerGenNonce2Work m' mw n2).2 = (minerGenNonce2Work m mw n2).2

theorem gen_writes (m : Mem Byte) (mw : ℤ) (h : InRange m mw) (n2 : Word) (x : ℤ)
    (hc : ¬InField mw .coinbase x) (hh : ¬InField mw .header x) :
    (minerGenNonce2Work m mw n2).1 x = m x := by
  have h1 := h.nonce2_nonneg
  have h2 := h.nonce2_le
  have h3 := h.coinbase_le
  have h4 := h.merkle_nonneg
  have h5 := h.merkle_le
  have hmoff : merkleOffset (storeNonce2 m mw n2) mw = merkleOffset m mw :=
    storeNonce2_word m mw n2 h.safe .merkleOffset (by decide) (by decide)
  unfold InField at hc hh
  simp only [Field.size] at hc hh
  simp only [minerGenNonce2Work, storeRoot, hmoff]
  rw [write_out _ _ _ _ (by rw [flip32_length]; omega), storeNonce2,
    write_out _ _ _ _ (by rw [wordBytes_length]; omega)]

theorem gen_reads (m : Mem Byte) (mw : ℤ) (h : InRange m mw) (n2 : Word) (m' : Mem Byte)
    (hsame : ∀ f ∈ genFields, ∀ x, InField mw f x → m' x = m x) :
    (minerGenNonce2Work m' mw n2).2 = (minerGenNonce2Work m mw n2).2 := by
  have hword (f : Field) (hf : f ∈ genFields) (hs : f.size = 4) :
      loadWord m' (mw + f.off) = loadWord m (mw + f.off) :=
    loadWord_congr _ _ _ fun x h1 h2 => hsame f hf x ⟨h1, by omega⟩
  have hlen : coinbaseLen m' mw = coinbaseLen m mw := hword .coinbaseLen (by decide) rfl
  have hoff : nonce2Offset m' mw = nonce2Offset m mw := hword .nonce2Offset (by decide) rfl
  have hmoff : merkleOffset m' mw = merkleOffset m mw := hword .merkleOffset (by decide) rfl
  have hnm : nmerkles m' mw = nmerkles m mw := hword .nmerkles (by decide) rfl
  have hblank (a x : ℤ) (k : ℕ) (hx : m' x = m x) : fill m' a k 0 x = fill m a k 0 x := by
    unfold fill
    rw [hx]
  have s1 := h.coinbase_le
  have s2 := h.nmerkles_le
  have hcoinbase : (jobAt m' mw).coinbase = (jobAt m mw).coinbase := by
    simp only [jobAt, hlen, hoff]
    apply read_congr
    intro x h1 h2
    exact hblank _ x 4 (hsame .coinbase (by decide) x ⟨h1, by simp only [Field.size]; omega⟩)
  have hheader : (jobAt m' mw).header = (jobAt m mw).header := by
    simp only [jobAt, hmoff]
    apply read_congr
    intro x h1 h2
    exact hblank _ x 32 (hsame .header (by decide) x ⟨h1, h2⟩)
  have hbranches : (jobAt m' mw).branches = (jobAt m mw).branches := by
    simp only [jobAt, hnm]
    apply List.map_congr_left
    intro i hi
    have hi' := List.mem_range.mp hi
    apply read_congr
    intro x h1 h2
    exact hsame .merkles (by decide) x ⟨by omega, by simp only [Field.size]; omega⟩
  have hno : (jobAt m' mw).nonce2Offset = (jobAt m mw).nonce2Offset := congrArg BitVec.toInt hoff
  have hmo : (jobAt m' mw).merkleOffset = (jobAt m mw).merkleOffset := congrArg BitVec.toInt hmoff
  have hrange : InRange m' mw := SameSizes.inRange ⟨hlen, hoff, hmoff, hnm⟩ h
  rw [minerGenNonce2Work_eq m' mw n2 hrange, minerGenNonce2Work_eq m mw n2 h]
  simp only [JobData.work, JobData.workHeader, JobData.merkleRoot, hcoinbase, hheader,
    hbranches, hno, hmo]

theorem genInside_of_inRange (m : Mem Byte) (mw : ℤ) (h : InRange m mw) : GenInside m mw :=
  ⟨h, gen_writes m mw h, gen_reads m mw h⟩

def isWork (idx : ℕ) : Obs → Bool
  | .work i _ _ _ => i == idx
  | _ => false

/-- Chips are found ready only after `main` gave them work. -/
def ReadyAfterWork : List Obs → Prop
  | [] => True
  | .ready idx _ :: earlier => earlier.any (isWork idx) = true ∧ ReadyAfterWork earlier
  | _ :: earlier => ReadyAfterWork earlier

theorem readyAfterWork_suffix (later earlier : List Obs) (h : ReadyAfterWork (later ++ earlier)) :
    ReadyAfterWork earlier := by
  induction later with
  | nil => exact h
  | cons o later ih =>
    cases o with
    | ready idx mask => exact ih h.2
    | work idx mem slot w => exact ih h
    | test idx mem slot n2 nonce => exact ih h
    | push pos idx => exact ih h
    | report pos jobId pool => exact ih h

instance decidableReadyAfterWork : DecidablePred ReadyAfterWork
  | [] => isTrue trivial
  | .ready idx _ :: earlier =>
    have := decidableReadyAfterWork earlier
    inferInstanceAs (Decidable (earlier.any (isWork idx) = true ∧ ReadyAfterWork earlier))
  | .work _ _ _ _ :: earlier => decidableReadyAfterWork earlier
  | .test _ _ _ _ _ :: earlier => decidableReadyAfterWork earlier
  | .push _ _ :: earlier => decidableReadyAfterWork earlier
  | .report _ _ _ :: earlier => decidableReadyAfterWork earlier

/-! ### The invariant -/

/-- A slot holds sizes in range or has never been filled, and every chip with work has a slot of
the first kind. -/
structure Sized (j : Jobs) : Prop where
  slots : SlotsOk j
  sized : ∀ i < mmBufNum, coinbaseLen j.works (slotAddr i) = 0 ∨ InRange j.works (slotAddr i)
  worked : ∀ idx, j.hist.any (isWork idx) = true →
    InRange j.works (slotAddr (j.minerStatus idx).mmIdx)
  gen : ∀ o ∈ j.hist, GenInRange o

def SizedOk (j : Jobs) : JobOp → Prop
  | .store p => PktOk p
  | .dispatch _ => InRange j.works j.curSlot
  | .test idx _ => InRange j.works (slotAddr (j.minerStatus idx).mmIdx)
  | _ => True

theorem SizedOk.opOk {j : Jobs} {op : JobOp} (h : SizedOk j op) : OpOk op := by
  cases op <;> first | exact h | trivial

theorem apply_sizes (j : Jobs) (h : SlotsOk j) (op : JobOp) (hok : OpOk op) (i : ℕ)
    (hi : i < mmBufNum) :
    SameSizes j.works (j.apply op).works (slotAddr i) ∨
      InRange (j.apply op).works (slotAddr i) := by
  by_cases hop : ∃ p, op = .store p
  · obtain ⟨p, rfl⟩ := hop
    by_cases hw : i = j.mmWriteIdx
    · have hslot : j.writeSlot = slotAddr i := by rw [hw]; rfl
      simp only [apply_store, Jobs.store, hslot]
      by_cases ht : pkgType p = some .static
      · right
        have hstore : pkgStore p j.works (slotAddr i) = storeStatic p j.works (slotAddr i) := by
          rw [pkgStore, ht]
        rw [hstore]
        exact storeStatic_inRange p _ _ (hok.sizes ht)
      · exact Or.inl (pkgStore_sizes p _ _ hok.idx ht)
    · exact Or.inl (sameSizes_of_same (h.safe i hi) (store_same j p hok.idx i hw))
  · exact Or.inl
      (sameSizes_of_same (h.safe i hi) (apply_sameSlots j h op (fun p hp => hop ⟨p, hp⟩) i hi))

theorem apply_inRange (j : Jobs) (h : SlotsOk j) (op : JobOp) (hok : OpOk op) (i : ℕ)
    (hi : i < mmBufNum) (hr : InRange j.works (slotAddr i)) :
    InRange (j.apply op).works (slotAddr i) := by
  rcases apply_sizes j h op hok i hi with hs | hs
  · exact hs.inRange hr
  · exact hs

theorem apply_coinbase (j : Jobs) (h : Sized j) (op : JobOp) (hok : OpOk op) :
    ∀ i < mmBufNum, coinbaseLen (j.apply op).works (slotAddr i) = 0 ∨
      InRange (j.apply op).works (slotAddr i) := by
  intro i hi
  rcases apply_sizes j h.slots op hok i hi with hs | hs
  · rcases h.sized i hi with hz | hr
    · exact Or.inl (hs.1.trans hz)
    · exact Or.inr (hs.inRange hr)
  · exact Or.inr hs

theorem obs_noWork (j : Jobs) (op : JobOp) (hop : ∀ idx, op ≠ .dispatch idx) (idx : ℕ) :
    (j.obs op).toList.any (isWork idx) = false := by
  cases op with
  | dispatch i => exact absurd rfl (hop i)
  | pop =>
    simp only [Jobs.obs]
    split <;> rfl
  | _ => rfl

theorem apply_worked (j : Jobs) (h : Sized j) (op : JobOp) (hok : SizedOk j op) (idx : ℕ)
    (hw : (j.apply op).hist.any (isWork idx) = true) :
    InRange (j.apply op).works (slotAddr ((j.apply op).minerStatus idx).mmIdx) := by
  have hrange (i : ℕ) (hi : i < mmBufNum) := apply_inRange j h.slots op hok.opOk i hi
  rw [apply_hist, List.any_append, Bool.or_eq_true] at hw
  by_cases hop : ∃ i, op = .dispatch i
  · obtain ⟨i, rfl⟩ := hop
    rw [dispatch_status]
    split
    · exact hrange _ h.slots.cur_lt hok
    · rename_i hne
      refine hrange _ (h.slots.status_lt idx) (h.worked idx (hw.resolve_left fun hi => hne ?_))
      simp only [Jobs.obs, Option.toList_some, List.any_cons, List.any_nil, isWork,
        Bool.or_false, beq_iff_eq] at hi
      exact hi.symm
  · have hnot : ∀ i, op ≠ .dispatch i := fun i hi => hop ⟨i, hi⟩
    rw [apply_status j op hnot]
    rw [obs_noWork j op hnot] at hw
    exact hrange _ (h.slots.status_lt idx) (h.worked idx (hw.resolve_left (by simp)))

/-- What `SizedOk` asks is what the calls of work generation need. -/
theorem obs_inRange (j : Jobs) (h : Sized j) (op : JobOp) (hok : SizedOk j op) :
    ∀ o ∈ j.obs op, GenInRange o := by
  intro o ho
  cases op with
  | dispatch idx =>
    cases ho
    have hbump := bump_sameSlots j h.slots _ h.slots.cur_lt
    exact (sameSizes_of_same (h.slots.safe _ h.slots.cur_lt) hbump).inRange hok
  | test idx nonce =>
    cases ho
    exact hok
  | pop =>
    simp only [Jobs.obs] at ho
    split at ho
    · cases ho
    · cases ho
      trivial
  | ready idx mask =>
    cases ho
    trivial
  | push idx nonce =>
    cases ho
    trivial
  | _ => cases ho

theorem apply_sized (j : Jobs) (h : Sized j) (op : JobOp) (hok : SizedOk j op) :
    Sized (j.apply op) := by
  refine ⟨apply_slotsOk j h.slots op hok.opOk, apply_coinbase j h op hok.opOk,
    apply_worked j h op hok, fun o ho => ?_⟩
  rw [apply_hist, List.mem_append, Option.mem_toList] at ho
  rcases ho with ho | ho
  · exact obs_inRange j h op hok o ho
  · exact h.gen o ho

/-! ### A result pass -/

theorem ops_any (j : Jobs) (ops : List JobOp) (idx : ℕ) (h : j.hist.any (isWork idx) = true) :
    (Run.run Jobs.apply j ops).hist.any (isWork idx) = true := by
  obtain ⟨later, hlater⟩ := ops_hist j ops
  rw [hlater, List.any_append, h, Bool.or_true]

theorem tests_sized (idx : ℕ) (nonces : List Word) (j : Jobs) (h : Sized j)
    (hw : j.hist.any (isWork idx) = true) :
    Sized (Run.run Jobs.apply j (nonces.map (JobOp.test idx))) := by
  induction nonces generalizing j with
  | nil => exact h
  | cons nonce nonces ih =>
    exact ih (j.apply (.test idx nonce)) (apply_sized j h (.test idx nonce) (h.worked idx hw))
      (ops_any j [.test idx nonce] idx hw)

theorem chipOps_sized (idx : ℕ) (ops : List JobOp) (hops : ChipOps idx ops) (j : Jobs) (h : Sized j)
    (hr : ReadyAfterWork (Run.run Jobs.apply j ops).hist) : Sized (Run.run Jobs.apply j ops) := by
  rcases hops with rfl | ⟨mask, nonces, tail, _, htail, rfl⟩
  · exact h
  · rw [Run.run_cons] at hr ⊢
    have hready := apply_sized j h (.ready idx mask) trivial
    -- the note that the chip is ready stands in the history, so work for it stands before
    obtain ⟨later, hlater⟩ :=
      ops_hist (j.apply (.ready idx mask)) (nonces.map (JobOp.test idx) ++ tail)
    rw [hlater] at hr
    have hwork : j.hist.any (isWork idx) = true := (readyAfterWork_suffix later _ hr).1
    have htests := tests_sized idx nonces _ hready (ops_any j [.ready idx mask] idx hwork)
    rw [Run.run_append]
    rcases htail with rfl | ⟨nonce, rfl⟩
    · exact htests
    · exact apply_sized _ htests (.push idx nonce) trivial

theorem passOps_sized (is : List ℕ) (opss : List (List JobOp))
    (hops : List.Forall₂ ChipOps is opss) (j : Jobs)
    (h : Sized j) (hr : ReadyAfterWork (Run.run Jobs.apply j opss.flatten).hist) :
    Sized (Run.run Jobs.apply j opss.flatten) := by
  induction hops generalizing j with
  | nil => exact h
  | @cons i ops is opss hchip _ ih =>
    rw [List.flatten_cons, Run.run_append] at hr ⊢
    obtain ⟨later, hlater⟩ := ops_hist (Run.run Jobs.apply j ops) opss.flatten
    refine ih _ (chipOps_sized i ops hchip j h ?_) hr
    rw [hlater] at hr
    exact readyAfterWork_suffix later _ hr

/-! ### Events -/

variable {σ : Type}

def PktSized (j : Jobs) (p : Pkg) : Prop :=
  CrcOk p → PktOk p ∧ (pkgType p = some .set → coinbaseLen j.works j.writeSlot ≠ 0)

def EventSized (s : Fw σ) : Event → Prop
  | .pkg p => PktSized s.jobs p
  | .dispatch _ => InRange s.jobs.works s.jobs.curSlot
  | _ => True

theorem EventSized.eventOk {s : Fw σ} {e : Event} (h : EventSized s e) : EventOk e := by
  cases e with
  | pkg p => exact fun hcrc => (h hcrc).1
  | _ => trivial

theorem step_sized (b : Board σ) (s : Fw σ) (e : Event) (h : Sized s.jobs) (he : EventSized s e)
    (hr : ReadyAfterWork (step b s e).jobs.hist) : Sized (step b s e).jobs := by
  obtain ⟨ops, hops, hrun⟩ := step_ops b s e
  rw [hrun] at hr ⊢
  cases e with
  | pkg p =>
    rcases hops with ⟨_, rfl⟩ | ⟨hcrc, rfl⟩
    · exact h
    · refine apply_sized s.jobs h (acceptOp p) ?_
      unfold acceptOp
      split
      · trivial
      · trivial
      · exact (he hcrc).1
  | loopHead =>
    rw [show ops = [] from hops]
    exact h
  | loopCheck =>
    rcases hops with rfl | rfl
    · exact h
    · exact apply_sized s.jobs h .clearRing trivial
  | dispatch idx =>
    rcases hops with rfl | rfl
    · exact h
    · exact apply_sized s.jobs h (.dispatch idx) he
  | readResult =>
    obtain ⟨opss, hopss, rfl⟩ := hops
    exact passOps_sized _ opss hopss s.jobs h hr

theorem ops_inRange (j : Jobs) (ops : List JobOp) (h : SlotsOk j)
    (hok : ∀ op ∈ ops, OpOk op) (i : ℕ) (hi : i < mmBufNum) (hr : InRange j.works (slotAddr i)) :
    InRange (Run.run Jobs.apply j ops).works (slotAddr i) := by
  have hinv := Run.run_invariant Jobs.apply (fun _ op => OpOk op)
    (fun j => SlotsOk j ∧ InRange j.works (slotAddr i))
    (fun j op hop hj => ⟨apply_slotsOk j hj.1 op hop, apply_inRange j hj.1 op hop i hi hj.2⟩) j ops
    (Run.meets_of_forall Jobs.apply _ j ops fun op hop _ => hok op hop) ⟨h, hr⟩
  exact hinv.2

theorem step_cur_inRange (b : Board σ) (s : Fw σ) (e : Event) (h : Sized s.jobs)
    (he : EventSized s e) (hcur : InRange s.jobs.works s.jobs.curSlot ∨ ∃ p, e = .pkg p ∧ CrcOk p ∧
      pkgType p = some .set) :
    InRange (step b s e).jobs.works (step b s e).jobs.curSlot := by
  obtain ⟨ops, hops, hrun⟩ := step_ops b s e
  by_cases hset : ∃ p, e = .pkg p ∧ CrcOk p ∧ pkgType p = some .set
  · -- the slot that becomes current was filled, so its sizes are in range
    obtain ⟨p, rfl, hcrc, ht⟩ := hset
    have hwrite := (h.sized _ (SlotsOk.write_lt s.jobs)).resolve_left ((he hcrc).2 ht)
    have hafter := apply_inRange s.jobs h.slots (.set (dataWord p 2) (dataWord p 3)) trivial _
      (SlotsOk.write_lt s.jobs) hwrite
    have hjobs : (step b s (.pkg p)).jobs = s.jobs.apply (.set (dataWord p 2) (dataWord p 3)) := by
      rw [step, handlePkg_jobs, if_pos hcrc, acceptOp, ht]
    rw [hjobs]
    exact hafter
  · have hr := ops_inRange s.jobs ops h.slots (eventOps_ok e ops hops he.eventOk) _ h.slots.cur_lt
      (hcur.resolve_right hset)
    have hcur' := ops_cur s.jobs ops (eventOps_set e ops hops hset)
    rw [hrun, Jobs.curSlot, hcur']
    exact hr

/-! ### Runs of main -/

def inLoop : Pc → Bool
  | .chip _ => true
  | .chipPoll _ => true
  | _ => false

structure MainSized (m : Main σ) : Prop where
  sized : Sized m.fw.jobs
  armed : m.fw.newStratum = true ∨ inLoop m.pc = true → InRange m.fw.jobs.works m.fw.jobs.curSlot

def LabelSized (m : Main σ) : Label → Prop
  | .frame p => PktSized m.fw.jobs p
  | .go => True

theorem mainPc_inLoop (b : Board σ) (m : Main σ) (after : Fw σ) (l : Label)
    (h : inLoop (mainPc b m after l) = true) : inLoop m.pc = true ∨ after.newStratum = true := by
  cases l with
  | frame p => exact Or.inl h
  | go =>
    simp only [mainPc] at h
    cases hpc : m.pc with
    | head => rw [hpc] at h; cases h
    | poll =>
      rw [hpc] at h
      cases hnew : after.newStratum with
      | true => exact Or.inr rfl
      | false => rw [hnew] at h; cases h
    | chip i => exact Or.inl rfl
    | chipPoll i => exact Or.inl rfl

theorem mainEvent_sized (m : Main σ) (h : MainSized m) (l : Label) (hl : LabelSized m l) (e : Event)
    (he : mainEvent m l = some e) : EventSized m.fw e := by
  cases l with
  | frame p =>
    simp only [mainEvent] at he
    split at he
    · rw [← Option.some.inj he]
      exact hl
    · rw [← Option.some.inj he]
      exact hl
    · cases he
  | go =>
    simp only [mainEvent] at he
    cases hpc : m.pc with
    | head => rw [hpc] at he; rw [← Option.some.inj he]; trivial
    | poll => rw [hpc] at he; rw [← Option.some.inj he]; trivial
    | chip i =>
      rw [hpc] at he
      simp only at he
      split at he
      · rw [← Option.some.inj he]
        exact h.armed (Or.inr (by rw [hpc]; rfl))
      · rw [← Option.some.inj he]
        trivial
    | chipPoll i => rw [hpc] at he; cases he

theorem mainStep_sized (b : Board σ) (m : Main σ) (l : Label) (h : MainSized m)
    (hl : LabelSized m l) (hr : ReadyAfterWork (mainStep b m l).fw.jobs.hist) :
    MainSized (mainStep b m l) := by
  cases he : mainEvent m l with
  | none =>
    have hfw : (mainStep b m l).fw = m.fw := by
      simp only [mainStep, he, Option.map_none, Option.getD_none]
    refine ⟨hfw ▸ h.sized, fun hloop => ?_⟩
    rw [hfw] at hloop ⊢
    have hpc : inLoop (mainStep b m l).pc = true → inLoop m.pc = true ∨ m.fw.newStratum = true := by
      intro hin
      have hcases := mainPc_inLoop b m _ l hin
      rwa [he, Option.map_none, Option.getD_none] at hcases
    rcases hloop with hnew | hin
    · exact h.armed (Or.inl hnew)
    · exact h.armed (hpc hin).symm
  | some e =>
    have hfw : (mainStep b m l).fw = step b m.fw e := by
      simp only [mainStep, he, Option.map_some, Option.getD_some]
    have hsized := mainEvent_sized m h l hl e he
    rw [hfw] at hr
    refine ⟨hfw ▸ step_sized b m.fw e h.sized hsized hr, fun hloop => ?_⟩
    rw [hfw] at hloop ⊢
    apply step_cur_inRange b m.fw e h.sized hsized
    have hbefore : inLoop m.pc = true ∨ (step b m.fw e).newStratum = true := by
      rcases hloop with hnew | hin
      · exact Or.inr hnew
      · have hcases := mainPc_inLoop b m _ l hin
        rwa [he, Option.map_some, Option.getD_some] at hcases
    rcases hbefore with hin | hnew
    · exact Or.inl (h.armed (Or.inr hin))
    · exact (step_newStratum b m.fw e hnew).imp_left fun hold => h.armed (Or.inl hold)

theorem mainStep_hist (b : Board σ) (m : Main σ) (l : Label) :
    ∃ later, (mainStep b m l).fw.jobs.hist = later ++ m.fw.jobs.hist := by
  cases he : mainEvent m l with
  | none =>
    exact ⟨[], by simp only [mainStep, he, Option.map_none, Option.getD_none, List.nil_append]⟩
  | some e =>
    simp only [mainStep, he, Option.map_some, Option.getD_some]
    exact step_hist b m.fw e

theorem mainRun_hist (b : Board σ) (m : Main σ) (ls : List Label) :
    ∃ later, (Run.run (mainStep b) m ls).fw.jobs.hist = later ++ m.fw.jobs.hist := by
  induction ls generalizing m with
  | nil => exact ⟨[], rfl⟩
  | cons l ls ih =>
    obtain ⟨l1, h1⟩ := mainStep_hist b m l
    obtain ⟨l2, h2⟩ := ih (mainStep b m l)
    exact ⟨l2 ++ l1, by rw [Run.run_cons, h2, h1, List.append_assoc]⟩

theorem mainRun_sized (b : Board σ) (m : Main σ) (ls : List Label) (h : MainSized m)
    (hls : Run.Meets (mainStep b) LabelSized m ls)
    (hr : ReadyAfterWork (Run.run (mainStep b) m ls).fw.jobs.hist) :
    MainSized (Run.run (mainStep b) m ls) := by
  induction ls generalizing m with
  | nil => exact h
  | cons l ls ih =>
    obtain ⟨later, hlater⟩ := mainRun_hist b (mainStep b m l) ls
    have hr' : ReadyAfterWork (mainStep b m l).fw.jobs.hist := by
      rw [Run.run_cons, hlater] at hr
      exact readyAfterWork_suffix later _ hr
    exact ih (mainStep b m l) (mainStep_sized b m l h hls.1 hr') hls.2 hr

theorem sized_init : Sized Jobs.init where
  slots := slotsOk_init
  sized := fun _ _ => Or.inl (zero_word _)
  worked := fun _ h => by cases h
  gen := fun _ h => by cases h

theorem mainSized_init (b : Board σ) (env : σ) : MainSized (Main.init b env) where
  sized := sized_init
  armed := fun h => by rcases h with h | h <;> cases h

theorem mainRun_inRange (b : Board σ) (env : σ) (ls : List Label)
    (hls : Run.Meets (mainStep b) LabelSized (Main.init b env) ls)
    (hr : ReadyAfterWork (Run.run (mainStep b) (Main.init b env) ls).fw.jobs.hist) :
    ∀ o ∈ (Run.run (mainStep b) (Main.init b env) ls).fw.jobs.hist, GenInRange o :=
  (mainRun_sized b _ ls (mainSized_init b env) hls hr).sized.gen

/-- **Work generation stays inside its arrays** in every run in which the host's sizes and fragment
indexes are in range, no SET activates a slot that was never filled, and chips answer for work they
were given. -/
theorem gen_inside (b : Board σ) (env : σ) (ls : List Label)
    (hls : Run.Meets (mainStep b) LabelSized (Main.init b env) ls)
    (hr : ReadyAfterWork (Run.run (mainStep b) (Main.init b env) ls).fw.jobs.hist) :
    ∀ o ∈ (Run.run (mainStep b) (Main.init b env) ls).fw.jobs.hist, GenCall GenInside o := by
  intro o ho
  have hrange := mainRun_inRange b env ls hls hr o ho
  cases o with
  | work idx mem slot w => exact genInside_of_inRange mem _ hrange
  | test idx mem slot n2 nonce => exact genInside_of_inRange mem _ hrange
  | ready idx mask => trivial
  | push pos idx => trivial
  | report pos jobId pool => trivial

def tameRun : List Label :=
  [.go, .frame (staticPkg [60, 0, 4, 36, 0, 1, 0]), .frame (setPkg [500, 280, 0, 0x1000]), .go, .go]

theorem tameRun_meets :
    Run.Meets (mainStep (stillBoard 7)) LabelSized (Main.init (stillBoard 7) ()) tameRun :=
  ⟨trivial, fun _ =>
    ⟨⟨by decide, fun _ => by constructor <;> decide⟩, fun h => absurd h (by decide)⟩,
    fun _ => ⟨⟨by decide, fun h => absurd h (by decide)⟩, fun _ => by decide +kernel⟩,
      trivial, trivial, trivial⟩

theorem gen_inside_tameRun :
    0 <
      (Run.run (mainStep (stillBoard 7)) (Main.init (stillBoard 7) ())
        tameRun).fw.jobs.hist.length ∧
      ∀ o ∈ (Run.run (mainStep (stillBoard 7)) (Main.init (stillBoard 7) ()) tameRun).fw.jobs.hist,
        GenCall GenInside o :=
  ⟨by decide +kernel, gen_inside (stillBoard 7) () tameRun tameRun_meets (by decide +kernel)⟩

def wildRun : List Label :=
  [.go, .frame (staticPkg [0x10000, 0, 4, 36, 0, 1, 0]),
    .frame (setPkg [500, 280, 0, 0x1000]), .go, .go]

theorem wildRun_not_inRange :
    ((Run.run (mainStep (stillBoard 7)) (Main.init (stillBoard 7) ()) wildRun).fw.jobs.hist.all
      fun o => decide (GenInRange o)) = false := by
  decide +kernel

/-- Accepted packets alone do not keep work generation inside its arrays. -/
theorem gen_not_inside : (∀ p, Label.frame p ∈ wildRun → CrcOk p) ∧
    ¬∀ o ∈ (Run.run (mainStep (stillBoard 7)) (Main.init (stillBoard 7) ()) wildRun).fw.jobs.hist,
      GenCall GenInside o := by
  constructor
  · intro p hp
    simp only [wildRun, List.mem_cons, Label.frame.injEq, reduceCtorEq, List.not_mem_nil,
      or_false, false_or] at hp
    rcases hp with rfl | rfl
    · exact hostPkg_crcOk ..
    · exact hostPkg_crcOk ..
  · intro h
    have hall :
        ((Run.run (mainStep (stillBoard 7)) (Main.init (stillBoard 7) ()) wildRun).fw.jobs.hist.all
        fun o => decide (GenInRange o)) = true := by
      rw [List.all_eq_true]
      intro o ho
      have hin := h o ho
      apply decide_eq_true
      cases o with
      | work idx mem slot w => exact hin.sizes
      | test idx mem slot n2 nonce => exact hin.sizes
      | ready idx mask => trivial
      | push pos idx => trivial
      | report pos jobId pool => trivial
    rw [wildRun_not_inRange] at hall
    cases hall

end HashRatio.Sizes
