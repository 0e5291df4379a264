import HashRatio.Slots

/-!
# Mining one job

From one SET to the next the current slot holds one job, whatever arrives for the
slot after it, and every work generated is the work of that job.
-/

namespace HashRatio.Mining
open Bytes Memory MmWork Miner Job Protocol State Packets Results MainLoop Bounds Slots

variable {σ : Type}

/-- The work of a job, but for the slot it is marked with. -/
def WorkOf (job : JobData) (w : Work) : Prop := {w with mmIdx := 0} = job.work w.nonce2

def worksOf (hist : List Obs) : List Work :=
  hist.filterMap fun
    | .work _ _ _ w => some w
    | _ => none

/-- The current slot holds `job`, and the works made since `old` are works of it. -/
structure Mines (job : JobData) (old : List Obs) (j : Jobs) : Prop where
  slots : SlotsOk j
  inRange : InRange j.works j.curSlot
  job_eq : jobAt j.works j.curSlot = job
  grown : ∃ later, j.hist = later ++ old ∧ ∀ w ∈ worksOf later, WorkOf job w

theorem apply_curSame (j : Jobs) (h : SlotsOk j) (op : JobOp) (hok : OpOk op) :
    SameSlot j.works (j.apply op).works j.curSlot := by
  by_cases hop : ∃ p, op = .store p
  · obtain ⟨p, rfl⟩ := hop
    have hne : j.curMmIdx ≠ j.mmWriteIdx := by
      have hlt := h.cur_lt
      unfold Jobs.mmWriteIdx mmBufNum at *
      omega
    exact store_same j p hok.idx j.curMmIdx hne
  · exact apply_sameSlots j h op (fun p hp => hop ⟨p, hp⟩) j.curMmIdx h.cur_lt

theorem genWork_workOf (j : Jobs) (h : SlotsOk j) (hrange : InRange j.works j.curSlot) (idx : ℕ) :
    WorkOf (jobAt j.works j.curSlot) (j.genWork idx).2 := by
  have hsafe : Safe j.works j.curSlot := h.safe j.curMmIdx h.cur_lt
  have hsame : SameSlot j.works j.bumpNonce2 j.curSlot := bump_sameSlots j h j.curMmIdx h.cur_lt
  have hbump := (sameSizes_of_same hsafe hsame).inRange hrange
  have hgen := minerGenNonce2Work_eq j.bumpNonce2 j.curSlot (nonce2 j.bumpNonce2 j.curSlot) hbump
  rw [jobAt_same hsafe hsame] at hgen
  rw [WorkOf, genWork_work, hgen]
  rfl

theorem obs_workOf {job : JobData} {old : List Obs} {j : Jobs} (h : Mines job old j) (op : JobOp) :
    ∀ w ∈ worksOf (j.obs op).toList, WorkOf job w := by
  intro w hw
  cases op with
  | dispatch idx =>
    rw [List.mem_singleton.mp hw, ← h.job_eq]
    exact genWork_workOf j h.slots h.inRange idx
  | pop =>
    simp only [Jobs.obs] at hw
    split at hw <;> simp [worksOf] at hw
  | _ => simp [Jobs.obs, worksOf] at hw

theorem apply_mines {job : JobData} {old : List Obs} {j : Jobs} (h : Mines job old j)
    (op : JobOp) (hok : OpOk op) (hset : ∀ offset range, op ≠ .set offset range) :
    Mines job old (j.apply op) := by
  have hsame := apply_curSame j h.slots op hok
  have hsafe : Safe j.works j.curSlot := h.slots.safe j.curMmIdx h.slots.cur_lt
  have hslot : (j.apply op).curSlot = j.curSlot := by
    rw [Jobs.curSlot, Jobs.curSlot, apply_cur j op hset]
  refine ⟨apply_slotsOk j h.slots op hok, ?_, ?_, ?_⟩
  · rw [hslot]
    exact (sameSizes_of_same hsafe hsame).inRange h.inRange
  · rw [hslot, jobAt_same hsafe hsame, h.job_eq]
  · obtain ⟨later, hhist, hworks⟩ := h.grown
    refine ⟨(j.obs op).toList ++ later,
      by rw [apply_hist, hhist, List.append_assoc], fun w hw => ?_⟩
    rw [worksOf, List.filterMap_append, List.mem_append] at hw
    rcases hw with hw | hw
    · exact obs_workOf h op w hw
    · exact hworks w hw

theorem ops_mines {job : JobData} {old : List Obs} {j : Jobs} (h : Mines job old j)
    (ops : List JobOp) (hok : ∀ op ∈ ops, OpOk op)
    (hset : ∀ op ∈ ops, ∀ offset range, op ≠ .set offset range) :
    Mines job old (Run.run Jobs.apply j ops) := by
  refine Run.run_invariant Jobs.apply (fun _ op => OpOk op ∧
    ∀ offset range, op ≠ .set offset range) (Mines job old)
    (fun j op hop hj => apply_mines hj op hop.1 hop.2) j ops ?_ h
  exact Run.meets_of_forall _ _ j ops fun op hop _ => ⟨hok op hop, hset op hop⟩

theorem step_mines {job : JobData} {old : List Obs} (b : Drivers.Board σ) {s : Fw σ}
    (h : Mines job old s.jobs) (e : Event)
    (hok : EventOk e) (hset : ¬IsSet e) : Mines job old (step b s e).jobs := by
  obtain ⟨ops, hops, hrun⟩ := step_ops b s e
  rw [hrun]
  exact ops_mines h ops (eventOps_ok e ops hops hok) (eventOps_set e ops hops hset)

/-- Between two SETs, with the packets in range, only works of the current job are generated. -/
theorem run_mines {job : JobData} {old : List Obs} (b : Drivers.Board σ) {s : Fw σ}
    (h : Mines job old s.jobs) (es : List Event) (hes : ∀ e ∈ es, EventOk e ∧ ¬IsSet e) :
    Mines job old (Run.run (step b) s es).jobs := by
  refine Run.run_invariant (step b) (fun _ e => EventOk e ∧ ¬IsSet e)
    (fun s => Mines job old s.jobs) (fun s e he hs => step_mines b hs e he.1 he.2) s es ?_ h
  exact Run.meets_of_forall _ _ s es fun e he _ => hes e he

theorem mines_here (j : Jobs) (h : SlotsOk j) (hrange : InRange j.works j.curSlot) :
    Mines (jobAt j.works j.curSlot) j.hist j :=
  ⟨h, hrange, rfl, [], rfl, by simp [worksOf]⟩

end HashRatio.Mining
