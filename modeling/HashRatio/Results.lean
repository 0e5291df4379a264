import HashRatio.Packets

/-!
# Chips: dispatch and results (main.c)

`be200_send_work` with the dispatch of `main`, and `be200_read_result`. Both act
on the jobs through the operations of `State` only; the lemmas at the end say
through which.
-/

namespace HashRatio.Results
open Bytes Memory MmWork Miner Protocol Drivers State Packets

variable {σ : Type}

/-! ### Dispatch -/

def be200SendWork (b : Board σ) (s : Fw σ) (idx : ℕ) (w : Work) : Fw σ :=
  let d := (be200CmdRd b s.dev idx be200RegClear).1
  let d := (be200InputTask b d idx w.data).1
  let d := be200Start b d idx
  {s with dev := d, jobs := s.jobs.recordWork idx w}

def dispatch (b : Board σ) (s : Fw σ) (idx : ℕ) : Fw σ :=
  let r := be200IsIdle b s.dev idx
  if r.2 then
    let g := s.jobs.genWork idx
    be200SendWork b {s with dev := r.1, jobs := g.1} idx g.2
  else {s with dev := r.1}

/-! ### Results -/

def diffNonce : List ℤ := [0, -1, 1, -2, 2, -3, 3, 4, -4]

/-- The loop over `diff_nonce`: the last check, and the nonce that is valid. -/
def tryNonces (idx : ℕ) (nonce : Word) :
    List ℤ → Jobs → NonceCheck → Jobs × NonceCheck × Option Word
  | [], j, check => (j, check, none)
  | diff :: diffs, j, _ =>
    let nonceNew := nonce + BitVec.ofInt 32 diff
    let r := j.test idx nonceNew
    if r.2 = .diff then (r.1, .diff, some nonceNew) else tryNonces idx nonce diffs r.1 r.2

/-- The locals of `be200_read_result` that live across chips. -/
structure Scan (σ : Type) where
  fw : Fw σ
  nonce : Word
  nonceCheck : NonceCheck
  found : Bool

def countValid (b : Board σ) (s : Fw σ) (idx : ℕ) (nonce : Word) : Fw σ :=
  {s with
    totalNonce := s.totalNonce + 1
    jobs := s.jobs.push idx nonce
    dev := ledBlink b s.dev 0x02}

def countInvalid (b : Board σ) (s : Fw σ) : Fw σ :=
  let d := ledBlink b s.dev 0x08
  if s.resetFlag + 1 ≥ 10 then
    {s with hwWork := s.hwWork + 1, dev := setAllChipsIdle b (chipHardReset b d), resetFlag := 0}
  else {s with hwWork := s.hwWork + 1, dev := d, resetFlag := s.resetFlag + 1}

/-- The counting of a turn: `t` is what the loop over `diff_nonce` ended with. -/
def countResult (b : Board σ) (st : Scan σ) (idx : ℕ)
    (t : Jobs × NonceCheck × Option Word) : Scan σ :=
  let nonce := t.2.2.getD st.nonce
  -- `found` is never cleared: after one valid nonce of the pass no invalid one is counted
  let found := st.found || t.2.2.isSome
  let s := {st.fw with jobs := t.1, localWork := st.fw.localWork + 1}
  if t.2.1 = .diff then ⟨countValid b s idx nonce, nonce, t.2.1, found⟩
  else if found then ⟨s, nonce, t.2.1, found⟩
  else ⟨countInvalid b s, nonce, t.2.1, found⟩

def readyChip (b : Board σ) (st : Scan σ) (idx : ℕ) (mask : Byte) : Scan σ :=
  let g := be200GetResult b st.fw.dev idx mask
  let nonce := g.2.getD st.nonce
  let st := {st with fw := {st.fw with dev := g.1}, nonce := nonce}
  countResult b st idx (tryNonces idx nonce diffNonce (st.fw.jobs.noteReady idx mask) st.nonceCheck)

def resultChip (b : Board σ) (st : Scan σ) (idx : ℕ) : Scan σ :=
  let r := be200GetDone b st.fw.dev idx
  let st := {st with fw := {st.fw with dev := r.1}}
  match r.2 with
  | none => st
  | some mask => readyChip b st idx mask

def be200ReadResult (b : Board σ) (s : Fw σ) : Fw σ :=
  ((List.range chipNumber).foldl (resultChip b) ⟨s, b.stale s.dev.env, .hw, false⟩).fw

/-! ### The operations on jobs -/

theorem dispatch_jobs (b : Board σ) (s : Fw σ) (idx : ℕ) :
    (dispatch b s idx).jobs = if (be200IsIdle b s.dev idx).2 then
      s.jobs.apply (.dispatch idx) else s.jobs := by
  by_cases h : (be200IsIdle b s.dev idx).2 = true
  · simp only [dispatch, h, if_true]
    rfl
  · simp only [dispatch, h, Bool.false_eq_true, if_false]

/-- What a result pass may do for chip `idx`: nothing, or note that it is ready, test nonces of it,
and at the end push one. -/
def ChipOps (idx : ℕ) (ops : List JobOp) : Prop :=
  ops = [] ∨ ∃ mask nonces tail, nonces ≠ [] ∧
    (tail = [] ∨ ∃ nonce, tail = [JobOp.push idx nonce]) ∧
    ops = .ready idx mask :: (nonces.map (JobOp.test idx) ++ tail)

theorem tryNonces_ops (idx : ℕ) (nonce : Word) (diffs : List ℤ) (j : Jobs) (check : NonceCheck) :
    ∃ nonces : List Word, (diffs ≠ [] → nonces ≠ []) ∧
      (tryNonces idx nonce diffs j check).1 =
        Run.run Jobs.apply j (nonces.map (JobOp.test idx)) := by
  induction diffs generalizing j check with
  | nil => exact ⟨[], fun h => absurd rfl h, rfl⟩
  | cons diff diffs ih =>
    rw [tryNonces]
    split
    · refine ⟨[nonce + BitVec.ofInt 32 diff], by simp, ?_⟩
      rw [List.map_singleton, Run.run_cons, apply_test, Run.run_nil]
    · obtain ⟨nonces, _, hrun⟩ := ih (j.test idx (nonce + BitVec.ofInt 32 diff)).1
        (j.test idx (nonce + BitVec.ofInt 32 diff)).2
      refine ⟨(nonce + BitVec.ofInt 32 diff) :: nonces, by simp, ?_⟩
      rw [List.map_cons, Run.run_cons, apply_test, hrun]

theorem countInvalid_jobs (b : Board σ) (s : Fw σ) : (countInvalid b s).jobs = s.jobs := by
  unfold countInvalid
  split <;> rfl

theorem countResult_jobs (b : Board σ) (st : Scan σ) (idx : ℕ)
    (t : Jobs × NonceCheck × Option Word) :
    ∃ tail, (tail = [] ∨ ∃ nonce, tail = [JobOp.push idx nonce]) ∧
      (countResult b st idx t).fw.jobs = Run.run Jobs.apply t.1 tail := by
  simp only [countResult]
  split
  · exact ⟨_, Or.inr ⟨t.2.2.getD st.nonce, rfl⟩, rfl⟩
  · split
    · exact ⟨[], Or.inl rfl, rfl⟩
    · exact ⟨[], Or.inl rfl, countInvalid_jobs b _⟩

theorem readyChip_ops (b : Board σ) (st : Scan σ) (idx : ℕ) (mask : Byte) :
    ∃ nonces tail, nonces ≠ [] ∧ (tail = [] ∨ ∃ nonce, tail = [JobOp.push idx nonce]) ∧
      (readyChip b st idx mask).fw.jobs =
        Run.run Jobs.apply st.fw.jobs
          (.ready idx mask :: (nonces.map (JobOp.test idx) ++ tail)) := by
  have htry := tryNonces_ops idx ((be200GetResult b st.fw.dev idx mask).2.getD st.nonce) diffNonce
    (st.fw.jobs.noteReady idx mask) st.nonceCheck
  obtain ⟨nonces, hne, hrun⟩ := htry
  obtain ⟨tail, htail, hcount⟩ := countResult_jobs b
    {st with
      fw := {st.fw with dev := (be200GetResult b st.fw.dev idx mask).1}
      nonce := (be200GetResult b st.fw.dev idx mask).2.getD st.nonce} idx
    (tryNonces idx ((be200GetResult b st.fw.dev idx mask).2.getD st.nonce) diffNonce
      (st.fw.jobs.noteReady idx mask) st.nonceCheck)
  refine ⟨nonces, tail, hne (by simp [diffNonce]), htail, ?_⟩
  rw [Run.run_cons, Run.run_append, apply_ready, ← hrun, ← hcount, readyChip]

theorem resultChip_ops (b : Board σ) (st : Scan σ) (idx : ℕ) :
    ∃ ops, ChipOps idx ops ∧ (resultChip b st idx).fw.jobs = Run.run Jobs.apply st.fw.jobs ops := by
  cases hdone : (be200GetDone b st.fw.dev idx).2 with
  | none =>
    refine ⟨[], Or.inl rfl, ?_⟩
    simp only [resultChip, hdone, Run.run_nil]
  | some mask =>
    obtain ⟨nonces, tail, hne, htail, hrun⟩ :=
      readyChip_ops b {st with fw := {st.fw with dev := (be200GetDone b st.fw.dev idx).1}} idx mask
    refine ⟨_, Or.inr ⟨mask, nonces, tail, hne, htail, rfl⟩, ?_⟩
    simp only [resultChip, hdone]
    exact hrun

theorem resultChips_ops (b : Board σ) (is : List ℕ) (st : Scan σ) :
    ∃ opss, List.Forall₂ ChipOps is opss ∧
      (is.foldl (resultChip b) st).fw.jobs = Run.run Jobs.apply st.fw.jobs opss.flatten := by
  induction is generalizing st with
  | nil => exact ⟨[], .nil, rfl⟩
  | cons i is ih =>
    obtain ⟨ops, hops, hchip⟩ := resultChip_ops b st i
    obtain ⟨opss, hopss, hrest⟩ := ih (resultChip b st i)
    refine ⟨ops :: opss, .cons hops hopss, ?_⟩
    rw [List.foldl_cons, hrest, hchip, List.flatten_cons, Run.run_append]

theorem be200ReadResult_ops (b : Board σ) (s : Fw σ) :
    ∃ opss, List.Forall₂ ChipOps (List.range chipNumber) opss ∧
      (be200ReadResult b s).jobs = Run.run Jobs.apply s.jobs opss.flatten :=
  resultChips_ops b (List.range chipNumber) ⟨s, b.stale s.dev.env, .hw, false⟩

/-! ### Mining goes on -/

theorem dispatch_newStratum (b : Board σ) (s : Fw σ) (idx : ℕ) :
    (dispatch b s idx).newStratum = s.newStratum := by
  simp only [dispatch]
  split <;> rfl

theorem countResult_newStratum (b : Board σ) (st : Scan σ) (idx : ℕ)
    (t : Jobs × NonceCheck × Option Word) :
    (countResult b st idx t).fw.newStratum = st.fw.newStratum := by
  simp only [countResult]
  split
  · rfl
  · split
    · rfl
    · simp only [countInvalid]
      split <;> rfl

theorem resultChip_newStratum (b : Board σ) (st : Scan σ) (idx : ℕ) :
    (resultChip b st idx).fw.newStratum = st.fw.newStratum := by
  simp only [resultChip]
  split
  · rfl
  · rw [readyChip, countResult_newStratum]

theorem be200ReadResult_newStratum (b : Board σ) (s : Fw σ) :
    (be200ReadResult b s).newStratum = s.newStratum := by
  have hfold (is : List ℕ) (st : Scan σ) : (is.foldl (resultChip b) st).fw.newStratum =
      st.fw.newStratum := by
    induction is generalizing st with
    | nil => rfl
    | cons i is ih => rw [List.foldl_cons, ih, resultChip_newStratum]
  exact hfold (List.range chipNumber) ⟨s, b.stale s.dev.env, .hw, false⟩

end HashRatio.Results
