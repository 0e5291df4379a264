import HashRatio.Pass
import HashRatio.Sample
import Mathlib.Data.List.Count

/-!
# What a result pass counts

Every ready chip is a unit of local work and every chip with a verified nonce a
result. Hardware errors are counted by a flag that one chip leaves to the next:
`found` is set by the first verified nonce of the pass and never cleared, and
until then every other outcome counts.
-/

namespace HashRatio.Accounting
open Bytes Memory MmWork Miner Job Protocol Drivers State Packets Results MainLoop Slots
  Generation Pass Sample

variable {σ : Type} {b : Board σ}

-- no simp set is to evaluate a test
attribute [local irreducible] Jobs.test

/-! ### The outcomes of a turn -/

def checks (t : Turn b) : List NonceCheck := t.tests.map Prod.snd

def Good (t : Turn b) : Prop := .diff ∈ checks t

def Bad (t : Turn b) : Prop := checks t = List.replicate 9 .hw

/-- No candidate tests NONCE_DIFF, one is only below the pool's difficulty. -/
def Below (t : Turn b) : Prop := .diff ∉ checks t ∧ .valid ∈ checks t

instance (t : Turn b) : Decidable (Good t) := inferInstanceAs (Decidable (_ ∈ _))
instance (t : Turn b) : Decidable (Bad t) := inferInstanceAs (Decidable (_ = _))
instance (t : Turn b) : Decidable (Below t) := inferInstanceAs (Decidable (_ ∧ _))

theorem good_iff (t : Turn b) : t.verified.isSome = true ↔ Good t := firstDiff_isSome t.tests

theorem tries_length (idx : ℕ) (nonce : Word) (diffs : List ℤ) (j : Jobs)
    (h : .diff ∉ (tries idx nonce diffs j).map Prod.snd) :
    (tries idx nonce diffs j).length = diffs.length := by
  induction diffs generalizing j with
  | nil => rfl
  | cons diff diffs ih =>
    by_cases hd : (j.test idx (nonce + BitVec.ofInt 32 diff)).2 = .diff
    · rw [tries_hit diffs hd] at h
      exact absurd (List.mem_singleton_self _) h
    · rw [tries_miss diffs hd] at h ⊢
      rw [List.map_cons, List.mem_cons, not_or] at h
      rw [List.length_cons, List.length_cons, ih _ h.2]

theorem checks_length (t : Turn b) (h : ¬Good t) : (checks t).length = 9 := by
  rw [checks, List.length_map]
  exact tries_length t.chip t.base diffNonce t.jobs h

theorem kinds (t : Turn b) :
    Good t ∧ ¬Bad t ∧ ¬Below t ∨ ¬Good t ∧ Bad t ∧ ¬Below t ∨ ¬Good t ∧ ¬Bad t ∧ Below t := by
  by_cases hg : Good t
  · refine Or.inl ⟨hg, fun hb => ?_, fun hb => hb.1 hg⟩
    have hmem : NonceCheck.diff ∈ checks t := hg
    rw [hb, List.mem_replicate] at hmem
    cases hmem.2
  · have hlen := checks_length t hg
    by_cases hv : NonceCheck.valid ∈ checks t
    · refine Or.inr (Or.inr ⟨hg, fun hb => ?_, hg, hv⟩)
      rw [hb, List.mem_replicate] at hv
      cases hv.2
    · refine Or.inr
        (Or.inl ⟨hg, List.eq_replicate_iff.mpr ⟨hlen, fun c hc => ?_⟩, fun hb => hv hb.2⟩)
      cases c with
      | hw => rfl
      | valid => exact absurd hc hv
      | diff => exact absurd hc hg

/-- A test of the loop is the test in the memory the loop started with. -/
theorem tries_same (idx : ℕ) (nonce : Word) (diffs : List ℤ) (j : Jobs)
    (h : Safe j.works (slotAddr (j.minerStatus idx).mmIdx)) (r : Word × NonceCheck)
    (hr : r ∈ tries idx nonce diffs j) :
    r.2 =
      (testNonce j.works (slotAddr (j.minerStatus idx).mmIdx)
        (j.minerStatus idx).nonce2 r.1).2 := by
  induction diffs generalizing j with
  | nil => cases hr
  | cons diff diffs ih =>
    have hfirst := test_check j idx (nonce + BitVec.ofInt 32 diff)
    by_cases hd : (j.test idx (nonce + BitVec.ofInt 32 diff)).2 = .diff
    · rw [tries_hit diffs hd, List.mem_singleton] at hr
      rw [hr, ← hfirst, hd]
    · rw [tries_miss diffs hd, List.mem_cons] at hr
      rcases hr with rfl | hr
      · exact hfirst
      · -- the test before changed place holders only
        have hsame : SameSlot j.works (j.test idx (nonce + BitVec.ofInt 32 diff)).1.works
            (slotAddr (j.minerStatus idx).mmIdx) := by
          rw [test_note, note_works]
          exact call_same j.works _ h (.gen _)
        have hstatus : (j.test idx (nonce + BitVec.ofInt 32 diff)).1.minerStatus =
            j.minerStatus := by
          rw [test_note, note_minerStatus]
        have hrest :=
          ih (j.test idx (nonce + BitVec.ofInt 32 diff)).1 (hstatus ▸ safe_same h hsame) hr
        rwa [hstatus, testNonce_same h hsame] at hrest

/-- In a slot with its sizes in range every candidate tests what it does for the job of the slot. -/
theorem tries_job (idx : ℕ) (nonce : Word) (diffs : List ℤ) (j : Jobs)
    (h : InRange j.works (slotAddr (j.minerStatus idx).mmIdx)) (r : Word × NonceCheck)
    (hr : r ∈ tries idx nonce diffs j) :
    r.2 =
      jobCheck (jobAt j.works (slotAddr (j.minerStatus idx).mmIdx))
        (j.minerStatus idx).nonce2 r.1 := by
  rw [tries_same idx nonce diffs j h.safe r hr, testNonce_job _ _ h]

/-! ### Counters -/

theorem foldl_count {α : Type} (p : α → Prop) [DecidablePred p] (ts : List α) (a : Word) :
    ts.foldl (fun a t => a + if p t then 1 else 0) a = a + BitVec.ofNat 32 (ts.countP p) := by
  induction ts generalizing a with
  | nil => exact (BitVec.add_zero a).symm
  | cons t ts ih =>
    rw [List.foldl_cons, ih, List.countP_cons, BitVec.add_assoc]
    congr 1
    by_cases h : p t
    · simp only [h, if_true, decide_true]
      apply BitVec.eq_of_toNat_eq
      simp [Nat.add_comm]
    · simp [h]

theorem pass_localWork (s : Fw σ) :
    (be200ReadResult b s).localWork = s.localWork + BitVec.ofNat 32 (passTurns b s).length := by
  have hfold := pass_fold (b := b) (fun st => st.fw.localWork)
    (fun a _ => a + if True then 1 else 0)
    (fun st idx h => by rw [skip_eq h]) (fun t => t.after_localWork) (passStart b s)
    (List.range chipNumber)
  rw [foldl_count, List.countP_eq_length.mpr fun _ _ => decide_eq_true trivial] at hfold
  exact hfold

theorem pass_totalNonce (s : Fw σ) :
    (be200ReadResult b s).totalNonce =
      s.totalNonce + BitVec.ofNat 32 ((passTurns b s).countP (Good ·)) := by
  have hfold := pass_fold (b := b) (fun st => st.fw.totalNonce)
    (fun a t => a + if Good t then 1 else 0)
    (fun st idx h => by rw [skip_eq h]) (fun t => by simp only [t.after_totalNonce, good_iff])
    (passStart b s) (List.range chipNumber)
  rw [foldl_count] at hfold
  exact hfold

theorem pass_hwWork (s : Fw σ) :
    (be200ReadResult b s).hwWork =
      s.hwWork + BitVec.ofNat 32 ((passTurns b s).countP fun t => t.Counted) := by
  have hfold := pass_fold (b := b) (fun st => st.fw.hwWork)
    (fun a t => a + if t.Counted then 1 else 0)
    (fun st idx h => by rw [skip_eq h]) (fun t => t.after_hwWork) (passStart b s)
    (List.range chipNumber)
  rw [foldl_count] at hfold
  exact hfold

def isPush : Obs → Bool
  | .push _ _ => true
  | _ => false

def pushes (hist : List Obs) : ℕ := hist.countP isPush

theorem tested_pushes (t : Turn b) : pushes t.tested.hist = pushes t.scan.fw.jobs.hist := by
  have hrun (idx : ℕ) (rs : List (Word × NonceCheck)) (j : Jobs) :
      pushes (Run.run Jobs.apply j (testOps idx rs)).hist = pushes j.hist := by
    induction rs generalizing j with
    | nil => rfl
    | cons r rs ih =>
      rw [testOps, List.map_cons, Run.run_cons, ← testOps, ih, apply_hist, Jobs.obs,
        Option.toList_some, List.singleton_append, pushes,
          List.countP_cons_of_neg (by simp [isPush]), pushes]
  rw [Turn.tested, hrun, Turn.jobs, Jobs.noteReady, note_hist, pushes,
    List.countP_cons_of_neg (by simp [isPush]), pushes]

theorem push_pushes (j : Jobs) (idx : ℕ) (nonce : Word) :
    pushes (j.push idx nonce).hist = pushes j.hist + 1 :=
  List.countP_cons_of_pos rfl

theorem pass_pushes (s : Fw σ) :
    pushes (be200ReadResult b s).jobs.hist =
      pushes s.jobs.hist + (passTurns b s).countP (Good ·) := by
  have hturn (t : Turn b) :
      pushes t.after.fw.jobs.hist = pushes t.scan.fw.jobs.hist + if Good t then 1 else 0 := by
    rw [t.after_jobs, ← tested_pushes t]
    simp only [← good_iff]
    cases t.verified with
    | none => rw [Option.elim_none, Option.isSome_none, if_neg Bool.false_ne_true, Nat.add_zero]
    | some nonce => rw [Option.elim_some, Option.isSome_some, if_pos rfl, push_pushes]
  have hfold := pass_fold (b := b) (fun st => pushes st.fw.jobs.hist)
    (fun a t => a + if Good t then 1 else 0)
    (fun st idx h => by rw [skip_eq h]) hturn (passStart b s) (List.range chipNumber)
  have hcount (ts : List (Turn b)) (a : ℕ) :
      ts.foldl (fun a t => a + if Good t then 1 else 0) a = a + ts.countP (Good ·) := by
    induction ts generalizing a with
    | nil => rfl
    | cons t ts ih =>
      rw [List.foldl_cons, ih, List.countP_cons, Nat.add_assoc, Nat.add_comm (ts.countP (Good ·))]
      simp only [decide_eq_true_eq]
  rw [hcount] at hfold
  exact hfold

/-! ### Hardware errors -/

theorem counted_iff (s : Fw σ) (pre post : List (Turn b)) (t : Turn b)
    (h : passTurns b s = pre ++ t :: post) :
    t.Counted ↔ ¬Good t ∧ ∀ u ∈ pre, ¬Good u := by
  have hfound := found_iff (passStart b s) (List.range chipNumber) pre post t h
  have hnone : t.verified = none ↔ ¬Good t := by rw [← good_iff, Option.not_isSome_iff_eq_none]
  have hfree : t.scan.found = false ↔ ∀ u ∈ pre, ¬Good u := by
    rw [hfound, passStart, Bool.false_or, List.any_eq_false]
    exact forall₂_congr fun u _ => not_congr (good_iff u)
  rw [Turn.Counted, hnone, hfree]

/-- A chip with only a below-target nonce comes after one with a verified nonce, and a chip with bad
nonces only comes before. -/
def Ordered (ts : List (Turn b)) : Prop :=
  ∀ pre t post, ts = pre ++ t :: post → (Below t → ∃ u ∈ pre, Good u) ∧ (Bad t → ∀ u ∈ pre, ¬Good u)

theorem ordered_iff (s : Fw σ) :
    Ordered (passTurns b s) ↔ ∀ t ∈ passTurns b s, t.Counted ↔ Bad t := by
  have hturn (pre post : List (Turn b)) (t : Turn b) (h : passTurns b s = pre ++ t :: post) :
      ((Below t → ∃ u ∈ pre, Good u) ∧ (Bad t → ∀ u ∈ pre, ¬Good u)) ↔ (t.Counted ↔ Bad t) := by
    rw [counted_iff s pre post t h]
    rcases kinds t with ⟨hg, hb, hv⟩ | ⟨hg, hb, hv⟩ | ⟨hg, hb, hv⟩ <;> simp [hg, hb, hv]
  constructor
  · intro hord t ht
    obtain ⟨pre, post, h⟩ := List.append_of_mem ht
    exact (hturn pre post t h).mp (hord pre t post h)
  · intro hall pre t post h
    exact (hturn pre post t h).mpr (hall t (by rw [h]; simp))

/-- What the counter of hardware errors is to do in a pass: grow by one for each chip whose nine
candidates all test NONCE_HW, by nothing for the others. -/
def HwPerChip (b : Board σ) (s : Fw σ) : Prop :=
  (be200ReadResult b s).hwWork = s.hwWork + BitVec.ofNat 32 ((passTurns b s).countP (Bad ·)) ∧
    ∀ t ∈ passTurns b s, t.after.fw.hwWork = t.scan.fw.hwWork + if Bad t then 1 else 0

theorem hwPerChip_iff (s : Fw σ) : HwPerChip b s ↔ Ordered (passTurns b s) := by
  have hcount (t : Turn b) :
      t.after.fw.hwWork = (t.scan.fw.hwWork + if Bad t then 1 else 0) ↔ (t.Counted ↔ Bad t) := by
    rw [t.after_hwWork, BitVec.add_right_inj]
    by_cases hc : t.Counted <;> by_cases hb : Bad t <;> simp [hc, hb]
  rw [ordered_iff, HwPerChip]
  simp only [hcount]
  refine ⟨fun h => h.2, fun h => ⟨?_, h⟩⟩
  rw [pass_hwWork]
  congr 2
  exact List.countP_congr fun t ht => by simpa using h t ht

/-- **Local work, results and entries are counted per chip in every pass; hardware errors are**
exactly in the passes that are `Ordered`. -/
theorem accounting (b : Board σ) (s : Fw σ) :
    (be200ReadResult b s).localWork = s.localWork + BitVec.ofNat 32 (passTurns b s).length ∧
    (be200ReadResult b s).totalNonce =
      s.totalNonce + BitVec.ofNat 32 ((passTurns b s).countP (Good ·)) ∧
    pushes (be200ReadResult b s).jobs.hist = pushes s.jobs.hist + (passTurns b s).countP (Good ·) ∧
    (HwPerChip b s ↔ Ordered (passTurns b s)) :=
  ⟨pass_localWork s, pass_totalNonce s, pass_pushes s, hwPerChip_iff s⟩

/-! ### A nonce below the target -/

def noTarget : List Byte := List.replicate 32 0

theorem noTarget_check (nonce2 nonce : Word) :
    jobCheck (sampleJob noTarget) nonce2 nonce ≠ .diff := by
  have hlen : (Sha256.dsha256 (swapBuffer ((sampleJob noTarget).work nonce2) nonce)).length = 32 :=
    Sha256.dsha256_length _
  rw [jobCheck]
  generalize Sha256.dsha256 (swapBuffer ((sampleJob noTarget).work nonce2) nonce) = hash at *
  have hzero : FullTest.leNat noTarget = 0 := by decide
  have htest := FullTest.fulltest_eq hash noTarget hlen (by decide)
  rw [hzero, if_neg (Nat.not_lt_zero _)] at htest
  split
  · decide
  · rw [show (sampleJob noTarget).target = noTarget from rfl, htest]
    decide

def belowBoard : Board Unit := foundBoard firstChip nonceBytes

/-- Chip 0 has mined a job that no hash is good enough for, and flags the nonce it found. -/
def belowState : Fw Unit := sampled noTarget

theorem below_mined : belowState.jobs.minerStatus 0 = ⟨0, 1⟩ ∧
    jobAt belowState.jobs.works (slotAddr 1) = sampleJob noTarget ∧
    InRange belowState.jobs.works (slotAddr 1) := by
  decide +kernel

theorem quiet_turns (st : Scan Unit) (is : List ℕ) (h : ∀ i ∈ is, i ≠ 0) :
    turnsFrom belowBoard st is = [] := by
  induction is generalizing st with
  | nil => rfl
  | cons i is ih =>
    have hquiet : (be200GetDone belowBoard st.fw.dev i).2 = none := by
      rw [belowBoard, foundBoard_done, firstChip, if_neg (h i (List.mem_cons_self ..))]
      rfl
    rw [turnsFrom, turnAt_none hquiet, ih _ fun i' hi' => h i' (List.mem_cons_of_mem _ hi')]
    rfl

theorem first_ready (d : Dev Unit) : (be200GetDone belowBoard d 0).2 = some 1 := by
  rw [belowBoard, foundBoard_done]
  decide

/-- Chip 0 is the one chip that is ready. -/
theorem first_turn (s : Fw Unit) :
    passTurns belowBoard s = [⟨0, passStart belowBoard s, 1, first_ready _⟩] := by
  rw [passTurns, chipNumber, List.range_succ_eq_map, turnsFrom,
    turnAt_some (first_ready _), quiet_turns]
  · rfl
  · intro i hi
    obtain ⟨k, _, rfl⟩ := List.mem_map.mp hi
    exact Nat.succ_ne_zero k

def belowTurn : Turn belowBoard := ⟨0, passStart belowBoard belowState, 1, rfl⟩

theorem below_turns : passTurns belowBoard belowState = [belowTurn] := first_turn belowState

theorem below_base : belowTurn.base = sampleNonce := rfl

theorem below_tests (r : Word × NonceCheck) (hr : r ∈ belowTurn.tests) :
    r.2 = jobCheck (sampleJob noTarget) 0 r.1 := by
  obtain ⟨hmined, hjob, hrange⟩ := below_mined
  have hstatus : belowTurn.jobs.minerStatus 0 = ⟨0, 1⟩ := hmined
  have hworks : belowTurn.jobs.works = belowState.jobs.works := by
    rw [Turn.jobs, Jobs.noteReady, note_works]; rfl
  have h :=
    tries_job 0 belowTurn.base diffNonce belowTurn.jobs (by rw [hstatus, hworks]; exact hrange) r hr
  rwa [hstatus, hworks, hjob] at h

theorem below_below : Below belowTurn := by
  constructor
  · intro hmem
    obtain ⟨r, hr, hdiff⟩ := List.mem_map.mp hmem
    exact noTarget_check 0 r.1 ((below_tests r hr).symm.trans hdiff)
  · -- the nonce read out is the first candidate
    obtain ⟨check, rest, htests⟩ : ∃ check rest,
        belowTurn.tests = (sampleNonce, check) :: rest := by
      rw [Turn.tests, diffNonce, tries, below_base]
      exact ⟨_, _, rfl⟩
    have hcheck := below_tests (sampleNonce, check) (by rw [htests]; exact List.mem_cons_self ..)
    have hlen : sampleHash.length = 32 := Sha256.dsha256_length _
    rw [sampleJob_check, FullTest.fulltest_eq _ _ hlen (by decide),
      show FullTest.leNat noTarget = 0 by decide,
      if_neg (Nat.not_lt_zero _)] at hcheck
    rw [checks, htests, List.map_cons, show check = .valid from hcheck]
    exact List.mem_cons_self ..

/-- The one ready chip of the pass has a nonce that is only below the target, and is counted. -/
theorem below_counted : (passTurns belowBoard belowState).countP (Bad ·) = 0 ∧
    (be200ReadResult belowBoard belowState).hwWork = belowState.hwWork + 1 ∧
    ¬HwPerChip belowBoard belowState := by
  have hkind : ¬Bad belowTurn := by
    rcases kinds belowTurn with ⟨_, hb, _⟩ | ⟨_, _, hv⟩ | ⟨_, hb, _⟩
    · exact hb
    · exact absurd below_below hv
    · exact hb
  have hcounted : belowTurn.Counted := (counted_iff belowState [] [] belowTurn below_turns).mpr
    ⟨below_below.1, fun u hu => by cases hu⟩
  refine ⟨?_, ?_, fun h => ?_⟩
  · rw [below_turns, List.countP_singleton, decide_eq_false hkind]
    rfl
  · rw [pass_hwWork, below_turns, List.countP_singleton, decide_eq_true hcounted]
    rfl
  · have hord := (hwPerChip_iff belowState).mp h [] belowTurn [] below_turns
    obtain ⟨u, hu, _⟩ := hord.1 below_below
    cases hu

end HashRatio.Accounting
