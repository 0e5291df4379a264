import HashRatio.ResultRing
import HashRatio.Works

/-!
# Soundness of the nonces put into the ring

A turn that puts an entry into the ring has just seen `test_nonce` return
NONCE_DIFF for it. In a slot whose sizes are in range the tests leave the job
alone, so that asking again gives the same answer and the order of the calls does
not matter; outside it a test may change what it tests.
-/

namespace HashRatio.Soundness
open Bytes Memory MmWork Miner Job Protocol Drivers State Packets Results MainLoop Slots
  Generation Pass Works

variable {σ : Type} {b : Board σ}

-- no simp set is to evaluate a test
attribute [local irreducible] Jobs.test

/-! ### The search -/

theorem tries_found (idx : ℕ) (base : Word) (diffs : List ℤ) (j : Jobs) (nonce : Word)
    (h : firstDiff (tries idx base diffs j) = some nonce) :
    ∃ misses, tries idx base diffs j = misses ++ [(nonce, .diff)] ∧ (∀ r ∈ misses, r.2 ≠ .diff) ∧
      ((Run.run Jobs.apply j (testOps idx misses)).test idx nonce).2 = .diff := by
  induction diffs generalizing j with
  | nil => cases h
  | cons diff diffs ih =>
    by_cases hd : (j.test idx (base + BitVec.ofInt 32 diff)).2 = .diff
    · rw [tries_hit diffs hd] at h ⊢
      have hnonce : base + BitVec.ofInt 32 diff = nonce := Option.some.inj h
      rw [← hnonce]
      exact ⟨[], rfl, fun r hr => (List.not_mem_nil hr).elim, hd⟩
    · rw [tries_miss diffs hd, firstDiff_miss hd] at h
      obtain ⟨misses, htries, hmiss, htest⟩ := ih _ h
      refine ⟨(base + BitVec.ofInt 32 diff, (j.test idx (base + BitVec.ofInt 32 diff)).2) :: misses,
        ?_, ?_, ?_⟩
      · rw [tries_miss diffs hd, htries, List.cons_append]
      · intro r hr
        rcases List.mem_cons.mp hr with rfl | hr
        · exact hd
        · exact hmiss r hr
      · rw [testOps, List.map_cons, Run.run_cons, apply_test]
        exact htest

theorem tests_works (idx : ℕ) (rs : List (Word × NonceCheck)) (j : Jobs) :
    (Run.run Jobs.apply j (testOps idx rs)).works =
      Run.run (call (slotAddr (j.minerStatus idx).mmIdx)) j.works
        (rs.map fun r => .test (j.minerStatus idx).nonce2 r.1) := by
  induction rs generalizing j with
  | nil => rfl
  | cons r rs ih =>
    have hstatus : (j.test idx r.1).1.minerStatus = j.minerStatus := by
      rw [test_note, note_minerStatus]
    have hworks : (j.test idx r.1).1.works =
        call (slotAddr (j.minerStatus idx).mmIdx) j.works
          (.test (j.minerStatus idx).nonce2 r.1) := by
      rw [test_note, note_works]
      rfl
    rw [testOps, List.map_cons, Run.run_cons, apply_test, ← testOps, ih, hstatus, hworks,
      List.map_cons, Run.run_cons]

theorem tests_again (idx : ℕ) (rs : List (Word × NonceCheck)) (j : Jobs)
    (h : InRange j.works (slotAddr (j.minerStatus idx).mmIdx)) (nonce : Word) :
    ((Run.run Jobs.apply j (testOps idx rs)).test idx nonce).2 = (j.test idx nonce).2 := by
  obtain ⟨_, _, _, hstatus⟩ := ResultRing.tests_keep idx rs j
  rw [test_check, test_check, hstatus, tests_works, calls_test _ _ h]

/-! ### What the status of a chip says -/

/-- What `be200_send_work` recorded for a chip at its last work, the initial status without one. -/
def recorded (hist : List Obs) (idx : ℕ) : ChipStatus :=
  (lastWork hist idx).elim ⟨0, 0⟩ fun w => ⟨w.nonce2, w.mmIdx⟩

def Recorded (j : Jobs) : Prop := ∀ idx, j.minerStatus idx = recorded j.hist idx

theorem apply_recorded (j : Jobs) (op : JobOp) (h : Recorded j) : Recorded (j.apply op) := by
  intro idx
  by_cases hop : ∃ i, op = .dispatch i
  · obtain ⟨i, rfl⟩ := hop
    rw [apply_hist, Jobs.obs, Option.toList_some, List.singleton_append, recorded, lastWork,
      apply_dispatch, genWork_note]
    by_cases hi : i = idx
    · rw [if_pos hi, Option.elim_some]
      exact if_pos hi.symm
    · rw [if_neg hi]
      exact (if_neg fun he => hi he.symm).trans (h idx)
  · have hnot : ∀ i, op ≠ .dispatch i := fun i hi => hop ⟨i, hi⟩
    rw [recorded, lastWork_keep j op hnot, apply_status j op hnot]
    exact h idx

theorem run_recorded (b : Board σ) (env : σ) (es : List Event) :
    Recorded (Run.run (step b) (start b env) es).jobs := by
  refine Run.run_invariant_all (step b) (fun s => Recorded s.jobs)
    (fun s e hs => ?_) _ es fun idx => rfl
  obtain ⟨ops, _, hrun⟩ := step_ops b s e
  rw [hrun]
  exact Run.run_invariant_all Jobs.apply Recorded apply_recorded s.jobs ops hs

theorem turns_jobs {P : Jobs → Prop} (hP : ∀ j op, P j → P (j.apply op)) (st : Scan σ) (is : List ℕ)
    (h : P st.fw.jobs) (t : Turn b) (ht : t ∈ turnsFrom b st is) : P t.scan.fw.jobs := by
  induction is generalizing st with
  | nil => cases ht
  | cons idx is ih =>
    rw [turnsFrom, List.mem_append] at ht
    rcases ht with ht | ht
    · cases hdone : (be200GetDone b st.fw.dev idx).2 with
      | none =>
        rw [turnAt_none hdone] at ht
        cases ht
      | some mask =>
        rw [turnAt_some hdone, Option.toList_some, List.mem_singleton] at ht
        rw [ht]
        exact h
    · obtain ⟨ops, _, hrun⟩ := resultChip_ops b st idx
      refine ih _ ?_ ht
      rw [hrun]
      exact Run.run_invariant_all Jobs.apply P hP st.fw.jobs ops h

/-! ### A sound entry -/

def status (t : Turn b) : ChipStatus := t.scan.fw.jobs.minerStatus t.chip

/-- `test_nonce` on the slot and the nonce2 of the status, as the turn begins. -/
def check (t : Turn b) (nonce : Word) : NonceCheck :=
  (testNonce t.scan.fw.jobs.works (slotAddr (status t).mmIdx) (status t).nonce2 nonce).2

def SlotInRange (t : Turn b) : Prop := InRange t.scan.fw.jobs.works (slotAddr (status t).mmIdx)

/-- What is known of an entry with `nonce` that the turn puts into the ring. -/
structure Sound (t : Turn b) (nonce : Word) : Prop where
  entry : t.after.fw.jobs.resultBuff t.tested.retProduce =
    ⟨(status t).nonce2, nonce, t.chip, (status t).mmIdx⟩
  /-- The call it is put in on; nothing is done between it and the push. -/
  verified : ∃ j : Jobs, j.minerStatus t.chip = status t ∧ (j.test t.chip nonce).2 = .diff ∧
    t.tested = (j.test t.chip nonce).1
  recorded : status t = recorded t.scan.fw.jobs.hist t.chip
  /-- The calls of the turn: the candidates before `nonce` in their order, none of them
  NONCE_DIFF. -/
  first : ∀ v ∈ t.readOut.2, ∃ misses, t.tests = misses ++ [(nonce, .diff)] ∧
    (∀ r ∈ misses, r.2 ≠ .diff) ∧
    misses.map Prod.fst ++ [nonce] <+: candidates v
  again : SlotInRange t → (t.tested.test t.chip nonce).2 = .diff
  firstOf : SlotInRange t →
    ∀ v ∈ t.readOut.2, (candidates v).find? (fun n => check t n = .diff) = some nonce

section turn
variable (t : Turn b)

theorem jobs_status : t.jobs.minerStatus t.chip = status t := by
  rw [Turn.jobs, Jobs.noteReady, note_minerStatus, status]

theorem jobs_works : t.jobs.works = t.scan.fw.jobs.works := by
  rw [Turn.jobs, Jobs.noteReady, note_works]

theorem tested_status : t.tested.minerStatus t.chip = status t := by
  obtain ⟨_, _, _, hstatus⟩ := ResultRing.tests_keep t.chip t.tests t.jobs
  rw [Turn.tested, hstatus, jobs_status]

theorem jobs_check (nonce : Word) : (t.jobs.test t.chip nonce).2 = check t nonce := by
  rw [test_check, jobs_status, jobs_works, check]

variable {t}

theorem tests_check (h : SlotInRange t) (r : Word × NonceCheck) (hr : r ∈ t.tests) :
    r.2 = check t r.1 := by
  have hrange : InRange t.jobs.works (slotAddr (t.jobs.minerStatus t.chip).mmIdx) := by
    rw [jobs_works, jobs_status]
    exact h
  rw [Accounting.tries_job t.chip t.base diffNonce t.jobs hrange r hr, ← jobs_check, test_check,
    testNonce_job _ _ hrange]

theorem tests_found {nonce : Word} (h : t.verified = some nonce) :
    ∃ misses, t.tests = misses ++ [(nonce, .diff)] ∧ (∀ r ∈ misses, r.2 ≠ .diff) ∧
      ((Run.run Jobs.apply t.jobs (testOps t.chip misses)).test t.chip nonce).2 = .diff :=
  tries_found t.chip t.base diffNonce t.jobs nonce h

theorem push_sound {nonce : Word} (h : t.verified = some nonce) (hrec : Recorded t.scan.fw.jobs) :
    Sound t nonce := by
  obtain ⟨misses, htests, hmiss, htest⟩ := tests_found h
  have hstatus :
      (Run.run Jobs.apply t.jobs (testOps t.chip misses)).minerStatus t.chip = status t := by
    obtain ⟨_, _, _, hkeep⟩ := ResultRing.tests_keep t.chip misses t.jobs
    rw [hkeep, jobs_status]
  have hprefix (v : Word) (hv : v ∈ t.readOut.2) : misses.map Prod.fst ++ [nonce] <+:
      candidates v := by
    have hbase : t.base = v := by
      rw [Turn.base, show t.readOut.2 = some v from hv, Option.getD_some]
    have htries := tries_prefix t.chip t.base diffNonce t.jobs
    rw [← Turn.tests, htests, List.map_append, hbase] at htries
    exact htries
  constructor
  case entry =>
    rw [t.after_jobs, h, Option.elim_some, Jobs.push, tested_status]
    exact if_pos rfl
  case verified =>
    refine ⟨_, hstatus, htest, ?_⟩
    rw [Turn.tested, htests, testOps, List.map_append, Run.run_append, List.map_singleton,
      Run.run_cons, Run.run_nil, apply_test, testOps]
  case recorded => exact hrec t.chip
  case first => exact fun v hv => ⟨misses, htests, hmiss, hprefix v hv⟩
  case again =>
    intro hrange
    have hlast : NonceCheck.diff = check t nonce :=
      tests_check hrange (nonce, .diff)
        (htests ▸ List.mem_append_right _ (List.mem_singleton_self _))
    have hrange' : InRange t.jobs.works (slotAddr (t.jobs.minerStatus t.chip).mmIdx) := by
      rw [jobs_works, jobs_status]
      exact hrange
    rw [Turn.tested, tests_again t.chip t.tests t.jobs hrange', jobs_check, hlast]
  case firstOf =>
    intro hrange v hv
    have hlast : NonceCheck.diff = check t nonce :=
      tests_check hrange (nonce, .diff)
        (htests ▸ List.mem_append_right _ (List.mem_singleton_self _))
    obtain ⟨rest, hrest⟩ := hprefix v hv
    have hnone : (misses.map Prod.fst).find? (fun n => check t n = .diff) = none := by
      rw [List.find?_eq_none]
      intro n hn
      obtain ⟨r, hr, rfl⟩ := List.mem_map.mp hn
      have hcheck := tests_check hrange r (htests ▸ List.mem_append_left _ hr)
      rw [← hcheck, decide_eq_true_iff]
      exact hmiss r hr
    rw [← hrest, List.append_assoc, List.find?_append, hnone, Option.none_or, List.singleton_append,
      List.find?_cons_of_pos (by rw [← hlast]; rfl)]

end turn

/-- **In every run each turn of a result pass puts nothing into the ring or one sound entry.** -/
theorem pushes_sound (b : Board σ) (env : σ) (es : List Event) (t : Turn b)
    (ht : t ∈ passTurns b (Run.run (step b) (start b env) es)) :
    t.after.fw.jobs = t.tested ∨ ∃ nonce, t.after.fw.jobs = t.tested.push t.chip nonce ∧
      Sound t nonce := by
  have hrec := turns_jobs apply_recorded _ _ (run_recorded b env es) t ht
  have hafter := t.after_jobs
  cases h : t.verified with
  | none =>
    rw [h, Option.elim_none] at hafter
    exact Or.inl hafter
  | some nonce =>
    rw [h, Option.elim_some] at hafter
    exact Or.inr ⟨nonce, hafter, push_sound h hrec⟩

/-! ### A chip that was given no work -/

open Sample FullTest ResultRing Accounting

def minedTurn : Turn belowBoard := ⟨0, passStart belowBoard (sampled easyTarget), 1, first_ready _⟩

theorem pushes_sound_mined : minedTurn.after.fw.jobs = minedTurn.tested ∨
    ∃ nonce, minedTurn.after.fw.jobs = minedTurn.tested.push 0 nonce ∧ Sound minedTurn nonce :=
  pushes_sound belowBoard () (jobRun easyTarget) minedTurn <| by
    rw [show Run.run (step belowBoard) (start belowBoard ()) (jobRun easyTarget) =
      sampled easyTarget from rfl, first_turn]
    exact List.mem_singleton_self _

/-- Chip 0 is never idle and flags the sample nonce; the timers run. -/
def waitingChip (idx : ℕ) : Byte := if idx = 0 then 6 else 0

def strayBoard : Board Unit :=
  {foundBoard waitingChip nonceBytes with readl := fun _ _ => ((), 0xffffffff)}

/-- Two SETs make slot 2 current, so the job comes to slot 0, with the nonce2 offset that leads to
itself. -/
def strayPackets : List Pkg :=
  [setPkg [500, 280, 0, 0], setPkg [500, 280, 0, 0], staticPkg [204, 0x804, 4, 36, 0, 1, 1]] ++
    (jobPackets easyTarget).tail

def strayRun : List Event :=
  (.loopHead :: strayPackets.map .pkg) ++ .loopCheck :: (List.range chipNumber).map .dispatch

def strayed : Fw Unit := Run.run (step strayBoard) (start strayBoard ()) strayRun

def received : Fw Unit :=
  Run.run (step strayBoard) (start strayBoard ()) (.loopHead :: strayPackets.map .pkg)

theorem stray_idle (d : Dev Unit) (idx : ℕ) : (be200IsIdle strayBoard d idx).2 = false := by
  have hstatus : (be200IsIdle strayBoard d idx).2 = (waitingChip idx &&& be200StatWAllow != 0) :=
    rfl
  rw [hstatus, waitingChip]
  split <;> decide

theorem strayed_jobs : strayed.jobs = received.jobs := by
  have hdispatch (is : List ℕ) (s : Fw Unit) :
      (Run.run (step strayBoard) s (is.map .dispatch)).jobs = s.jobs := by
    induction is generalizing s with
    | nil => rfl
    | cons i is ih =>
      rw [List.map_cons, Run.run_cons, ih, step, dispatch_jobs, stray_idle]
      rfl
  have hcheck (s : Fw Unit) : (step strayBoard s .loopCheck).jobs = s.jobs := by
    have htimer : (timerRead strayBoard (checkTemp strayBoard s).dev 0).2 ≠ 0 := by
      have hread : (timerRead strayBoard (checkTemp strayBoard s).dev 0).2 =
          ((0xffffffff : Word) >>> 2) &&& 0x3f := rfl
      rw [hread]
      decide
    simp only [step, checkIdle, htimer, false_and, if_false, checkTemp_jobs]
  rw [strayed, strayRun, Run.run_append, Run.run_cons, hdispatch, hcheck, received]

theorem received_slot : received.jobs.minerStatus 0 = ⟨0, 0⟩ ∧ received.jobs.hist.length = 0 ∧
    nonce2Offset received.jobs.works 0 = 0x804 ∧ coinbaseLen received.jobs.works 0 = 204 ∧
    nmerkles received.jobs.works 0 = 0 ∧ merkleOffset received.jobs.works 0 = 36 ∧
    read received.jobs.works 8 204 = ofWords sampleCoinbase ∧
    read received.jobs.works 2716 128 = ofWords sampleHeader ∧
    read received.jobs.works 2852 32 = easyTarget := by
  decide +kernel

/-- The job its first test leaves in slot 0: its nonce2 goes over the coinbase's version. -/
def movedJob : JobData :=
  { sampleJob easyTarget with
    nonce2Offset := 0
    coinbase := splice (ofWords sampleCoinbase) 0 (List.replicate 4 0) }

def movedWorks : Mem Byte := (testNonce received.jobs.works 0 0 sampleNonce).1

theorem testNonce_works (m : Mem Byte) (mw : ℤ) (nonce2 nonce : Word) :
    (testNonce m mw nonce2 nonce).1 = (minerGenNonce2Work m mw nonce2).1 := rfl

theorem moved_slot : InRange movedWorks 0 ∧ jobAt movedWorks 0 = movedJob := by decide +kernel

theorem moved_check : jobCheck movedJob 0 sampleNonce ≠ .diff := by decide +kernel

theorem stored_diff (m m1 : Mem Byte) (hstore : storeNonce2 m 0 0 = m1)
    (hlen : coinbaseLen m1 0 = 204) (hnmerkles : nmerkles m1 0 = 0) (hoff : merkleOffset m1 0 = 36)
    (hcoinbase : read m1 8 204 = ofWords sampleCoinbase)
    (hheader : read m1 2716 128 = ofWords sampleHeader) (htarget : read m1 2852 32 = easyTarget) :
    (testNonce m 0 0 sampleNonce).2 = .diff := by
  have hroot : merkleRoot m1 0 = Sha256.dsha256 (ofWords sampleCoinbase) := by
    have hhash := ShaDriver.dsha256_eq (ofWords sampleCoinbase) (by decide +kernel)
    rw [merkleRoot, hlen, hnmerkles]
    exact (congrArg (ShaDriver.dsha256 · 204) hcoinbase).trans hhash
  have hflip : (flip32 (merkleRoot m1 0)).length = 32 := flipWords_length 8 _
  have hstored : storeRoot m1 0 (flip32 (merkleRoot m1 0)) =
      write m1 (2716 + 36) (flip32 (merkleRoot m1 0)) := by
    rw [storeRoot, hoff]
    rfl
  have hheader1 : (minerGenNonce2Work m 0 0).2.header = ((sampleJob []).work 0).header := by
    have hread :=
      read_write_inside m1 2716 (2716 + 36) 128 (flip32 (merkleRoot m1 0)) (by decide)
        (by rw [hflip]; decide)
    have hsplice : splice (ofWords sampleCoinbase) 5 (wordBytes 0).reverse =
        ofWords sampleCoinbase := by
      decide +kernel
    have hwork : ((sampleJob []).work 0).header = splice (ofWords sampleHeader) 36
        (flip32 (Sha256.dsha256 (splice (ofWords sampleCoinbase) 5 (wordBytes 0).reverse))) := rfl
    rw [hwork, hsplice, ← hroot, ← hheader, minerGenNonce2Work, hstore, hstored]
    exact hread
  have hhash : testHash m 0 0 sampleNonce = sampleHash := by
    have hswap : swapBuffer (minerGenNonce2Work m 0 0).2 sampleNonce =
        swapBuffer ((sampleJob []).work 0) sampleNonce := by
      rw [swapBuffer, swapBuffer, hheader1]
    have hlen80 : (swapBuffer ((sampleJob []).work 0) sampleNonce).length = 80 :=
      flipWords_length 20 _
    have heq := ShaDriver.dsha256_eq (swapBuffer ((sampleJob []).work 0) sampleNonce) (by omega)
    rw [hlen80] at heq
    rw [testHash, hswap, heq, sampleHash]
  have htarget1 : testTarget m 0 0 = easyTarget := by
    have hread :=
      read_write_out m1 2852 (2716 + 36) 32 (flip32 (merkleRoot m1 0))
        (Or.inr (by rw [hflip]; decide))
    rw [testTarget, minerGenNonce2Work, hstore, hstored, ← htarget]
    exact hread
  rw [testNonce_eq, hhash, htarget1, sampleHash_eq]
  decide

/-- The slot is hashed as it was sent: the test stores nonce2 over the offset itself. -/
theorem stray_diff : (testNonce received.jobs.works 0 0 sampleNonce).2 = .diff := by
  obtain ⟨_, _, hoffset, hlen, hnmerkles, hmerkle, hcoinbase, hheader, htarget⟩ := received_slot
  have hstore : storeNonce2 received.jobs.works 0 0 =
      write received.jobs.works 2060 (wordBytes (bswap32 0)) := by
    rw [storeNonce2, hoffset]
    rfl
  have hword (f : Field) (hf : f.off + 4 ≤ 2060 ∨ 2064 ≤ f.off) :
      loadWord (write received.jobs.works 2060 (wordBytes (bswap32 0))) (0 + f.off) =
        loadWord received.jobs.works (0 + f.off) :=
    loadWord_write_out _ _ _ _ (by rw [wordBytes_length]; omega)
  have hread (a : ℤ) (n : ℕ) (hout : a + n ≤ 2060 ∨ 2064 ≤ a) :
      read (write received.jobs.works 2060 (wordBytes (bswap32 0))) a n =
        read received.jobs.works a n :=
    read_write_out _ _ _ _ _ (by rw [wordBytes_length]; omega)
  exact stored_diff _ _ hstore ((hword .coinbaseLen (by decide)).trans hlen)
    ((hword .nmerkles (by decide)).trans hnmerkles)
    ((hword .merkleOffset (by decide)).trans hmerkle)
    ((hread 8 204 (by decide)).trans hcoinbase) ((hread 2716 128 (by decide)).trans hheader)
    ((hread 2852 32 (by decide)).trans htarget)

def strayTurn : Turn strayBoard := ⟨0, passStart strayBoard strayed, 1, rfl⟩

theorem strayTurn_mem : strayTurn ∈ passTurns strayBoard strayed := by
  have hready : (be200GetDone strayBoard (passStart strayBoard strayed).fw.dev 0).2 = some 1 := rfl
  rw [passTurns, chipNumber, List.range_succ_eq_map, turnsFrom, turnAt_some hready]
  exact List.mem_append_left _ (List.mem_singleton_self _)

theorem stray_status :
    strayTurn.jobs.minerStatus 0 = ⟨0, 0⟩ ∧ strayTurn.jobs.works = received.jobs.works := by
  have hjobs : strayTurn.scan.fw.jobs = received.jobs := strayed_jobs
  rw [Turn.jobs, Jobs.noteReady, note_minerStatus, note_works, hjobs]
  exact ⟨received_slot.1, rfl⟩

theorem stray_chip : strayTurn.chip = 0 := rfl

theorem stray_base : strayTurn.base = sampleNonce := by
  have hread : strayTurn.readOut.2 =
      some (nonceValue (nonceBytes 0) (nonceBytes 1) (nonceBytes 2) (nonceBytes 3)) := rfl
  rw [Turn.base, hread, Option.getD_some]
  decide

theorem stray_tests : strayTurn.tests = [(sampleNonce, .diff)] := by
  obtain ⟨hstatus, hworks⟩ := stray_status
  have hcheck : (strayTurn.jobs.test 0 (sampleNonce + BitVec.ofInt 32 0)).2 = .diff := by
    rw [test_check, hstatus, hworks, NonceRead.first_candidate]
    exact stray_diff
  have htests : strayTurn.tests = tries 0 strayTurn.base diffNonce strayTurn.jobs := rfl
  rw [htests, stray_base, diffNonce, tries_hit _ hcheck, NonceRead.first_candidate]

theorem stray_tested : strayTurn.tested = (strayTurn.jobs.test 0 sampleNonce).1 := by
  rw [Turn.tested, stray_tests, testOps, List.map_singleton, Run.run_cons, Run.run_nil,
    apply_test, stray_chip]

/-- The chip had no work, its nonce is put into the ring on slot 0 and nonce2 0, and the test that
let it in does not pass again. -/
theorem stray_push :
    strayTurn ∈ passTurns strayBoard (Run.run (step strayBoard) (start strayBoard ()) strayRun) ∧
    strayTurn.after.fw.jobs = strayTurn.tested.push 0 sampleNonce ∧
    lastWork strayTurn.scan.fw.jobs.hist 0 = none ∧
    (strayTurn.tested.test 0 sampleNonce).2 ≠ .diff := by
  obtain ⟨hstatus, hworks⟩ := stray_status
  refine ⟨strayTurn_mem, ?_, ?_, ?_⟩
  · have hverified : strayTurn.verified = some sampleNonce := by
      rw [Turn.verified, stray_tests]
      rfl
    rw [strayTurn.after_jobs, hverified, Option.elim_some, stray_chip]
  · have hjobs : strayTurn.scan.fw.jobs = received.jobs := strayed_jobs
    rw [hjobs, List.eq_nil_of_length_eq_zero received_slot.2.1]
    rfl
  · have hstatus' : strayTurn.tested.minerStatus 0 = ⟨0, 0⟩ := by
      rw [stray_tested, test_note, note_minerStatus, hstatus]
    have hslot : slotAddr 0 = 0 := rfl
    have hworks' : strayTurn.tested.works = movedWorks := by
      rw [stray_tested, test_note, note_works, hstatus, hworks, hslot, movedWorks, testNonce_works]
    obtain ⟨hrange, hjob⟩ := moved_slot
    rw [test_check, hstatus', hworks', hslot, testNonce_job _ _ hrange, hjob]
    exact moved_check

end HashRatio.Soundness
