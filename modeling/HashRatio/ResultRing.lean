import HashRatio.Accounting
import HashRatio.FrameCodec
import HashRatio.GetPkg
import HashRatio.Lib.Queue
import HashRatio.Lib.Ring
import HashRatio.NonceRead

/-!
# From the nonces found to the nonces reported

The verified nonces of the result passes go through a ring of 64 places to the
polls of the host. Nothing checks for room: the queue is first in, first out as
long as each pass leaves at least one place free.
-/

namespace HashRatio.ResultRing
open Bytes Memory MmWork Miner Protocol Drivers State Packets Results MainLoop Pass GetPkg Queue

variable {σ : Type} {b : Board σ}

-- no simp set is to evaluate a test
attribute [local irreducible] Jobs.test

/-! ### What is seen of the ring -/

/-- What a NONCE packet says of a nonce. -/
structure Report where
  idx : Word
  nonce2 : Word
  nonce : Word

def report (data : Be200Result) : Report := ⟨BitVec.ofNat 32 data.idx, data.nonce2, data.nonce⟩

def frameReport (p : Pkg) : Report := ⟨dataWord p 0, dataWord p 2, dataWord p 3⟩

def result (t : Turn b) : Option Be200Result :=
  let c := t.scan.fw.jobs.minerStatus t.chip
  t.verified.map fun nonce => ⟨c.nonce2, nonce, t.chip, c.mmIdx⟩

/-- The verified nonces of a pass, in the order found. -/
def found (b : Board σ) (s : Fw σ) : List Be200Result := (passTurns b s).filterMap result

def IsPoll (p : Pkg) : Prop := CrcOk p ∧ pkgType p = some .polling

instance (p : Pkg) : Decidable (IsPoll p) := inferInstanceAs (Decidable (_ ∧ _))

def IdleReset (b : Board σ) (s : Fw σ) : Prop :=
  (timerRead b (checkTemp b s).dev 0).2 = 0 ∧ (checkTemp b s).newStratum = true

instance (b : Board σ) (s : Fw σ) : Decidable (IdleReset b s) := inferInstanceAs (Decidable (_ ∧ _))

def input (b : Board σ) (s : Fw σ) : Event → List (Act Report)
  | .pkg p => if IsPoll p then [.poll] else []
  | .readResult => ((found b s).map report).map .put
  | .loopCheck => if IdleReset b s then [.reset] else []
  | _ => []

/-- A frame sent. STATUS speaks of the ring when it is the reply to a poll. -/
def output (e : Event) (q : Pkg) : Option (Act Report) :=
  match pkgType q, e with
  | some .nonce, _ => some (.give (frameReport q))
  | some .status, .pkg p => if IsPoll p then some .empty else none
  | _, _ => none

def sent (b : Board σ) (s : Fw σ) (e : Event) : List Pkg :=
  (framesOf (step b s e).tx).drop (framesOf s.tx).length

def acts (b : Board σ) (s : Fw σ) (e : Event) : List (Act Report) :=
  input b s e ++ (sent b s e).filterMap (output e)

def runActs (b : Board σ) : Fw σ → List Event → List (Act Report) := trace (step b) (acts b)

theorem output_nonce {q : Pkg} (e : Event) (h : pkgType q = some .nonce) :
    output e q = some (.give (frameReport q)) := by
  simp only [output, h]

theorem output_status {q : Pkg} (p : Pkg) (h : pkgType q = some .status) :
    output (.pkg p) q = if IsPoll p then some .empty else none := by
  simp only [output, h]

theorem output_other {q : Pkg} (e : Event) (h1 : pkgType q ≠ some .nonce)
    (h2 : pkgType q ≠ some .status) :
    output e q = none := by
  unfold output
  split
  · rename_i hn
    exact absurd hn h1
  · rename_i hs
    exact absurd hs h2
  · rfl

/-! ### The ring -/

def Waiting (j : Jobs) (q : List Be200Result) : Prop :=
  Ring.Holds 64 j.resultBuff j.retProduce j.retConsume q

theorem waiting_init : Waiting Jobs.init [] := Ring.holds_nil _ (by decide)

theorem waiting_congr {j j' : Jobs} {q : List Be200Result} (hbuff : j'.resultBuff = j.resultBuff)
    (hproduce : j'.retProduce = j.retProduce) (hconsume : j'.retConsume = j.retConsume)
    (h : Waiting j q) :
    Waiting j' q := by
  rw [Waiting, hbuff, hproduce, hconsume]
  exact h

theorem pop_nil {j : Jobs} (h : Waiting j []) : j.pop = none := if_pos (h.empty_iff.mpr rfl)

theorem pop_cons {j : Jobs} {x : Be200Result} {q : List Be200Result} (h : Waiting j (x :: q)) :
    ∃ j', j.pop = some (j', x) ∧ Waiting j' q := by
  have hne : j.retConsume ≠ j.retProduce := fun he => by cases h.empty_iff.mp he
  obtain ⟨hx, htake⟩ := h.take
  rw [← ringNext_eq] at htake
  refine ⟨_, by rw [Jobs.pop, if_neg hne, hx], ?_⟩
  exact htake

/-! ### A pass -/

/-- Tests leave the ring and what the chips work on alone. -/
theorem tests_keep (idx : ℕ) (rs : List (Word × NonceCheck)) (j : Jobs) :
    (Run.run Jobs.apply j (testOps idx rs)).resultBuff = j.resultBuff ∧
      (Run.run Jobs.apply j (testOps idx rs)).retProduce = j.retProduce ∧
      (Run.run Jobs.apply j (testOps idx rs)).retConsume = j.retConsume ∧
      (Run.run Jobs.apply j (testOps idx rs)).minerStatus = j.minerStatus := by
  induction rs generalizing j with
  | nil => exact ⟨rfl, rfl, rfl, rfl⟩
  | cons r rs ih =>
    have hrest := ih (j.apply (.test idx r.1))
    rw [apply_test, test_note, note_resultBuff, note_retProduce, note_retConsume,
      note_minerStatus, ← test_note, ← apply_test] at hrest
    exact hrest

theorem push_retConsume (j : Jobs) (idx : ℕ) (nonce : Word) :
    (j.push idx nonce).retConsume = j.retConsume := rfl

theorem push_ring (j : Jobs) (idx : ℕ) (nonce : Word) :
    ((j.push idx nonce).resultBuff, (j.push idx nonce).retProduce) =
      Ring.putAt 64 (j.resultBuff, j.retProduce)
        ⟨(j.minerStatus idx).nonce2, nonce, idx, (j.minerStatus idx).mmIdx⟩ := by
  rw [Ring.putAt, ← ringNext_eq]
  rfl

def putTurn (r : (ℕ → Be200Result) × ℕ) (t : Turn b) : (ℕ → Be200Result) × ℕ :=
  (result t).elim r (Ring.putAt 64 r)

theorem after_ring (t : Turn b) : (t.after.fw.jobs.resultBuff, t.after.fw.jobs.retProduce) =
    putTurn (t.scan.fw.jobs.resultBuff, t.scan.fw.jobs.retProduce) t := by
  obtain ⟨hbuff, hproduce, _, hstatus⟩ := tests_keep t.chip t.tests t.jobs
  rw [t.after_jobs, putTurn, result]
  cases t.verified with
  | none =>
    rw [Option.elim_none, Option.map_none, Option.elim_none, Turn.tested, hbuff, hproduce,
      Turn.jobs, Jobs.noteReady, note_resultBuff, note_retProduce]
  | some nonce =>
    rw [Option.elim_some, Option.map_some, Option.elim_some, push_ring, Turn.tested, hbuff,
      hproduce, hstatus, Turn.jobs, Jobs.noteReady, note_resultBuff,
        note_retProduce, note_minerStatus]

theorem tested_retConsume (t : Turn b) : t.tested.retConsume = t.scan.fw.jobs.retConsume := by
  obtain ⟨_, _, hconsume, _⟩ := tests_keep t.chip t.tests t.jobs
  rw [Turn.tested, hconsume, Turn.jobs, Jobs.noteReady, note_retConsume]

theorem after_retConsume (t : Turn b) : t.after.fw.jobs.retConsume = t.scan.fw.jobs.retConsume := by
  have htested := tested_retConsume t
  have hafter := t.after_jobs
  generalize t.tested = j at *
  generalize t.verified = o at *
  rw [hafter, ← htested]
  cases o with
  | none => rw [Option.elim_none]
  | some nonce => rw [Option.elim_some, push_retConsume]

theorem putTurns (ts : List (Turn b)) (r : (ℕ → Be200Result) × ℕ) :
    ts.foldl putTurn r = (ts.filterMap result).foldl (Ring.putAt 64) r := by
  induction ts generalizing r with
  | nil => rfl
  | cons t ts ih =>
    rw [List.foldl_cons, ih, putTurn, List.filterMap_cons]
    cases result t <;> rfl

theorem pass_waiting (s : Fw σ) (q : List Be200Result) (hroom : q.length + (found b s).length < 64)
    (h : Waiting s.jobs q) : Waiting (be200ReadResult b s).jobs (q ++ found b s) := by
  have hring := pass_fold (b := b)
    (fun st => (st.fw.jobs.resultBuff, st.fw.jobs.retProduce)) putTurn
    (fun st idx hskip => by rw [skip_eq hskip]) after_ring (passStart b s) (List.range chipNumber)
  have hconsume := pass_fold (b := b) (fun st => st.fw.jobs.retConsume) (fun a _ => a)
    (fun st idx hskip => by rw [skip_eq hskip]) after_retConsume (passStart b s)
    (List.range chipNumber)
  have hend : ((be200ReadResult b s).jobs.resultBuff, (be200ReadResult b s).jobs.retProduce) =
      (found b s).foldl (Ring.putAt 64) (s.jobs.resultBuff, s.jobs.retProduce) := by
    rw [found, ← putTurns]
    exact hring
  have hkeep : (be200ReadResult b s).jobs.retConsume = s.jobs.retConsume := by
    rw [List.foldl_fixed] at hconsume
    exact hconsume
  have hputs := Ring.Holds.puts (r := (s.jobs.resultBuff, s.jobs.retProduce)) h (found b s) hroom
  rw [← hend, ← hkeep] at hputs
  exact hputs

/-! ### Steps -/

/-- The pass finds no more nonces than there are places left, one of them unused. -/
def Room (b : Board σ) (s : Fw σ) : Event → Prop
  | .readResult => (s.jobs.retProduce + 64 - s.jobs.retConsume) % 64 + (found b s).length < 64
  | _ => True

theorem sent_eq {s : Fw σ} {e : Event} {qs : List Pkg}
    (h : framesOf (step b s e).tx = framesOf s.tx ++ qs) :
    sent b s e = qs := by
  rw [sent, h, List.drop_left]

theorem sent_none (s : Fw σ) {e : Event} (he : ∀ p, e ≠ .pkg p) : sent b s e = [] :=
  sent_eq (by rw [step_tx b s e he, List.append_nil])

section nonceFrame
variable (b : Board σ) (s : Fw σ) (works : Mem Byte) (data : Be200Result)

theorem nonceData_data : pkgData (encodePkg b s PkgType.nonce.code (nonceData works data) 1 1).2 =
    ofWords [BitVec.ofNat 32 data.idx, poolNo works (slotAddr data.mmIdx),
      data.nonce2, data.nonce] ++
        (read works (slotAddr data.mmIdx + Field.jobId.off) 4 ++ List.replicate 12 0) := by
  rw [FrameCodec.encodePkg_data b s _ _ 1 1 (by simp [nonceData]), FrameCodec.padded,
    FrameCodec.payload, PkgType.ofByte_code]
  simp [nonceData, ofWords]

theorem nonceData_word (k : ℕ) (hk : k < 4) :
    dataWord (encodePkg b s PkgType.nonce.code (nonceData works data) 1 1).2 k =
      [BitVec.ofNat 32 data.idx, poolNo works (slotAddr data.mmIdx), data.nonce2,
        data.nonce].getD k 0 := by
  rw [dataWord, nonceData_data, wordAt_append_left _ _ _ (by simp; omega), wordAt_ofWords]

theorem nonceData_report :
    frameReport (encodePkg b s PkgType.nonce.code (nonceData works data) 1 1).2 = report data := by
  rw [frameReport, nonceData_word b s works data 0 (by omega),
    nonceData_word b s works data 2 (by omega),
    nonceData_word b s works data 3 (by omega)]
  rfl

end nonceFrame

theorem step_poll (s : Fw σ) (p : Pkg) (hp : IsPoll p) : step b s (.pkg p) = be200Polling b s := by
  simp only [step, handlePkg, decodePkg_accept b s p hp.1, Bool.false_eq_true, if_false]
  rw [reply_none b _ p (by rw [hp.2]; decide) (by rw [hp.2]; decide), acceptPkg, hp.2]

theorem poll_tells (s : Fw σ) (p : Pkg) (hp : IsPoll p) (hpop : s.jobs.pop = none) :
    (step b s (.pkg p)).jobs = s.jobs ∧ ∃ q, sent b s (.pkg p) = [q] ∧
      pkgType q = some .status := by
  have hpoll : step b s (.pkg p) =
      {sendPkg b s .status [] 1 1 with localWork := 0, hwWork := 0} := by
    rw [step_poll s p hp, be200Polling, hpop]
  obtain ⟨q, hq, htype⟩ := sendPkg_frames b s .status [] 1 1
  have hsent : sent b s (.pkg p) = [q] := sent_eq (by rw [hpoll]; exact hq)
  exact ⟨by rw [hpoll, sendPkg_jobs], q, hsent, htype⟩

theorem poll_empty (s : Fw σ) (p : Pkg) (hp : IsPoll p) (hpop : s.jobs.pop = none) :
    (step b s (.pkg p)).jobs = s.jobs ∧ acts b s (.pkg p) = [.poll, .empty] := by
  obtain ⟨hjobs, q, hsent, htype⟩ := poll_tells (b := b) s p hp hpop
  have hout : output (.pkg p) q = some .empty := by rw [output_status p htype, if_pos hp]
  refine ⟨hjobs, ?_⟩
  rw [acts, input, if_pos hp, hsent, List.filterMap_cons_some hout]
  rfl

theorem poll_sends (s : Fw σ) (p : Pkg) (hp : IsPoll p) {j : Jobs} {x : Be200Result}
    (hpop : s.jobs.pop = some (j, x)) :
    step b s (.pkg p) = sendPkg b {s with jobs := j} .nonce (nonceData s.jobs.works x) 1 1 ∧
      sent b s (.pkg p) =
        [(encodePkg b {s with jobs := j} PkgType.nonce.code (nonceData s.jobs.works x) 1 1).2] := by
  have hpoll : step b s (.pkg p) =
      sendPkg b {s with jobs := j} .nonce (nonceData s.jobs.works x) 1 1 := by
    rw [step_poll s p hp, be200Polling, hpop]
  exact ⟨hpoll, sent_eq (by rw [hpoll, sendPkg_tx, framesOf_append]; rfl)⟩

theorem poll_give (s : Fw σ) (p : Pkg) (hp : IsPoll p) {j : Jobs} {x : Be200Result}
    (hpop : s.jobs.pop = some (j, x)) :
    (step b s (.pkg p)).jobs = j ∧ acts b s (.pkg p) = [.poll, .give (report x)] := by
  obtain ⟨hpoll, hsent⟩ := poll_sends (b := b) s p hp hpop
  have hout :=
    output_nonce (.pkg p)
      (encodePkg_type b {s with jobs := j} .nonce (nonceData s.jobs.works x) 1 1)
  rw [nonceData_report] at hout
  constructor
  · rw [hpoll, sendPkg_jobs]
  · rw [acts, input, if_pos hp, hsent, List.filterMap_cons_some hout]
    rfl

/-- A poll is answered by the oldest waiting result, or by STATUS. -/
theorem poll_serves (s : Fw σ) (p : Pkg) (hp : IsPoll p) (q : List Be200Result)
    (h : Waiting s.jobs q) :
    ∃ q', Waiting (step b s (.pkg p)).jobs q' ∧
      Serves (q.map report) (acts b s (.pkg p)) (q'.map report) := by
  cases q with
  | nil =>
    obtain ⟨hjobs, hacts⟩ := poll_empty (b := b) s p hp (pop_nil h)
    rw [hjobs, hacts]
    exact ⟨[], h, .empty (.done [])⟩
  | cons x q =>
    obtain ⟨j, hpop, hwait⟩ := pop_cons h
    obtain ⟨hjobs, hacts⟩ := poll_give (b := b) s p hp hpop
    rw [hjobs, hacts]
    exact ⟨q, hwait, .give (.done _)⟩

/-- No other packet is answered by NONCE. -/
theorem sent_other (s : Fw σ) (p : Pkg) (hp : ¬IsPoll p) (q : Pkg) (hq : q ∈ sent b s (.pkg p)) :
    pkgType q ≠ some .nonce := by
  rcases handlePkg_frames b s p with ⟨hwant, f, hf, hreply⟩ | ⟨_, hf⟩
  · have hsent : sent b s (.pkg p) = [f] := sent_eq hf
    rw [hsent, List.mem_singleton] at hq
    rw [hq]
    intro hn
    unfold ReplyTo at hreply
    split at hreply
    · rw [hn] at hreply
      cases hreply
    · rename_i ht
      exact hp ⟨hwant.1, ht⟩
    · rw [hn] at hreply
      cases hreply
    · exact hreply
  · have hsent : sent b s (.pkg p) = [] := sent_eq (hf.trans (List.append_nil _).symm)
    rw [hsent] at hq
    cases hq

theorem pkg_acts (s : Fw σ) (p : Pkg) (hp : ¬IsPoll p) : acts b s (.pkg p) = [] := by
  rw [acts, input, if_neg hp, List.nil_append, List.filterMap_eq_nil_iff]
  intro q hq
  by_cases hs : pkgType q = some .status
  · rw [output_status p hs, if_neg hp]
  · exact output_other _ (sent_other s p hp q hq) hs

theorem pkg_waiting (s : Fw σ) (p : Pkg) (hp : ¬IsPoll p) (q : List Be200Result)
    (h : Waiting s.jobs q) :
    Waiting (step b s (.pkg p)).jobs q := by
  rw [step, handlePkg_jobs]
  split
  · rename_i hcrc
    unfold acceptOp
    split
    · exact waiting_congr rfl rfl rfl h
    · rename_i ht
      exact absurd ⟨hcrc, ht⟩ hp
    · exact waiting_congr rfl rfl rfl h
  · exact h

theorem own_acts (s : Fw σ) {e : Event} (he : ∀ p, e ≠ .pkg p) : acts b s e = input b s e := by
  rw [acts, sent_none s he, List.filterMap_nil, List.append_nil]

theorem dispatch_input (s : Fw σ) (idx : ℕ) : input b s (.dispatch idx) = [] := rfl

theorem step_serves (s : Fw σ) (e : Event) (q : List Be200Result) (hroom : Room b s e)
    (h : Waiting s.jobs q) :
    ∃ q', Waiting (step b s e).jobs q' ∧ Serves (q.map report) (acts b s e) (q'.map report) := by
  cases e with
  | pkg p =>
    by_cases hp : IsPoll p
    · exact poll_serves s p hp q h
    · rw [pkg_acts s p hp]
      exact ⟨q, pkg_waiting s p hp q h, .done _⟩
  | loopHead =>
    rw [own_acts s fun p => by simp]
    exact ⟨q, h, .done _⟩
  | loopCheck =>
    have hjobs : (step b s .loopCheck).jobs = if IdleReset b s then
        s.jobs.clearRing else s.jobs := by
      simp only [step, checkIdle, IdleReset, apply_ite Fw.jobs, checkTemp_jobs]
      rfl
    rw [own_acts s fun p => by simp, input, hjobs]
    by_cases hidle : IdleReset b s
    · rw [if_pos hidle, if_pos hidle]
      exact ⟨[], Ring.holds_nil _ (Nat.zero_lt_succ _), .reset (.done [])⟩
    · rw [if_neg hidle, if_neg hidle]
      exact ⟨q, h, .done _⟩
  | dispatch idx =>
    rw [own_acts s fun p => by simp, dispatch_input]
    refine ⟨q, ?_, .done _⟩
    rw [step, dispatch_jobs]
    split
    · rw [apply_dispatch, genWork_note]
      exact waiting_congr rfl rfl rfl h
    · exact h
  | readResult =>
    have hlen : (s.jobs.retProduce + 64 - s.jobs.retConsume) % 64 = q.length := h.length_eq
    refine ⟨q ++ found b s, pass_waiting s q (hlen ▸ hroom) h, ?_⟩
    rw [own_acts s fun p => by
      simp, input, ← List.append_nil (List.map Act.put _), serves_puts, List.map_append]
    exact .done _

/-- **Every verified nonce is reported once, in the order found**, in every run whose passes leave
room in the ring; a poll is answered by STATUS when no result waits. -/
theorem reported_once (b : Board σ) (env : σ) (es : List Event)
    (hes : Run.Meets (step b) (Room b) (start b env) es) :
    ∃ q, Waiting (Run.run (step b) (start b env) es).jobs q ∧
      Serves [] (runActs b (start b env) es) (q.map report) ∧
      (.reset ∉ runActs b (start b env) es →
        puts (runActs b (start b env) es) =
          gives (runActs b (start b env) es) ++ q.map report) := by
  have hstep (s : Fw σ) (e : Event) (q : List Report) (hroom : Room b s e)
      (hq : ∃ q', Waiting s.jobs q' ∧ q'.map report = q) :
      ∃ q', (∃ r, Waiting (step b s e).jobs r ∧ r.map report = q') ∧ Serves q (acts b s e) q' := by
    obtain ⟨q', hwait, rfl⟩ := hq
    obtain ⟨r, hr, hserves⟩ := step_serves s e q' hroom hwait
    exact ⟨r.map report, ⟨r, hr, rfl⟩, hserves⟩
  obtain ⟨_, ⟨q, hwait, rfl⟩, hserves⟩ :=
    run_serves hstep (start b env) es [] hes ⟨[], waiting_init, rfl⟩
  exact ⟨q, hwait, hserves, fun hreset => hserves.conserved hreset⟩

/-! ### A full ring -/

open Sample Generation Job FullTest Accounting

/-- Chip 0 has the first work of the sample job. -/
structure Mined (j : Jobs) : Prop where
  status : j.minerStatus 0 = ⟨0, 1⟩
  job : jobAt j.works (slotAddr 1) = sampleJob easyTarget
  inRange : InRange j.works (slotAddr 1)

theorem sample_diff : jobCheck (sampleJob easyTarget) 0 sampleNonce = .diff := by
  rw [sampleJob_check, sampleHash_eq]
  decide +kernel

theorem mined_test {j : Jobs} (h : Mined j) : (j.test 0 sampleNonce).2 = .diff := by
  rw [test_check, h.status, testNonce_job _ _ h.inRange, h.job, sample_diff]

theorem mined_ready {j : Jobs} (h : Mined j) (mask : Byte) : Mined (j.noteReady 0 mask) :=
  ⟨h.status, h.job, h.inRange⟩

theorem mined_push {j : Jobs} (h : Mined j) (nonce : Word) : Mined (j.push 0 nonce) :=
  ⟨h.status, h.job, h.inRange⟩

theorem mined_after {j : Jobs} (h : Mined j) : Mined (j.test 0 sampleNonce).1 := by
  have hsafe := h.inRange.safe
  have hsame : SameSlot j.works (j.test 0 sampleNonce).1.works (slotAddr 1) := by
    rw [test_note, note_works, h.status]
    exact call_same j.works _ hsafe (.gen _)
  refine ⟨?_, (jobAt_same hsafe hsame).trans h.job,
    (Slots.sameSizes_of_same hsafe hsame).inRange h.inRange⟩
  rw [test_note, note_minerStatus, h.status]

def sampleResult : Be200Result := ⟨0, sampleNonce, 0, 1⟩

theorem first_result (d : Dev Unit) : (be200GetResult belowBoard d 0 1).2 = some sampleNonce := by
  rw [belowBoard, foundBoard_result]
  decide

section turn
variable (t : Turn belowBoard) (hchip : t.chip = 0) (hmask : t.mask = 1) (h : Mined t.scan.fw.jobs)
include hchip hmask

theorem first_base : t.base = sampleNonce := by
  rw [Turn.base, Turn.readOut, hchip, hmask, first_result, Option.getD_some]

include h

theorem mined_tests : t.tests = [(sampleNonce, .diff)] := by
  have hjobs : Mined t.jobs := by
    rw [Turn.jobs, hchip]
    exact mined_ready h _
  have hcheck : (t.jobs.test 0 (sampleNonce + BitVec.ofInt 32 0)).2 = .diff := mined_test hjobs
  rw [Turn.tests, hchip, first_base t hchip hmask, diffNonce, tries_hit _ hcheck,
    NonceRead.first_candidate]

theorem mined_verified : t.verified = some sampleNonce := by
  rw [Turn.verified, mined_tests t hchip hmask h]
  rfl

theorem mined_tested : t.tested = (t.jobs.test 0 sampleNonce).1 := by
  rw [Turn.tested, mined_tests t hchip hmask h, testOps, List.map_singleton, hchip, Run.run_cons,
    Run.run_nil, apply_test]

theorem mined_result : result t = some sampleResult := by
  rw [result, mined_verified t hchip hmask h, hchip, h.status, Option.map_some]
  rfl

theorem mined_jobs : t.after.fw.jobs = (t.jobs.test 0 sampleNonce).1.push 0 sampleNonce := by
  rw [t.after_jobs, mined_verified t hchip hmask h, mined_tested t hchip hmask h,
    hchip, Option.elim_some]

end turn

theorem mined_pass (s : Fw Unit) (h : Mined s.jobs) : found belowBoard s = [sampleResult] ∧
    (be200ReadResult belowBoard s).jobs =
      ((s.jobs.noteReady 0 1).test 0 sampleNonce).1.push 0 sampleNonce := by
  have hfold := pass_fold (b := belowBoard) (fun st => st.fw.jobs) (fun _ t => t.after.fw.jobs)
    (fun st idx hskip => by rw [skip_eq hskip]) (fun _ => rfl) (passStart belowBoard s)
    (List.range chipNumber)
  constructor
  · rw [found, first_turn, List.filterMap_cons_some (mined_result _ rfl rfl h), List.filterMap_nil]
  · rw [← passTurns, first_turn, List.foldl_cons, List.foldl_nil, mined_jobs _ rfl rfl h] at hfold
    exact hfold

/-- Each of `n` passes finds the nonce and goes one place on. -/
theorem mined_passes (n : ℕ) (s : Fw Unit) (h : Mined s.jobs) (hlt : s.jobs.retProduce < 64) :
    (Run.run (step belowBoard) s (List.replicate n .readResult)).jobs.retConsume =
      s.jobs.retConsume ∧
      (Run.run (step belowBoard) s (List.replicate n .readResult)).jobs.retProduce =
        (s.jobs.retProduce + n) % 64 ∧
      runActs belowBoard s (List.replicate n .readResult) =
        List.replicate n (.put (report sampleResult)) := by
  induction n generalizing s with
  | zero => exact ⟨rfl, (Nat.mod_eq_of_lt hlt).symm, rfl⟩
  | succ n ih =>
    obtain ⟨hfound, hjobs⟩ := mined_pass s h
    have hmined : Mined (be200ReadResult belowBoard s).jobs := by
      rw [hjobs]
      exact mined_push (mined_after (mined_ready h 1)) sampleNonce
    have hproduce : (be200ReadResult belowBoard s).jobs.retProduce =
        (s.jobs.retProduce + 1) % 64 := by
      rw [hjobs, ← ringNext_eq]
      exact congrArg ringNext (by rw [test_note, note_retProduce, Jobs.noteReady, note_retProduce])
    have hconsume : (be200ReadResult belowBoard s).jobs.retConsume = s.jobs.retConsume := by
      rw [hjobs, push_retConsume, test_note, note_retConsume, Jobs.noteReady, note_retConsume]
    have hacts : acts belowBoard s .readResult = [.put (report sampleResult)] := by
      rw [own_acts s fun p => by simp, input, hfound]
      rfl
    obtain ⟨hc, hp, ha⟩ := ih (be200ReadResult belowBoard s) hmined (by rw [hproduce]; omega)
    rw [List.replicate_succ, List.replicate_succ, Run.run_cons, step]
    refine ⟨hc.trans hconsume, by rw [hp, hproduce]; omega, ?_⟩
    rw [runActs, trace, hacts, step]
    exact congrArg (List.cons _) ha

theorem sampled_jobs : ((sampled easyTarget).jobs.minerStatus 0 = ⟨0, 1⟩ ∧
    jobAt (sampled easyTarget).jobs.works (slotAddr 1) = sampleJob easyTarget ∧
    InRange (sampled easyTarget).jobs.works (slotAddr 1)) ∧
    (sampled easyTarget).jobs.retProduce = 0 ∧ (sampled easyTarget).jobs.retConsume = 0 := by
  decide +kernel

theorem mined_start : Mined (sampled easyTarget).jobs :=
  ⟨sampled_jobs.1.1, sampled_jobs.1.2.1, sampled_jobs.1.2.2⟩

theorem sampled_ring :
    (sampled easyTarget).jobs.retProduce = 0 ∧ (sampled easyTarget).jobs.retConsume = 0 :=
  sampled_jobs.2

theorem jobRun_acts (target : List Byte) (s : Fw σ) : runActs b s (jobRun target) = [] := by
  have hquiet (es : List Event) (hes : ∀ e ∈ es, (∃ p, e = .pkg p ∧ ¬IsPoll p) ∨
    ∃ idx, e = .dispatch idx) (s : Fw σ) :
      runActs b s es = [] := by
    induction es generalizing s with
    | nil => rfl
    | cons e es ih =>
      have hfirst : acts b s e = [] := by
        rcases hes e (List.mem_cons_self ..) with ⟨p, rfl, hp⟩ | ⟨idx, rfl⟩
        · exact pkg_acts s p hp
        · rw [own_acts s fun p => by simp, dispatch_input]
      rw [runActs, trace, hfirst, List.nil_append]
      exact ih (fun e' he' => hes e' (List.mem_cons_of_mem _ he')) _
  have hhost (type : PkgType) (htype : type ≠ .polling) (idx cnt : Byte) (data : List Byte) :
      ¬IsPoll (hostPkg type idx cnt data) := fun hp => by
    rw [IsPoll, hostPkg_type] at hp
    exact htype (Option.some.inj hp.2)
  refine hquiet _ (fun e he => ?_) s
  rw [jobRun, List.mem_append, List.mem_map] at he
  rcases he with ⟨p, hp, rfl⟩ | he
  · refine Or.inl ⟨p, rfl, ?_⟩
    simp only [jobPackets, List.mem_append, List.mem_cons, List.mem_map,
      List.not_mem_nil, or_false] at hp
    rcases hp with ((rfl | rfl | rfl) | ⟨k, _, rfl⟩) | ⟨k, _, rfl⟩
      <;> exact hhost _ (by decide) _ _ _
  · simp only [List.mem_cons, List.not_mem_nil, or_false] at he
    rcases he with rfl | rfl
    · exact Or.inl ⟨_, rfl, hhost _ (by decide) _ _ _⟩
    · exact Or.inr ⟨0, rfl⟩

def pollPkg : Pkg := hostPkg .polling 1 1 []

theorem pollPkg_poll : IsPoll pollPkg := ⟨hostPkg_crcOk .., hostPkg_type ..⟩

/-- Chip 0 finds a nonce in each of 64 passes, then the host polls. -/
def fullRun : List Event := jobRun easyTarget ++ (List.replicate 64 .readResult ++ [.pkg pollPkg])

theorem fullRun_acts : runActs belowBoard (start belowBoard ()) fullRun =
    List.replicate 64 (.put (report sampleResult)) ++ [.poll, .empty] := by
  have hring := sampled_ring
  obtain ⟨hc, hp, ha⟩ := mined_passes 64 (sampled easyTarget) mined_start (by rw [hring.1]; decide)
  rw [hring.1] at hp
  rw [hring.2] at hc
  have hempty :
      (Run.run (step belowBoard) (sampled easyTarget) (List.replicate 64 .readResult)).jobs.pop =
        none := by
    rw [Jobs.pop, hc, hp]
    rfl
  obtain ⟨_, hpoll⟩ := poll_empty (b := belowBoard) _ pollPkg pollPkg_poll hempty
  have hrun : Run.run (step belowBoard) (start belowBoard ()) (jobRun easyTarget) =
      sampled easyTarget := rfl
  have hjob := jobRun_acts (b := belowBoard) easyTarget (start belowBoard ())
  rw [runActs] at hjob ha ⊢
  rw [fullRun, trace_append, trace_append, hjob, hrun, ha, trace, hpoll]
  rfl

/-- The ring with 64 results looks empty: the host is told that there is none. -/
theorem full_looks_empty : runActs belowBoard (start belowBoard ()) fullRun =
      List.replicate 64 (.put (report sampleResult)) ++ [.poll, .empty] ∧
    ∀ q, ¬Serves [] (runActs belowBoard (start belowBoard ()) fullRun) q := by
  refine ⟨fullRun_acts, fun q h => ?_⟩
  rw [fullRun_acts, ← List.map_replicate, serves_puts] at h
  have hnil := h.nil_of_empty
  cases hnil

def pollRun : List Event := jobRun easyTarget ++ [.readResult, .pkg pollPkg]

theorem pollRun_room :
    Run.Meets (step belowBoard) (Room belowBoard) (start belowBoard ()) pollRun := by
  have hring := sampled_ring
  obtain ⟨hfound, _⟩ := mined_pass (sampled easyTarget) mined_start
  have hrun : Run.run (step belowBoard) (start belowBoard ()) (jobRun easyTarget) =
      sampled easyTarget := rfl
  rw [pollRun, Run.meets_append, hrun]
  refine ⟨Run.meets_of_forall _ _ _ _ fun e he s => ?_, ?_, trivial, trivial⟩
  · rw [jobRun, List.mem_append, List.mem_map] at he
    rcases he with ⟨p, _, rfl⟩ | he
    · trivial
    · simp only [List.mem_cons, List.not_mem_nil, or_false] at he
      rcases he with rfl | rfl <;> trivial
  · rw [Room, hring.1, hring.2, hfound, List.length_singleton]
    decide

theorem reported_once_poll :
    ∃ q, Waiting (Run.run (step belowBoard) (start belowBoard ()) pollRun).jobs q ∧
    Serves [] (runActs belowBoard (start belowBoard ()) pollRun) (q.map report) ∧
    (.reset ∉ runActs belowBoard (start belowBoard ()) pollRun →
      puts (runActs belowBoard (start belowBoard ()) pollRun) =
        gives (runActs belowBoard (start belowBoard ()) pollRun) ++ q.map report) :=
  reported_once belowBoard () pollRun pollRun_room

end HashRatio.ResultRing
