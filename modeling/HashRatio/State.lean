import HashRatio.Drivers
import HashRatio.Job
import HashRatio.Protocol
import HashRatio.Lib.Run

/-!
# The globals of main.c

`Jobs` holds what belongs to jobs and results: the slots, what each chip works
on, the ring of results. Everything the firmware does to them is one of the
operations below. `Fw` adds the rest of the globals and the board.
-/

namespace HashRatio.State
open Bytes Memory MmWork Miner Protocol Drivers

structure ChipStatus where
  nonce2 : Word
  mmIdx : ℕ
  deriving DecidableEq, Repr

structure Be200Result where
  nonce2 : Word
  nonce : Word
  idx : ℕ
  mmIdx : ℕ
  deriving DecidableEq, Repr

/-- What is done with jobs: a work generated for a chip, a chip found ready, a nonce of a chip
tested, a result put at a place of the ring, the result at a place reported. `mem` is the memory
`miner_gen_nonce2_work` is called in. -/
inductive Obs where
  | work (idx : ℕ) (mem : Mem Byte) (slot : ℕ) (w : Work)
  | ready (idx : ℕ) (nonceMask : Byte)
  | test (idx : ℕ) (mem : Mem Byte) (slot : ℕ) (nonce2 nonce : Word)
  | push (pos idx : ℕ)
  | report (pos : ℕ) (jobId : List Byte) (poolNo : Word)

/-- Ghost: `hist`, newest first. -/
structure Jobs where
  works : Mem Byte
  curMmIdx : ℕ
  minerStatus : ℕ → ChipStatus
  resultBuff : ℕ → Be200Result
  retProduce : ℕ
  retConsume : ℕ
  hist : List Obs

def Jobs.init : Jobs where
  works := fun _ => 0
  curMmIdx := 0
  minerStatus := fun _ => ⟨0, 0⟩
  resultBuff := fun _ => ⟨0, 0, 0, 0⟩
  retProduce := 0
  retConsume := 0
  hist := []

def Jobs.mmWriteIdx (j : Jobs) : ℕ := (j.curMmIdx + 1) % mmBufNum

def Jobs.curSlot (j : Jobs) : ℤ := slotAddr j.curMmIdx

def Jobs.writeSlot (j : Jobs) : ℤ := slotAddr j.mmWriteIdx

/-! ### Stores of decode_pkg -/

def storeStatic (p : Pkg) (m : Mem Byte) (mw : ℤ) : Mem Byte :=
  let m := storeField m mw .coinbaseLen (dataBytes p 0)
  let m := storeField m mw .nonce2Offset (dataBytes p 1)
  let m := storeField m mw .nonce2Size (dataBytes p 2)
  let m := storeField m mw .merkleOffset (dataBytes p 3)
  let m := storeField m mw .nmerkles (dataBytes p 4)
  let m := storeField m mw .diff (dataBytes p 5)
  storeField m mw .poolNo (dataBytes p 6)

def storeJobId (p : Pkg) (m : Mem Byte) (mw : ℤ) : Mem Byte :=
  storeField m mw .jobId (dataBytes p 0)

/-- Where the 32 bytes of a fragment go: `(idx - 1) * HRTO_P_DATA_LEN` into the array. -/
def fragAddr (p : Pkg) (mw : ℤ) (f : Field) : ℤ := mw + f.off + ((pkgIdx p : ℤ) - 1) * hrtoPDataLen

def storeFragment (p : Pkg) (f : Field) (m : Mem Byte) (mw : ℤ) : Mem Byte :=
  write m (fragAddr p mw f) (pkgData p)

def storeCoinbase (p : Pkg) (m : Mem Byte) (mw : ℤ) : Mem Byte :=
  let m := if pkgIdx p = 1 then fill m (mw + Field.coinbase.off) Field.coinbase.size 0 else m
  storeFragment p .coinbase m mw

def storeMerkles (p : Pkg) (m : Mem Byte) (mw : ℤ) : Mem Byte := storeFragment p .merkles m mw
def storeHeader (p : Pkg) (m : Mem Byte) (mw : ℤ) : Mem Byte := storeFragment p .header m mw
def storeTarget (p : Pkg) (m : Mem Byte) (mw : ℤ) : Mem Byte := storeField m mw .target (pkgData p)

/-! ### Operations -/

def Jobs.store (j : Jobs) (f : Mem Byte → ℤ → Mem Byte) : Jobs :=
  {j with works := f j.works j.writeSlot}

/-- The part of SET that concerns jobs: the nonce2 counter starts, the slot becomes current. -/
def Jobs.set (j : Jobs) (nonce2Offset nonce2Range : Word) : Jobs :=
  {j with
    works := storeField j.works j.writeSlot .nonce2 (wordBytes (nonce2Offset + nonce2Range))
    curMmIdx := (j.curMmIdx + 1) % mmBufNum}

def Jobs.bumpNonce2 (j : Jobs) : Mem Byte :=
  storeField j.works j.curSlot .nonce2 (wordBytes (nonce2 j.works j.curSlot + 1))

/-- A change of the slots that is noted. -/
def Jobs.note (j : Jobs) (works : Mem Byte) (o : Obs) : Jobs :=
  {j with works := works, hist := o :: j.hist}

def Jobs.genWork (j : Jobs) (idx : ℕ) : Jobs × Work :=
  let m := j.bumpNonce2
  let r := minerGenNonce2Work m j.curSlot (nonce2 m j.curSlot)
  let w : Work := {r.2 with mmIdx := j.curMmIdx}
  (j.note r.1 (.work idx m j.curMmIdx w), w)

def Jobs.recordWork (j : Jobs) (idx : ℕ) (w : Work) : Jobs :=
  {j with minerStatus := fun i => if i = idx then ⟨w.nonce2, w.mmIdx⟩ else j.minerStatus i}

def Jobs.noteReady (j : Jobs) (idx : ℕ) (nonceMask : Byte) : Jobs :=
  j.note j.works (.ready idx nonceMask)

/-- `test_nonce` on the slot and the nonce2 recorded for a chip. -/
def Jobs.test (j : Jobs) (idx : ℕ) (nonce : Word) : Jobs × NonceCheck :=
  let c := j.minerStatus idx
  let r := testNonce j.works (slotAddr c.mmIdx) c.nonce2 nonce
  (j.note r.1 (.test idx j.works c.mmIdx c.nonce2 nonce), r.2)

def ringNext (k : ℕ) : ℕ := (k + 1) &&& 63

theorem ringNext_eq (k : ℕ) : ringNext k = (k + 1) % 64 := Nat.and_two_pow_sub_one_eq_mod (k + 1) 6

def Jobs.push (j : Jobs) (idx : ℕ) (nonce : Word) : Jobs :=
  let c := j.minerStatus idx
  {j with
    resultBuff := fun k => if k = j.retProduce then ⟨c.nonce2, nonce, idx, c.mmIdx⟩
      else j.resultBuff k
    retProduce := ringNext j.retProduce
    hist := .push j.retProduce idx :: j.hist}

/-- `be200_polling` takes a result out; `none` when the ring is empty. -/
def Jobs.pop (j : Jobs) : Option (Jobs × Be200Result) :=
  if j.retConsume = j.retProduce then none
  else
    let data := j.resultBuff j.retConsume
    let mw := slotAddr data.mmIdx
    let obs := Obs.report j.retConsume (read j.works (mw + Field.jobId.off) 4) (poolNo j.works mw)
    some ({j with retConsume := ringNext j.retConsume, hist := obs :: j.hist}, data)

def Jobs.clearRing (j : Jobs) : Jobs := {j with retProduce := 0, retConsume := 0}

/-! ### The operations as one alphabet -/

def pkgStore (p : Pkg) : Mem Byte → ℤ → Mem Byte :=
  match pkgType p with
  | some .static => storeStatic p
  | some .jobId => storeJobId p
  | some .coinbase => storeCoinbase p
  | some .merkles => storeMerkles p
  | some .header => storeHeader p
  | some .target => storeTarget p
  | _ => fun m _ => m

inductive JobOp where
  | store (p : Pkg)
  | set (nonce2Offset nonce2Range : Word)
  | dispatch (idx : ℕ)
  | ready (idx : ℕ) (nonceMask : Byte)
  | test (idx : ℕ) (nonce : Word)
  | push (idx : ℕ) (nonce : Word)
  | pop
  | clearRing

/-- What the firmware does to jobs without a packet of the host: no store, no SET. -/
def JobOp.Own : JobOp → Prop
  | .store _ | .set _ _ => False
  | _ => True

def Jobs.apply (j : Jobs) : JobOp → Jobs
  | .store p => j.store (pkgStore p)
  | .set offset range => j.set offset range
  | .dispatch idx => (j.genWork idx).1.recordWork idx (j.genWork idx).2
  | .ready idx mask => j.noteReady idx mask
  | .test idx nonce => (j.test idx nonce).1
  | .push idx nonce => j.push idx nonce
  | .pop => (j.pop.map Prod.fst).getD j
  | .clearRing => j.clearRing

section apply
variable (j : Jobs)

@[simp] theorem apply_store (p : Pkg) : j.apply (.store p) = j.store (pkgStore p) := rfl
@[simp] theorem apply_dispatch (idx : ℕ) :
    j.apply (.dispatch idx) = (j.genWork idx).1.recordWork idx (j.genWork idx).2 := rfl
@[simp] theorem apply_ready (idx : ℕ) (mask : Byte) :
    j.apply (.ready idx mask) = j.noteReady idx mask := rfl
@[simp] theorem apply_test (idx : ℕ) (nonce : Word) :
    j.apply (.test idx nonce) = (j.test idx nonce).1 := rfl
@[simp] theorem apply_push (idx : ℕ) (nonce : Word) :
    j.apply (.push idx nonce) = j.push idx nonce := rfl
@[simp] theorem apply_pop : j.apply .pop = (j.pop.map Prod.fst).getD j := rfl
@[simp] theorem apply_clearRing : j.apply .clearRing = j.clearRing := rfl

end apply

/-! ### What operations leave alone -/

section frame
variable (j : Jobs)

section note
variable (works : Mem Byte) (o : Obs)

@[simp] theorem note_works : (j.note works o).works = works := rfl
@[simp] theorem note_curMmIdx : (j.note works o).curMmIdx = j.curMmIdx := rfl
@[simp] theorem note_minerStatus : (j.note works o).minerStatus = j.minerStatus := rfl
@[simp] theorem note_resultBuff : (j.note works o).resultBuff = j.resultBuff := rfl
@[simp] theorem note_retProduce : (j.note works o).retProduce = j.retProduce := rfl
@[simp] theorem note_retConsume : (j.note works o).retConsume = j.retConsume := rfl
@[simp] theorem note_hist : (j.note works o).hist = o :: j.hist := rfl

end note

variable (idx : ℕ) (nonce : Word)

theorem test_note : (j.test idx nonce).1 =
    j.note
      (minerGenNonce2Work j.works (slotAddr (j.minerStatus idx).mmIdx) (j.minerStatus idx).nonce2).1
      (.test idx j.works (j.minerStatus idx).mmIdx (j.minerStatus idx).nonce2 nonce) := rfl

theorem test_check : (j.test idx nonce).2 =
    (testNonce j.works (slotAddr (j.minerStatus idx).mmIdx) (j.minerStatus idx).nonce2
      nonce).2 := by rw [Jobs.test]

theorem genWork_note : (j.genWork idx).1 =
    j.note (minerGenNonce2Work j.bumpNonce2 j.curSlot (nonce2 j.bumpNonce2 j.curSlot)).1
      (.work idx j.bumpNonce2 j.curMmIdx (j.genWork idx).2) := rfl

theorem genWork_work : (j.genWork idx).2 =
    {(minerGenNonce2Work j.bumpNonce2 j.curSlot
      (nonce2 j.bumpNonce2 j.curSlot)).2 with mmIdx := j.curMmIdx} := rfl

/-- Taking a result out of the ring: nothing when it is empty, else one step and a note. -/
theorem apply_pop_cases : j.retConsume = j.retProduce ∧ j.apply .pop = j ∨
    j.retConsume ≠ j.retProduce ∧ j.apply .pop =
      {j with
        retConsume := ringNext j.retConsume
        hist := .report j.retConsume
          (read j.works (slotAddr (j.resultBuff j.retConsume).mmIdx + Field.jobId.off) 4)
          (poolNo j.works (slotAddr (j.resultBuff j.retConsume).mmIdx)) :: j.hist} := by
  rw [apply_pop, Jobs.pop]
  by_cases h : j.retConsume = j.retProduce
  · rw [if_pos h]
    exact Or.inl ⟨h, rfl⟩
  · rw [if_neg h]
    exact Or.inr ⟨h, rfl⟩

end frame

/-- What an operation adds to the history. -/
def Jobs.obs (j : Jobs) : JobOp → Option Obs
  | .store _ | .set _ _ | .clearRing => none
  | .dispatch idx => some (.work idx j.bumpNonce2 j.curMmIdx (j.genWork idx).2)
  | .ready idx mask => some (.ready idx mask)
  | .test idx nonce =>
    some (.test idx j.works (j.minerStatus idx).mmIdx (j.minerStatus idx).nonce2 nonce)
  | .push idx _ => some (.push j.retProduce idx)
  | .pop =>
    if j.retConsume = j.retProduce then none
    else
      some (.report j.retConsume
        (read j.works (slotAddr (j.resultBuff j.retConsume).mmIdx + Field.jobId.off) 4)
        (poolNo j.works (slotAddr (j.resultBuff j.retConsume).mmIdx)))

theorem apply_hist (j : Jobs) (op : JobOp) : (j.apply op).hist = (j.obs op).toList ++ j.hist := by
  cases op with
  | dispatch idx =>
    rw [apply_dispatch, genWork_note]
    rfl
  | test idx nonce =>
    rw [apply_test, test_note]
    rfl
  | pop =>
    rcases apply_pop_cases j with ⟨he, h⟩ | ⟨hne, h⟩
    · rw [h, Jobs.obs, if_pos he]
      rfl
    · rw [h, Jobs.obs, if_neg hne]
      rfl
  | _ => rfl

theorem ops_hist (j : Jobs) (ops : List JobOp) :
    ∃ later, (Run.run Jobs.apply j ops).hist = later ++ j.hist := by
  induction ops generalizing j with
  | nil => exact ⟨[], rfl⟩
  | cons op ops ih =>
    obtain ⟨later, hlater⟩ := ih (j.apply op)
    exact ⟨later ++ (j.obs op).toList, by rw [Run.run_cons, hlater, apply_hist, List.append_assoc]⟩

/-- What each chip works on changes with a dispatch only. -/
theorem apply_status (j : Jobs) (op : JobOp) (hop : ∀ idx, op ≠ .dispatch idx) :
    (j.apply op).minerStatus = j.minerStatus := by
  cases op with
  | dispatch idx => exact absurd rfl (hop idx)
  | test idx nonce => rw [apply_test, test_note, note_minerStatus]
  | pop => rcases apply_pop_cases j with ⟨_, h⟩ | ⟨_, h⟩ <;> rw [h]
  | _ => rfl

theorem dispatch_status (j : Jobs) (idx i : ℕ) : ((j.apply (.dispatch idx)).minerStatus i).mmIdx =
    if i = idx then j.curMmIdx else (j.minerStatus i).mmIdx := by
  rw [apply_dispatch, genWork_note, genWork_work]
  simp only [Jobs.recordWork, note_minerStatus]
  split <;> rfl

/-! ### The firmware -/

/-- What is written to the host: a reply frame, or bytes of the self-test commands. -/
inductive Out where
  | frame (p : Pkg)
  | raw (bs : List Byte)

/-- `tx` is in the order of sending; `tmp` is the temperature `main` keeps across its loop. -/
structure Fw (σ : Type) where
  dev : Dev σ
  jobs : Jobs
  newStratum : Bool
  localWork : Word
  hwWork : Word
  totalNonce : Word
  asicFreq : Word
  nonce2Offset : Word
  nonce2Range : Word
  resetFlag : ℕ
  itpData : ℕ → Byte
  itpResult : ℕ → Byte
  tmp : Word
  tx : List Out

def Fw.init {σ : Type} (env : σ) : Fw σ where
  dev := ⟨env, fun _ => 0, 0x3ff, []⟩
  jobs := Jobs.init
  newStratum := false
  localWork := 0
  hwWork := 0
  totalNonce := 0
  asicFreq := BitVec.ofNat 32 be200DefaultFreq
  nonce2Offset := 0
  nonce2Range := 0xffffffff
  resetFlag := 0
  itpData := fun _ => 0
  itpResult := fun _ => 0
  tmp := 0
  tx := []

end HashRatio.State
