import HashRatio.FullTest
import HashRatio.Slots

/-!
# Generation without memory

`miner_gen_nonce2_work` writes into the coinbase and the header of the slot it
reads, and `test_nonce` calls it again with older nonces. Both overwrite the place
holders of the job only, so the work made, and the outcome of a test, depend on
the job and the nonces and not on the calls before.
-/

namespace HashRatio.Generation
open Bytes Memory MmWork Miner Job Slots FullTest

attribute [local irreducible] ShaDriver.dsha256 Sha256.dsha256 Sha256.compress

inductive Call where
  | gen (nonce2 : Word)
  | test (nonce2 nonce : Word)

def call (mw : ℤ) (m : Mem Byte) : Call → Mem Byte
  | .gen nonce2 => (minerGenNonce2Work m mw nonce2).1
  | .test nonce2 nonce => (testNonce m mw nonce2 nonce).1

theorem call_same (m : Mem Byte) (mw : ℤ) (h : Safe m mw) (c : Call) :
    SameSlot m (call mw m c) mw := by
  intro x _ _ hx
  cases c with
  | gen nonce2 => exact minerGen_out m mw x nonce2 h hx
  | test nonce2 nonce => exact minerGen_out m mw x nonce2 h hx

theorem calls_same (m : Mem Byte) (mw : ℤ) (h : Safe m mw) (cs : List Call) :
    SameSlot m (Run.run (call mw) m cs) mw := by
  induction cs generalizing m with
  | nil => exact sameSlot_refl m mw
  | cons c cs ih =>
    have hone := call_same m mw h c
    exact sameSlot_trans h hone (ih (call mw m c) (safe_same h hone))

/-- After any calls the slot makes the works of the job it held before them. -/
theorem calls_work (m : Mem Byte) (mw : ℤ) (h : InRange m mw) (cs : List Call) (nonce2 : Word) :
    (minerGenNonce2Work (Run.run (call mw) m cs) mw nonce2).2 = (jobAt m mw).work nonce2 := by
  have hsame := calls_same m mw h.safe cs
  have hrange := (sameSizes_of_same h.safe hsame).inRange h
  rw [minerGenNonce2Work_eq _ mw nonce2 hrange, jobAt_same h.safe hsame]

/-! ### Slots the same up to their place holders -/

section same
variable {m m' : Mem Byte} {mw : ℤ} (hsafe : Safe m mw) (h : SameSlot m m' mw) (nonce2 : Word)
include hsafe h

theorem stored_same (x : ℤ) (h1 : mw ≤ x) (h2 : x < mw + mmWorkSize)
    (hcount : x < mw + Field.nonce2.off ∨ mw + Field.nonce2.off + 4 ≤ x)
    (hroot : x < mw + Field.header.off + (merkleOffset m mw).toInt ∨
      mw + Field.header.off + (merkleOffset m mw).toInt + 32 ≤ x) :
    storeNonce2 m' mw nonce2 x = storeNonce2 m mw nonce2 x := by
  have hoff : nonce2Offset m' mw = nonce2Offset m mw := same_word hsafe h .nonce2Offset (by simp)
  rw [storeNonce2, storeNonce2, hoff]
  refine write_congr _ _ _ _ _ fun hx => h x h1 h2 fun hs => ?_
  rw [wordBytes_length] at hx
  unfold Scratch at hs
  omega

theorem root_same :
    merkleRoot (storeNonce2 m' mw nonce2) mw = merkleRoot (storeNonce2 m mw nonce2) mw := by
  have hsafe' := safe_same hsafe h
  have hcoinbase := hsafe.coinbase_le
  have hbranches := hsafe.nmerkles_le
  have hoff := hsafe.merkle_nonneg
  have hword (f : Field) (hf : f = .coinbaseLen ∨ f = .nmerkles) :
      loadWord (storeNonce2 m' mw nonce2) (mw + f.off) = loadWord m (mw + f.off) ∧
        loadWord (storeNonce2 m mw nonce2) (mw + f.off) = loadWord m (mw + f.off) := by
    have hsame := same_word hsafe h f (by rcases hf with rfl | rfl <;> simp)
    have hne : f ≠ .coinbase := by rcases hf with rfl | rfl <;> decide
    have hsize : 4 ≤ f.size := by rcases hf with rfl | rfl <;> decide
    exact ⟨(storeNonce2_word m' mw nonce2 hsafe' f hne hsize).trans hsame,
      storeNonce2_word m mw nonce2 hsafe f hne hsize⟩
  have hlen := hword .coinbaseLen (.inl rfl)
  have hcount := hword .nmerkles (.inr rfl)
  simp only [merkleRoot, coinbaseLen, nmerkles, hlen, hcount]
  rw [coinbaseLen] at hcoinbase
  rw [nmerkles] at hbranches
  have hfirst : read (storeNonce2 m' mw nonce2) (mw + Field.coinbase.off)
      (loadWord m (mw + Field.coinbaseLen.off)).toNat =
      read (storeNonce2 m mw nonce2) (mw + Field.coinbase.off)
        (loadWord m (mw + Field.coinbaseLen.off)).toNat := by
    refine read_congr _ _ _ _ fun x h1 h2 => stored_same hsafe h nonce2 x ?_ ?_ ?_ ?_ <;>
      simp only [Field.off, mmWorkSize] at * <;> omega
  rw [hfirst]
  refine List.foldl_ext _ _ _ fun root i hi => ?_
  have hi' := List.mem_range.mp hi
  have hbranch : read (storeNonce2 m' mw nonce2) (mw + Field.merkles.off + 32 * i) 32 =
      read (storeNonce2 m mw nonce2) (mw + Field.merkles.off + 32 * i) 32 := by
    refine read_congr _ _ _ _ fun x h1 h2 => stored_same hsafe h nonce2 x ?_ ?_ ?_ ?_ <;>
      simp only [Field.off, mmWorkSize] at * <;> omega
  rw [hbranch]

theorem gen_same (x : ℤ) (h1 : mw ≤ x) (h2 : x < mw + mmWorkSize)
    (hcount : x < mw + Field.nonce2.off ∨ mw + Field.nonce2.off + 4 ≤ x) :
    (minerGenNonce2Work m' mw nonce2).1 x = (minerGenNonce2Work m mw nonce2).1 x := by
  have hsame : merkleOffset m' mw = merkleOffset m mw := same_word hsafe h .merkleOffset (by simp)
  have hoff : merkleOffset (storeNonce2 m mw nonce2) mw = merkleOffset m mw :=
    storeNonce2_word m mw nonce2 hsafe _ (by decide) (by decide)
  have hoff' : merkleOffset (storeNonce2 m' mw nonce2) mw = merkleOffset m mw :=
    (storeNonce2_word m' mw nonce2 (safe_same hsafe h) _ (by decide) (by decide)).trans hsame
  simp only [minerGenNonce2Work, root_same hsafe h nonce2, storeRoot, hoff, hoff']
  refine write_congr _ _ _ _ _ fun hx => ?_
  rw [flip32_length] at hx
  exact stored_same hsafe h nonce2 x h1 h2 hcount (by omega)

theorem work_same : (minerGenNonce2Work m' mw nonce2).2 = (minerGenNonce2Work m mw nonce2).2 := by
  have hheader : read (minerGenNonce2Work m' mw nonce2).1 (mw + Field.header.off) 128 =
      read (minerGenNonce2Work m mw nonce2).1 (mw + Field.header.off) 128 := by
    refine read_congr _ _ _ _ fun x h1 h2 => gen_same hsafe h nonce2 x ?_ ?_ ?_ <;>
      simp only [Field.off, mmWorkSize] at * <;> omega
  simp only [minerGenNonce2Work] at hheader ⊢
  rw [calcMidstate_eq _ mw _ hheader, calcMidstate_eq _ mw _ rfl, hheader]

/-- A test depends on the bytes that no call changes. -/
theorem testNonce_same (nonce : Word) :
    (testNonce m' mw nonce2 nonce).2 = (testNonce m mw nonce2 nonce).2 := by
  have htarget : testTarget m' mw nonce2 = testTarget m mw nonce2 := by
    refine read_congr _ _ _ _ fun x h1 h2 => gen_same hsafe h nonce2 x ?_ ?_ ?_ <;>
      simp only [Field.off, mmWorkSize] at * <;> omega
  rw [testNonce_eq, testNonce_eq, testHash, testHash, work_same hsafe h nonce2, htarget]

end same

/-! ### The work of a slot, in the slot's own bytes -/

/-- The coinbase the slot holds, with nonce2 stored little-endian at its place. -/
def slotCoinbase (m : Mem Byte) (mw : ℤ) (nonce2 : Word) : List Byte :=
  splice (read m (mw + Field.coinbase.off) (coinbaseLen m mw).toNat) (nonce2Offset m mw).toInt.toNat
    (wordBytes nonce2).reverse

def slotBranches (m : Mem Byte) (mw : ℤ) : List (List Byte) :=
  (List.range (nmerkles m mw).toInt.toNat).map fun (i : ℕ) =>
    read m (mw + Field.merkles.off + 32 * i) 32

def slotHeader (m : Mem Byte) (mw : ℤ) : List Byte := read m (mw + Field.header.off) 128

def foldBranches (coinbase : List Byte) (branches : List (List Byte)) : List Byte :=
  branches.foldl (fun acc branch => Sha256.dsha256 (acc ++ branch)) (Sha256.dsha256 coinbase)

section slot
variable (m : Mem Byte) (mw : ℤ) (nonce2 : Word) (h : InRange m mw)
include h

theorem slotCoinbase_eq :
    splice (jobAt m mw).coinbase (jobAt m mw).nonce2Offset.toNat (wordBytes nonce2).reverse =
      slotCoinbase m mw nonce2 := by
  have h2 := h.nonce2_nonneg
  have h3 := h.nonce2_le
  have hk :
      (mw + Field.coinbase.off + (nonce2Offset m mw).toInt - (mw + Field.coinbase.off)).toNat =
      (nonce2Offset m mw).toInt.toNat := by omega
  simp only [jobAt, slotCoinbase]
  rw [fill_eq_write,
    read_write_inside _ _ _ _ _ (by omega) (by rw [List.length_replicate]; omega), hk,
    splice_splice _ _ _ _ (by rw [List.length_replicate, read_length]; omega) (by simp)]

theorem slotRoot_eq :
    (jobAt m mw).merkleRoot nonce2 =
      foldBranches (slotCoinbase m mw nonce2) (slotBranches m mw) := by
  rw [JobData.merkleRoot, slotCoinbase_eq m mw nonce2 h]
  rfl

theorem slotHeader_eq : (jobAt m mw).workHeader nonce2 =
    splice (slotHeader m mw) (merkleOffset m mw).toInt.toNat
      (flip32 ((jobAt m mw).merkleRoot nonce2)) := by
  have h6 := h.merkle_nonneg
  have h7 := h.merkle_le
  have hk : (mw + Field.header.off + (merkleOffset m mw).toInt - (mw + Field.header.off)).toNat =
      (merkleOffset m mw).toInt.toNat := by omega
  rw [JobData.workHeader]
  generalize (jobAt m mw).merkleRoot nonce2 = root
  simp only [jobAt, slotHeader]
  rw [fill_eq_write,
    read_write_inside _ _ _ _ _ (by omega) (by rw [List.length_replicate]; omega), hk,
    splice_splice _ _ _ _ (by rw [List.length_replicate, read_length]; omega) (by simp)]

end slot

/-- **Work generation is a function of the job and nonce2**, whatever works were generated and
nonces tested in the slot before. -/
theorem generation (m : Mem Byte) (mw : ℤ) (h : InRange m mw) (cs : List Call) (nonce2 : Word) :
    let w := (minerGenNonce2Work (Run.run (call mw) m cs) mw nonce2).2
    w.nonce2 = nonce2 ∧
    w.header = splice (slotHeader m mw) (merkleOffset m mw).toInt.toNat
      (flip32 (foldBranches (slotCoinbase m mw nonce2) (slotBranches m mw))) ∧
    w.data = workData w.header := by
  intro w
  have hw : w = (jobAt m mw).work nonce2 := calls_work m mw h cs nonce2
  rw [hw]
  refine ⟨rfl, ?_, rfl⟩
  rw [← slotRoot_eq m mw nonce2 h, ← slotHeader_eq m mw nonce2 h, JobData.work]

/-- A slot with a coinbase of 60 bytes and two merkle branches. -/
def branchSlot : Mem Byte :=
  let m := State.storeStatic (Packets.staticPkg [60, 0, 4, 36, 2, 1, 1]) (fun _ => 0) 0
  let m := State.storeMerkles (Packets.hostPkg .merkles 1 2 (List.replicate 32 0xA1)) m 0
  State.storeMerkles (Packets.hostPkg .merkles 2 2 (List.replicate 32 0xB2)) m 0

theorem branchSlot_inRange : InRange branchSlot 0 := by decide +kernel

theorem branchSlot_branches :
    slotBranches branchSlot 0 = [List.replicate 32 0xA1, List.replicate 32 0xB2] := by
  decide +kernel

theorem generation_again :
    let w := (minerGenNonce2Work (Run.run (call 0) branchSlot [.gen 5, .test 5 7]) 0 6).2
    slotBranches branchSlot 0 = [List.replicate 32 0xA1, List.replicate 32 0xB2] ∧
    w.nonce2 = 6 ∧
    w.header = splice (slotHeader branchSlot 0) (merkleOffset branchSlot 0).toInt.toNat
      (flip32 (foldBranches (slotCoinbase branchSlot 0 6) (slotBranches branchSlot 0))) ∧
    w.data = workData w.header :=
  ⟨branchSlot_branches, generation branchSlot 0 branchSlot_inRange [.gen 5, .test 5 7] 6⟩

/-! ### Tests -/

def jobCheck (job : JobData) (nonce2 nonce : Word) : NonceCheck :=
  let hash := Sha256.dsha256 (swapBuffer (job.work nonce2) nonce)
  if wordAt hash 7 ≠ 0 then .hw else fulltest hash job.target

theorem testNonce_job (m : Mem Byte) (mw : ℤ) (h : InRange m mw) (nonce2 nonce : Word) :
    (testNonce m mw nonce2 nonce).2 = jobCheck (jobAt m mw) nonce2 nonce := by
  have hsame : SameSlot m (minerGenNonce2Work m mw nonce2).1 mw :=
    call_same m mw h.safe (.gen nonce2)
  have htarget : testTarget m mw nonce2 = (jobAt m mw).target := by
    have hjob := congrArg JobData.target (jobAt_same h.safe hsame)
    exact hjob
  have hlen : (swapBuffer ((jobAt m mw).work nonce2) nonce).length = 80 := flipWords_length 20 _
  have hhash := ShaDriver.dsha256_eq (swapBuffer ((jobAt m mw).work nonce2) nonce) (by omega)
  rw [hlen] at hhash
  rw [testNonce_eq, testHash, htarget, minerGenNonce2Work_eq m mw nonce2 h, hhash, jobCheck]

/-- The outcome of a test is the same after any calls. -/
theorem calls_test (m : Mem Byte) (mw : ℤ) (h : InRange m mw) (cs : List Call)
    (nonce2 nonce : Word) :
    (testNonce (Run.run (call mw) m cs) mw nonce2 nonce).2 = (testNonce m mw nonce2 nonce).2 := by
  have hsame := calls_same m mw h.safe cs
  have hrange := (sameSizes_of_same h.safe hsame).inRange h
  rw [testNonce_job _ mw hrange, testNonce_job m mw h, jobAt_same h.safe hsame]

end HashRatio.Generation
