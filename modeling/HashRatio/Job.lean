import HashRatio.Miner

/-!
# Jobs

What a slot means: the job the host described, free of the bytes that work
generation writes back into the slot. `JobData.work` is the work of a job for a
nonce2 as the stratum protocol defines it, with the hash of the standard;
`minerGenNonce2Work_eq` shows that the code generates it from any slot whose
sizes are in range.
-/

namespace HashRatio.Job
open Bytes Memory MmWork Miner

attribute [local irreducible] ShaDriver.dsha256 Sha256.dsha256 Sha256.compress

/-- A job. The four coinbase bytes at `nonce2Offset` and the 32 header bytes at
`merkleOffset` are place holders. -/
structure JobData where
  coinbase : List Byte
  nonce2Offset : ℤ
  merkleOffset : ℤ
  branches : List (List Byte)
  header : List Byte
  target : List Byte
  jobId : List Byte
  poolNo : Word
  deriving DecidableEq, Repr

/-- The transaction of a job for a nonce2, its hash folded up the branches. -/
def JobData.merkleRoot (j : JobData) (nonce2 : Word) : List Byte :=
  j.branches.foldl (fun root branch => Sha256.dsha256 (root ++ branch))
    (Sha256.dsha256 (splice j.coinbase j.nonce2Offset.toNat (wordBytes nonce2).reverse))

/-- The block header of a job for a nonce2, the merkle root word-swapped into its place. -/
def JobData.workHeader (j : JobData) (nonce2 : Word) : List Byte :=
  splice j.header j.merkleOffset.toNat (flip32 (j.merkleRoot nonce2))

/-- Midstate and tail of a header: the first block's chaining value with its words swapped,
and the twelve bytes that follow. -/
def workData (header : List Byte) : List Byte :=
  flip32 (ofWords (Sha256.compress Sha256.initial (toWords 16 (flip64 header))).words) ++
    (header.drop 64).take 12

def JobData.work (j : JobData) (nonce2 : Word) : Work :=
  ⟨nonce2, 0, workData (j.workHeader nonce2), j.workHeader nonce2⟩

def JobData.blank (j : JobData) : JobData :=
  {j with
    coinbase := splice j.coinbase j.nonce2Offset.toNat (List.replicate 4 0)
    header := splice j.header j.merkleOffset.toNat (List.replicate 32 0)}

structure JobData.InRange (j : JobData) : Prop where
  coinbase_le : j.coinbase.length ≤ 2048
  nonce2_nonneg : 0 ≤ j.nonce2Offset
  nonce2_le : j.nonce2Offset + 4 ≤ j.coinbase.length
  branches_le : j.branches.length ≤ 20
  branch_length : ∀ b ∈ j.branches, b.length = 32
  merkle_nonneg : 0 ≤ j.merkleOffset
  merkle_le : j.merkleOffset ≤ 96
  header_length : j.header.length = 128
  target_length : j.target.length = 32
  jobId_length : j.jobId.length = 4

/-- The job held by the slot at `mw`. -/
def jobAt (m : Mem Byte) (mw : ℤ) : JobData where
  coinbase := read (fill m (mw + Field.coinbase.off + (nonce2Offset m mw).toInt) 4 0)
    (mw + Field.coinbase.off) (coinbaseLen m mw).toNat
  nonce2Offset := (nonce2Offset m mw).toInt
  merkleOffset := (merkleOffset m mw).toInt
  branches := (List.range (nmerkles m mw).toInt.toNat).map fun (i : ℕ) =>
    read m (mw + Field.merkles.off + 32 * i) 32
  header := read (fill m (mw + Field.header.off + (merkleOffset m mw).toInt) 32 0)
    (mw + Field.header.off) 128
  target := read m (mw + Field.target.off) 32
  jobId := read m (mw + Field.jobId.off) 4
  poolNo := poolNo m mw

theorem JobData.work_blank (j : JobData) (h : j.InRange) (nonce2 : Word) :
    j.blank.work nonce2 = j.work nonce2 := by
  have h1 := h.nonce2_nonneg
  have h2 := h.nonce2_le
  have h3 := h.merkle_nonneg
  have h4 := h.merkle_le
  have h5 := h.header_length
  have hroot : j.blank.merkleRoot nonce2 = j.merkleRoot nonce2 := by
    simp only [merkleRoot, blank]
    rw [splice_splice _ _ _ _ (by rw [List.length_replicate]; omega) (by simp)]
  have hheader : j.blank.workHeader nonce2 = j.workHeader nonce2 := by
    simp only [workHeader, hroot]
    exact splice_splice _ _ _ _ (by rw [List.length_replicate]; omega) (by simp [flip32])
  simp only [work, hheader]

/-! ### What work generation does to memory -/

@[simp] theorem dsha256_length (input : List Byte) (count : ℕ) :
    (ShaDriver.dsha256 input count).length = 32 := by
  simp [ShaDriver.dsha256, ShaDriver.sha256Final]

@[simp] theorem flip32_length (src : List Byte) : (flip32 src).length = 32 := flipWords_length 8 src

/-- The place holders of the slot at `mw`, and its `nonce2` counter. -/
def Scratch (m : Mem Byte) (mw x : ℤ) : Prop :=
  (mw + Field.nonce2.off ≤ x ∧ x < mw + Field.nonce2.off + 4) ∨
  (mw + Field.coinbase.off + (nonce2Offset m mw).toInt ≤ x ∧
    x < mw + Field.coinbase.off + (nonce2Offset m mw).toInt + 4) ∨
  (mw + Field.header.off + (merkleOffset m mw).toInt ≤ x ∧
    x < mw + Field.header.off + (merkleOffset m mw).toInt + 32)

theorem scratch_inside (m : Mem Byte) (mw x : ℤ) (h : Safe m mw) (hx : Scratch m mw x) :
    mw + Field.coinbase.off ≤ x ∧ x < mw + Field.nonce2Offset.off ∨
      mw + Field.header.off ≤ x ∧ x < mw + Field.diff.off := by
  have h1 := h.nonce2_nonneg
  have h2 := h.nonce2_le
  have h3 := h.merkle_nonneg
  have h4 := h.merkle_le
  unfold Scratch at hx
  simp only [Field.off] at *
  omega

def SameSlot (m m' : Mem Byte) (mw : ℤ) : Prop :=
  ∀ x, mw ≤ x → x < mw + mmWorkSize → ¬Scratch m mw x → m' x = m x

section same
variable {m m' : Mem Byte} {mw : ℤ} (hsafe : Safe m mw) (h : SameSlot m m' mw)
include hsafe h

theorem same_out (x : ℤ) (h1 : mw ≤ x) (h2 : x < mw + mmWorkSize)
    (h3 : x < mw + Field.coinbase.off ∨ mw + Field.nonce2Offset.off ≤ x)
    (h4 : x < mw + Field.header.off ∨ mw + Field.diff.off ≤ x) : m' x = m x := by
  refine h x h1 h2 fun hx => ?_
  have hin := scratch_inside m mw x hsafe hx
  omega

theorem same_word (f : Field) (hf : f = .coinbaseLen ∨ f = .nonce2Offset ∨ f = .merkleOffset ∨
    f = .nmerkles ∨ f = .poolNo) : loadWord m' (mw + f.off) = loadWord m (mw + f.off) := by
  apply loadWord_congr
  intro x h1 h2
  apply same_out hsafe h
  all_goals
    rcases hf with rfl | rfl | rfl | rfl | rfl <;> simp only [Field.off, mmWorkSize] at * <;> omega

theorem jobAt_same : jobAt m' mw = jobAt m mw := by
  have hlen : coinbaseLen m' mw = coinbaseLen m mw := same_word hsafe h _ (by simp)
  have hoff : nonce2Offset m' mw = nonce2Offset m mw := same_word hsafe h _ (by simp)
  have hmoff : merkleOffset m' mw = merkleOffset m mw := same_word hsafe h _ (by simp)
  have hnm : nmerkles m' mw = nmerkles m mw := same_word hsafe h _ (by simp)
  have hpool : poolNo m' mw = poolNo m mw := same_word hsafe h _ (by simp)
  have s1 := hsafe.coinbase_le
  have s4 := hsafe.nmerkles_le
  -- what is left are the five byte strings of the job
  simp only [jobAt, hlen, hoff, hmoff, hnm, hpool, JobData.mk.injEq, and_true, true_and]
  refine ⟨?_, ?_, ?_, ?_, ?_⟩
  · -- the coinbase, blanked at the nonce2 offset on both sides
    refine read_fill_congr _ _ _ _ _ _ _ fun x h1 h2 hw => h x ?_ ?_ ?_
    · simp only [Field.off] at *; omega
    · simp only [Field.off, mmWorkSize] at *; omega
    · have s5 := hsafe.merkle_nonneg
      unfold Scratch
      simp only [Field.off] at *
      omega
  · apply List.map_congr_left
    intro i hi
    have hi' := List.mem_range.mp hi
    apply read_congr
    intro x h1 h2
    apply same_out hsafe h <;> simp only [Field.off, mmWorkSize] at * <;> omega
  · -- the header, blanked at the merkle offset on both sides
    refine read_fill_congr _ _ _ _ _ _ _ fun x h1 h2 hw => h x ?_ ?_ ?_
    · simp only [Field.off] at *; omega
    · simp only [Field.off, mmWorkSize] at *; omega
    · have s2 := hsafe.nonce2_le
      unfold Scratch
      simp only [Field.off] at *
      omega
  · apply read_congr
    intro x h1 h2
    apply same_out hsafe h <;> simp only [Field.off, mmWorkSize] at * <;> omega
  · apply read_congr
    intro x h1 h2
    apply same_out hsafe h <;> simp only [Field.off, mmWorkSize] at * <;> omega

theorem safe_same : Safe m' mw := by
  have hlen : coinbaseLen m' mw = coinbaseLen m mw := same_word hsafe h _ (by simp)
  have hoff : nonce2Offset m' mw = nonce2Offset m mw := same_word hsafe h _ (by simp)
  have hmoff : merkleOffset m' mw = merkleOffset m mw := same_word hsafe h _ (by simp)
  have hnm : nmerkles m' mw = nmerkles m mw := same_word hsafe h _ (by simp)
  obtain ⟨s1, s2, s3, s4, s5, s6⟩ := hsafe
  exact ⟨hlen ▸ s1, hoff ▸ s2, hoff ▸ s3, hnm ▸ s4, hmoff ▸ s5, hmoff ▸ s6⟩

end same

theorem sameSlot_refl (m : Mem Byte) (mw : ℤ) : SameSlot m m mw := fun _ _ _ _ => rfl

theorem storeNonce2_field (m : Mem Byte) (mw x : ℤ) (n2 : Word) (h : Safe m mw) (f : Field)
    (hf : f ≠ .coinbase) (h1 : mw + f.off ≤ x) (h2 : x < mw + f.off + f.size) :
    storeNonce2 m mw n2 x = m x := by
  have hdis := Field.disjoint f .coinbase hf
  have hnn := h.nonce2_nonneg
  have hle := h.nonce2_le
  generalize f.off = fo at *
  generalize f.size = fs at *
  simp only [Field.off, Field.size] at hdis
  apply write_out
  rw [wordBytes_length]
  simp only [Field.off]
  omega

theorem storeNonce2_word (m : Mem Byte) (mw : ℤ) (n2 : Word) (h : Safe m mw) (f : Field)
    (hf : f ≠ .coinbase) (hs : 4 ≤ f.size) :
    loadWord (storeNonce2 m mw n2) (mw + f.off) = loadWord m (mw + f.off) :=
  loadWord_congr _ _ _ fun x h1 h2 => storeNonce2_field m mw x n2 h f hf h1 (by omega)

theorem minerGen_out (m : Mem Byte) (mw x : ℤ) (n2 : Word) (h : Safe m mw) (hx : ¬Scratch m mw x) :
    (minerGenNonce2Work m mw n2).1 x = m x := by
  have hmoff : merkleOffset (storeNonce2 m mw n2) mw = merkleOffset m mw :=
    storeNonce2_word m mw n2 h _ (by decide) (by decide)
  unfold Scratch at hx
  simp only [minerGenNonce2Work, storeRoot, hmoff]
  rw [write_out _ _ _ _ (by rw [flip32_length]; omega), storeNonce2,
    write_out _ _ _ _ (by rw [wordBytes_length]; omega)]

/-! ### Work generation against the job -/

section generation
variable (m : Mem Byte) (mw : ℤ) (n2 : Word) (h : InRange m mw)
include h

theorem coinbase_read :
    read (storeNonce2 m mw n2) (mw + Field.coinbase.off) (coinbaseLen m mw).toNat =
    splice (jobAt m mw).coinbase (nonce2Offset m mw).toInt.toNat (wordBytes n2).reverse := by
  have s2 := h.nonce2_nonneg
  have s3 := h.nonce2_le
  have hk :
      (mw + Field.coinbase.off + (nonce2Offset m mw).toInt - (mw + Field.coinbase.off)).toNat =
      (nonce2Offset m mw).toInt.toNat := by omega
  simp only [jobAt, storeNonce2]
  rw [read_write_inside _ _ _ _ _ (by omega) (by rw [wordBytes_length]; omega), fill_eq_write,
    read_write_inside _ _ _ _ _ (by omega) (by rw [List.length_replicate]; omega), hk,
    splice_splice _ _ _ _ (by rw [List.length_replicate, read_length]; omega) (by simp),
      wordBytes_bswap32]

theorem branches_fold (is : List ℕ) (root : List Byte) (hr : root.length = 32)
    (his : ∀ i ∈ is, i < (nmerkles m mw).toInt.toNat) :
    is.foldl (fun root (i : ℕ) =>
        ShaDriver.dsha256
          (root ++ read (storeNonce2 m mw n2) (mw + Field.merkles.off + 32 * i) 32) 64) root =
      is.foldl
        (fun root (i : ℕ) => Sha256.dsha256 (root ++ read m (mw + Field.merkles.off + 32 * i) 32))
        root := by
  induction is generalizing root with
  | nil => simp only [List.foldl_nil]
  | cons i is ih =>
    have hi := his i (List.mem_cons_self ..)
    have hle := h.nmerkles_le
    have hbranch : read (storeNonce2 m mw n2) (mw + Field.merkles.off + 32 * i) 32 =
        read m (mw + Field.merkles.off + 32 * i) 32 := by
      apply read_congr
      intro x h1 h2
      exact storeNonce2_field m mw x n2 h.safe .merkles (by decide) (by omega)
        (by simp only [Field.size]; omega)
    have h64 : (root ++ read m (mw + Field.merkles.off + 32 * i) 32).length = 64 := by
      rw [List.length_append, read_length, hr]
    have hnode :=
      ShaDriver.dsha256_eq (root ++ read m (mw + Field.merkles.off + 32 * i) 32) (by omega)
    rw [h64] at hnode
    rw [List.foldl_cons, List.foldl_cons, hbranch, hnode]
    exact ih _ (by simp) fun i' hi' => his i' (List.mem_cons_of_mem _ hi')

theorem merkleRoot_eq : Miner.merkleRoot (storeNonce2 m mw n2) mw = (jobAt m mw).merkleRoot n2 := by
  have hlen : coinbaseLen (storeNonce2 m mw n2) mw = coinbaseLen m mw :=
    storeNonce2_word m mw n2 h.safe _ (by decide) (by decide)
  have hnm : nmerkles (storeNonce2 m mw n2) mw = nmerkles m mw :=
    storeNonce2_word m mw n2 h.safe _ (by decide) (by decide)
  have hcoin := coinbase_read m mw n2 h
  have hclen :
      (splice (jobAt m mw).coinbase (nonce2Offset m mw).toInt.toNat (wordBytes n2).reverse).length =
      (coinbaseLen m mw).toNat := by
    rw [← hcoin, read_length]
  have hle := h.coinbase_le
  have hfirst := ShaDriver.dsha256_eq
    (splice (jobAt m mw).coinbase (nonce2Offset m mw).toInt.toNat (wordBytes n2).reverse) (by omega)
  rw [hclen] at hfirst
  have hfold := branches_fold m mw n2 h (List.range (nmerkles m mw).toInt.toNat)
    (Sha256.dsha256
      (splice (jobAt m mw).coinbase (nonce2Offset m mw).toInt.toNat (wordBytes n2).reverse))
    (by simp) fun i hi => List.mem_range.mp hi
  simp only [Miner.merkleRoot, hlen, hnm, hcoin, hfirst, hfold]
  simp only [JobData.merkleRoot, jobAt, List.foldl_map]

theorem header_read :
    read (storeRoot (storeNonce2 m mw n2) mw (flip32 ((jobAt m mw).merkleRoot n2)))
    (mw + Field.header.off) 128 = (jobAt m mw).workHeader n2 := by
  have s6 := h.merkle_nonneg
  have s7 := h.merkle_le
  have hmoff : merkleOffset (storeNonce2 m mw n2) mw = merkleOffset m mw :=
    storeNonce2_word m mw n2 h.safe _ (by decide) (by decide)
  have hk : (mw + Field.header.off + (merkleOffset m mw).toInt - (mw + Field.header.off)).toNat =
      (merkleOffset m mw).toInt.toNat := by omega
  have hsame : read (storeNonce2 m mw n2) (mw + Field.header.off) 128 =
      read m (mw + Field.header.off) 128 :=
    read_congr _ _ _ _ fun x h1 h2 => storeNonce2_field m mw x n2 h.safe .header (by decide) h1 h2
  rw [JobData.workHeader, storeRoot, hmoff]
  generalize (jobAt m mw).merkleRoot n2 = root
  simp only [jobAt]
  rw [read_write_inside _ _ _ _ _ (by omega) (by rw [flip32_length]; omega), fill_eq_write,
    read_write_inside _ _ _ _ _ (by omega) (by rw [List.length_replicate]; omega), hk, hsame,
    splice_splice _ _ _ _ (by rw [List.length_replicate, read_length]; omega) (by simp)]

end generation

theorem calcMidstate_eq (m : Mem Byte) (mw : ℤ) (header : List Byte)
    (h : read m (mw + Field.header.off) 128 = header) : calcMidstate m mw = workData header := by
  have h64 : (flip64 header).length = 64 := by
    rw [flip64_eq]
    simp
  have hupd := ShaDriver.sha256Update_eq (flip64 header) (by omega)
  rw [h64, List.take_of_length_le (by omega), Sha256.blocks_single _ h64] at hupd
  simp only [calcMidstate, h, hupd]
  rfl

/-- **Work generation is the work of the job.** From a slot whose sizes are in range the code
generates the work of the job the slot holds, for the nonce2 it is given. -/
theorem minerGenNonce2Work_eq (m : Mem Byte) (mw : ℤ) (n2 : Word) (h : InRange m mw) :
    (minerGenNonce2Work m mw n2).2 = (jobAt m mw).work n2 := by
  have hroot := merkleRoot_eq m mw n2 h
  have hheader := header_read m mw n2 h
  have hdata := calcMidstate_eq _ mw _ hheader
  simp only [minerGenNonce2Work, hroot, hheader, hdata, JobData.work]

end HashRatio.Job
