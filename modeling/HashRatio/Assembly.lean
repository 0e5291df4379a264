import HashRatio.Mining
import Mathlib.Data.List.Basic

/-!
# Assembling a job

A job comes in packets: the sizes first, then its fields in fragments of 32 bytes.
The slot after the current one collects them. Work generation and verification may
meanwhile write the place holders of that slot and of the others, which no
fragment is needed for.
-/

namespace HashRatio.Assembly
open Bytes Memory MmWork Miner Job Protocol State Packets Results MainLoop Bounds Slots Mining

variable {σ : Type}

/-! ### A job in packets -/

/-- How many bytes of a field come in packets, and which. -/
def count (job : JobData) : Field → ℕ
  | .jobId => 4
  | .coinbase => job.coinbase.length
  | .merkles => 32 * job.branches.length
  | .header => 128
  | .target => 32
  | _ => 0

def byteAt (job : JobData) : Field → ℕ → Byte
  | .jobId, x => job.jobId.getD x 0
  | .coinbase, x => job.coinbase.getD x 0
  | .merkles, x => (job.branches.getD (x / 32) []).getD (x % 32) 0
  | .header, x => job.header.getD x 0
  | .target, x => job.target.getD x 0
  | _, _ => 0

/-- The place holders of a job. -/
def Hole (job : JobData) : Field → ℕ → Prop
  | .coinbase, x => job.nonce2Offset ≤ x ∧ x < job.nonce2Offset + 4
  | .header, x => job.merkleOffset ≤ x ∧ x < job.merkleOffset + 32
  | _, _ => False

def partOf (p : Pkg) : Option (Field × ℕ) :=
  match pkgType p with
  | some .jobId => some (.jobId, 0)
  | some .target => some (.target, 0)
  | some .coinbase => some (.coinbase, pkgIdx p - 1)
  | some .merkles => some (.merkles, pkgIdx p - 1)
  | some .header => some (.header, pkgIdx p - 1)
  | _ => none

/-- The STATIC packet of a job. -/
structure Announces (job : JobData) (p : Pkg) : Prop where
  type : pkgType p = some .static
  coinbaseLen : dataWord p 0 = BitVec.ofNat 32 job.coinbase.length
  nonce2Offset : dataWord p 1 = BitVec.ofInt 32 job.nonce2Offset
  merkleOffset : dataWord p 3 = BitVec.ofInt 32 job.merkleOffset
  nmerkles : dataWord p 4 = BitVec.ofNat 32 job.branches.length
  poolNo : dataWord p 6 = job.poolNo

structure Carries (job : JobData) (p : Pkg) (q : Field × ℕ) : Prop where
  part : partOf p = some q
  counted : ∀ f ∈ fragField p, 1 ≤ pkgIdx p
  inside : 32 * q.2 < count job q.1
  bytes : ∀ k < 32, 32 * q.2 + k < count job q.1 →
    (pkgData p).getD k 0 = byteAt job q.1 (32 * q.2 + k)

def evPart : Event → Option (Field × ℕ)
  | .pkg p => if CrcOk p then partOf p else none
  | _ => none

/-- What happens between the STATIC of a job and its SET: every fragment comes, those of the
coinbase in order, and nothing else is stored. -/
structure Session (job : JobData) (es : List Event) : Prop where
  carries : ∀ p, Event.pkg p ∈ es → CrcOk p → pkgFields p = [] ∨ ∃ q, Carries job p q
  all : ∀ f i, 32 * i < count job f → (f, i) ∈ es.filterMap evPart
  increasing : ((es.filterMap evPart).filter fun q => q.1 = .coinbase).Pairwise fun q q' =>
    q.2 < q'.2

/-! ### Where a fragment goes -/

theorem count_le (job : JobData) (h : job.InRange) (f : Field) : count job f ≤ f.size := by
  have h1 := h.coinbase_le
  have h2 := h.branches_le
  cases f <;> simp only [count, Field.size] <;> omega

theorem partOf_fragField (p : Pkg) (f : Field) (h : f ∈ fragField p) :
    partOf p = some (f, pkgIdx p - 1) := by
  unfold fragField at h
  unfold partOf
  split at h
  case h_1 ht =>
    cases h
    rw [ht]
  case h_2 ht =>
    cases h
    rw [ht]
  case h_3 ht =>
    cases h
    rw [ht]
  case h_4 => cases h

theorem Carries.idxOk {job : JobData} {p : Pkg} {q : Field × ℕ} (h : Carries job p q)
    (hjob : job.InRange) : IdxOk p := by
  intro f hf
  have hcounted := h.counted f hf
  have hpart := partOf_fragField p f hf
  rw [h.part] at hpart
  have hinside := h.inside
  rw [Option.some.inj hpart] at hinside
  have hle := count_le job hjob f
  have hdvd : 32 ∣ f.size := by
    unfold fragField at hf
    split at hf <;> cases hf <;> decide
  simp only at hinside
  omega

theorem Carries.notStatic {job : JobData} {p : Pkg} {q : Field × ℕ} (h : Carries job p q) :
    pkgType p ≠ some .static := by
  intro ht
  have hpart := h.part
  rw [partOf, ht] at hpart
  cases hpart

theorem Carries.pktOk {job : JobData} {p : Pkg} {q : Field × ℕ} (h : Carries job p q)
    (hjob : job.InRange) : PktOk p :=
  ⟨h.idxOk hjob, fun ht => absurd ht h.notStatic⟩

theorem dataBytes_getD (p : Pkg) (k : ℕ) (h : k < 4) :
    (dataBytes p 0).getD k 0 = (pkgData p).getD k 0 := by
  rw [dataBytes, dataWord, wordAt, wordBytes_beWord]
  obtain rfl | rfl | rfl | rfl : k = 0 ∨ k = 1 ∨ k = 2 ∨ k = 3 := by omega
  all_goals rfl

theorem storeFragment_in (p : Pkg) (f : Field) (m : Mem Byte) (mw : ℤ) (hidx : 1 ≤ pkgIdx p)
    (k : ℕ) (hk : k < 32) :
    storeFragment p f m mw (mw + f.off + (32 * (pkgIdx p - 1) + k : ℕ)) = (pkgData p).getD k 0 := by
  have haddr : mw + f.off + ((32 * (pkgIdx p - 1) + k : ℕ) : ℤ) = fragAddr p mw f + k := by
    simp only [fragAddr, hrtoPDataLen]
    omega
  rw [storeFragment, haddr, write_in' _ _ _ _ 0 (by omega) (by rw [pkgData_length]; omega)]
  congr 1
  omega

theorem pkgStore_in (p : Pkg) (m : Mem Byte) (mw : ℤ) (f : Field) (i k : ℕ)
    (hpart : partOf p = some (f, i)) (hcounted : ∀ f ∈ fragField p, 1 ≤ pkgIdx p) (hk : k < 32)
    (hsize : 32 * i + k < f.size) :
    pkgStore p m mw (mw + f.off + (32 * i + k : ℕ)) = (pkgData p).getD k 0 := by
  unfold partOf at hpart
  split at hpart
  case h_1 ht =>
    cases hpart
    simp only [Field.size] at hsize
    simp only [pkgStore, ht, storeJobId, storeField]
    rw [write_in' _ _ _ _ 0 (by omega) (by rw [dataBytes_length]; omega),
      ← dataBytes_getD p k (by omega)]
    congr 1
    omega
  case h_2 ht =>
    cases hpart
    simp only [pkgStore, ht, storeTarget, storeField]
    rw [write_in' _ _ _ _ 0 (by omega) (by rw [pkgData_length]; omega)]
    congr 1
    omega
  case h_3 ht =>
    cases hpart
    have hidx := hcounted .coinbase (by rw [fragField, ht]; rfl)
    simp only [pkgStore, ht, storeCoinbase]
    exact storeFragment_in p .coinbase _ mw hidx k hk
  case h_4 ht =>
    cases hpart
    have hidx := hcounted .merkles (by rw [fragField, ht]; rfl)
    simp only [pkgStore, ht, storeMerkles]
    exact storeFragment_in p .merkles _ mw hidx k hk
  case h_5 ht =>
    cases hpart
    have hidx := hcounted .header (by rw [fragField, ht]; rfl)
    simp only [pkgStore, ht, storeHeader]
    exact storeFragment_in p .header _ mw hidx k hk
  case h_6 => cases hpart

theorem storeFragment_other (p : Pkg) (f : Field) (m : Mem Byte) (mw x : ℤ) (hidx : 1 ≤ pkgIdx p)
    (h : x < mw + f.off + 32 * (pkgIdx p - 1 : ℕ) ∨ mw + f.off + 32 * (pkgIdx p - 1 : ℕ) + 32 ≤ x) :
    storeFragment p f m mw x = m x := by
  apply write_out
  simp only [fragAddr, hrtoPDataLen, pkgData_length]
  omega

theorem pkgStore_other (p : Pkg) (m : Mem Byte) (mw x : ℤ) (f : Field) (i : ℕ)
    (hpart : partOf p = some (f, i)) (hcounted : ∀ f ∈ fragField p, 1 ≤ pkgIdx p)
    (hx : x < mw + f.off + 32 * i ∨ mw + f.off + 32 * i + 32 ≤ x)
    (hclear : ¬(f = .coinbase ∧ i = 0)) : pkgStore p m mw x = m x := by
  unfold partOf at hpart
  split at hpart
  case h_1 ht =>
    cases hpart
    simp only [pkgStore, ht, storeJobId, storeField]
    exact write_out _ _ _ _ (by rw [dataBytes_length]; omega)
  case h_2 ht =>
    cases hpart
    simp only [pkgStore, ht, storeTarget, storeField]
    exact write_out _ _ _ _ (by rw [pkgData_length]; omega)
  case h_3 ht =>
    cases hpart
    have hidx := hcounted .coinbase (by rw [fragField, ht]; rfl)
    have hne : pkgIdx p ≠ 1 := fun h1 => hclear ⟨rfl, by omega⟩
    simp only [pkgStore, ht, storeCoinbase, if_neg hne]
    exact storeFragment_other p .coinbase m mw x hidx hx
  case h_4 ht =>
    cases hpart
    have hidx := hcounted .merkles (by rw [fragField, ht]; rfl)
    simp only [pkgStore, ht, storeMerkles]
    exact storeFragment_other p .merkles m mw x hidx hx
  case h_5 ht =>
    cases hpart
    have hidx := hcounted .header (by rw [fragField, ht]; rfl)
    simp only [pkgStore, ht, storeHeader]
    exact storeFragment_other p .header m mw x hidx hx
  case h_6 => cases hpart

theorem partOf_pkgFields (p : Pkg) (f : Field) (i : ℕ) (h : partOf p = some (f, i)) :
    pkgFields p = [f] := by
  unfold partOf at h
  unfold pkgFields
  split at h
  case h_6 => cases h
  all_goals
    rename_i ht
    cases h
    rw [ht]

/-! ### The slot being filled -/

/-- The slot has the sizes of the job, and the fragments `got` outside the place holders. -/
structure Filling (job : JobData) (got : Field × ℕ → Prop) (m : Mem Byte) (mw : ℤ) : Prop where
  len_eq : coinbaseLen m mw = BitVec.ofNat 32 job.coinbase.length
  nonce2_eq : nonce2Offset m mw = BitVec.ofInt 32 job.nonce2Offset
  merkle_eq : merkleOffset m mw = BitVec.ofInt 32 job.merkleOffset
  nmerkles_eq : nmerkles m mw = BitVec.ofNat 32 job.branches.length
  pool_eq : poolNo m mw = job.poolNo
  held : ∀ q, got q → ∀ k < 32, 32 * q.2 + k < count job q.1 → ¬Hole job q.1 (32 * q.2 + k) →
    m (mw + q.1.off + (32 * q.2 + k : ℕ)) = byteAt job q.1 (32 * q.2 + k)

theorem toInt_ofInt (z : ℤ) (h1 : 0 ≤ z) (h2 : z < 2 ^ 31) : (BitVec.ofInt 32 z).toInt = z := by
  rw [BitVec.toInt_ofInt]
  exact Int.bmod_eq_of_le (by omega) (by omega)

theorem toInt_ofNat (n : ℕ) (h : n < 2 ^ 31) : (BitVec.ofNat 32 n).toInt = n := by
  rw [← BitVec.ofInt_natCast]
  exact toInt_ofInt n (by omega) (by omega)

section filling
variable {job : JobData} (hjob : job.InRange) {got : Field × ℕ → Prop} {m : Mem Byte} {mw : ℤ}
include hjob

theorem Filling.nonce2_toInt (h : Filling job got m mw) :
    (nonce2Offset m mw).toInt = job.nonce2Offset := by
  have h1 := hjob.nonce2_nonneg
  have h2 := hjob.nonce2_le
  have h3 := hjob.coinbase_le
  rw [h.nonce2_eq, toInt_ofInt _ h1 (by omega)]

theorem Filling.merkle_toInt (h : Filling job got m mw) :
    (merkleOffset m mw).toInt = job.merkleOffset := by
  have h1 := hjob.merkle_nonneg
  have h2 := hjob.merkle_le
  rw [h.merkle_eq, toInt_ofInt _ h1 (by omega)]

theorem Filling.len_toNat (h : Filling job got m mw) :
    (coinbaseLen m mw).toNat = job.coinbase.length := by
  have h1 := hjob.coinbase_le
  rw [h.len_eq, BitVec.toNat_ofNat, Nat.mod_eq_of_lt (by omega)]

theorem Filling.nmerkles_toInt (h : Filling job got m mw) :
    (nmerkles m mw).toInt = job.branches.length := by
  have h1 := hjob.branches_le
  rw [h.nmerkles_eq, toInt_ofNat _ (by omega)]

theorem Filling.inRange (h : Filling job got m mw) : InRange m mw where
  coinbase_le := by rw [h.len_toNat hjob]; exact hjob.coinbase_le
  nonce2_nonneg := by rw [h.nonce2_toInt hjob]; exact hjob.nonce2_nonneg
  nonce2_le := by rw [h.nonce2_toInt hjob, h.len_toNat hjob]; exact hjob.nonce2_le
  nmerkles_nonneg := by rw [h.nmerkles_toInt hjob]; omega
  nmerkles_le := by rw [h.nmerkles_toInt hjob]; exact_mod_cast hjob.branches_le
  merkle_nonneg := by rw [h.merkle_toInt hjob]; exact hjob.merkle_nonneg
  merkle_le := by rw [h.merkle_toInt hjob]; exact hjob.merkle_le

theorem Filling.notScratch (h : Filling job got m mw) (f : Field) (x : ℕ) (hx : x < count job f)
    (hhole : ¬Hole job f x) :
    ¬Scratch m mw (mw + f.off + x) := by
  have hle := count_le job hjob f
  have h1 := hjob.nonce2_nonneg
  have h2 := hjob.nonce2_le
  have h3 := hjob.merkle_nonneg
  have h4 := hjob.merkle_le
  have h5 := hjob.coinbase_le
  unfold Scratch
  rw [h.nonce2_toInt hjob, h.merkle_toInt hjob]
  cases f <;> simp only [count, Hole, Field.off, Field.size] at * <;> omega

theorem Filling.same {m' : Mem Byte} (h : Filling job got m mw) (hsame : SameSlot m m' mw) :
    Filling job got m' mw := by
  have hsafe := (h.inRange hjob).safe
  have hsizes := sameSizes_of_same hsafe hsame
  have hpool : poolNo m' mw = poolNo m mw := same_word hsafe hsame _ (by simp)
  refine ⟨hsizes.1.trans h.len_eq, hsizes.2.1.trans h.nonce2_eq, hsizes.2.2.1.trans h.merkle_eq,
    hsizes.2.2.2.trans h.nmerkles_eq, hpool.trans h.pool_eq, fun q hq k hk hcount hhole => ?_⟩
  have hle := count_le job hjob q.1
  have hin := Field.inside q.1
  rw [hsame _ (by omega) (by omega) (h.notScratch hjob q.1 _ hcount hhole)]
  exact h.held q hq k hk hcount hhole

omit hjob in
theorem Filling.mono {got' : Field × ℕ → Prop} (h : Filling job got m mw)
    (hsub : ∀ q, got' q → got q) :
    Filling job got' m mw :=
  ⟨h.len_eq, h.nonce2_eq, h.merkle_eq, h.nmerkles_eq, h.pool_eq, fun q hq => h.held q (hsub q hq)⟩

theorem Filling.store (h : Filling job got m mw) (p : Pkg) (q : Field × ℕ) (hp : Carries job p q)
    (horder : ∀ q', got q' → q'.1 = .coinbase → q.1 = .coinbase → q'.2 < q.2) :
    Filling job (fun q' => q' = q ∨ got q') (pkgStore p m mw) mw := by
  have hidx := hp.idxOk hjob
  have hfields := partOf_pkgFields p q.1 q.2 hp.part
  have hword (f : Field) (hf : f ≠ q.1) (hs : 4 ≤ f.size) :
      loadWord (pkgStore p m mw) (mw + f.off) = loadWord m (mw + f.off) :=
    pkgStore_word p m mw f hidx (by rw [hfields]; simpa using hf) hs
  have hinside := hp.inside
  have hne (f : Field) (hf : count job f = 0) : f ≠ q.1 := fun he => by
    rw [← he, hf] at hinside
    omega
  refine ⟨(hword _ (hne _ rfl) (by decide)).trans h.len_eq,
    (hword _ (hne _ rfl) (by decide)).trans h.nonce2_eq,
    (hword _ (hne _ rfl) (by decide)).trans h.merkle_eq,
    (hword _ (hne _ rfl) (by decide)).trans h.nmerkles_eq,
    (hword _ (hne _ rfl) (by decide)).trans h.pool_eq, fun q' hq' k hk hcount hhole => ?_⟩
  by_cases heq : q' = q
  · subst heq
    have hle := count_le job hjob q'.1
    rw [pkgStore_in p m mw q'.1 q'.2 k hp.part hp.counted hk (by omega)]
    exact hp.bytes k hk hcount
  · have hgot := hq'.resolve_left heq
    have hold := h.held q' hgot k hk hcount hhole
    rw [← hold]
    by_cases hfield : q'.1 = q.1
    · -- another fragment of the same field
      have hnum : q'.2 ≠ q.2 := fun hn => heq (Prod.ext hfield hn)
      rw [hfield]
      refine pkgStore_other p m mw _ q.1 q.2 hp.part hp.counted (by omega) fun hclear => ?_
      have hlt := horder q' hgot (hfield.trans hclear.1) hclear.1
      omega
    · refine pkgStore_out p m mw _ hidx fun f hf hin => ?_
      rw [hfields, List.mem_singleton] at hf
      have hdis := Field.disjoint q'.1 f fun he => hfield (he.trans hf)
      have hle := count_le job hjob q'.1
      unfold InField at hin
      omega

end filling

theorem announce_filling {job : JobData} (m : Mem Byte) (mw : ℤ) (p : Pkg) (hp : Announces job p) :
    Filling job (fun _ => False) (pkgStore p m mw) mw := by
  have hstore : pkgStore p m mw = storeStatic p m mw := by rw [pkgStore, hp.type]
  obtain ⟨h1, h2, h3, h4, h5⟩ := storeStatic_words p m mw
  rw [hstore]
  exact ⟨h1.trans hp.coinbaseLen, h2.trans hp.nonce2Offset, h3.trans hp.merkleOffset,
    h4.trans hp.nmerkles, h5.trans hp.poolNo, fun _ hq => hq.elim⟩

/-! ### A full slot -/

section full
variable {job : JobData} (hjob : job.InRange) {got : Field × ℕ → Prop} {m : Mem Byte} {mw : ℤ}

def Full (job : JobData) (got : Field × ℕ → Prop) : Prop := ∀ f i, 32 * i < count job f → got (f, i)

theorem Filling.byte (h : Filling job got m mw) (hfull : Full job got) (f : Field) (x : ℕ)
    (hx : x < count job f) (hhole : ¬Hole job f x) : m (mw + f.off + x) = byteAt job f x := by
  have hsplit : 32 * (x / 32) + x % 32 = x := by omega
  have hheld := h.held (f, x / 32) (hfull f (x / 32) (by omega)) (x % 32) (by omega)
  rw [hsplit] at hheld
  exact hheld hx hhole

include hjob

/-- **A slot that was filled holds the job.** -/
theorem Filling.jobAt_eq (h : Filling job got m mw) (hfull : Full job got) :
    jobAt m mw = job.blank := by
  have h1 := hjob.nonce2_nonneg
  have h2 := hjob.nonce2_le
  have h3 := hjob.merkle_nonneg
  have h4 := hjob.merkle_le
  simp only [jobAt, h.nonce2_toInt hjob, h.merkle_toInt hjob, h.nmerkles_toInt hjob,
    h.len_toNat hjob, h.pool_eq, JobData.blank, JobData.mk.injEq, and_true, true_and]
  refine ⟨?_, ?_, ?_, ?_, ?_⟩
  · have hk : (mw + Field.coinbase.off + job.nonce2Offset - (mw + Field.coinbase.off)).toNat =
        job.nonce2Offset.toNat := by omega
    rw [fill_eq_write,
      read_write_inside _ _ _ _ _ (by omega) (by rw [List.length_replicate]; omega), hk]
    refine splice_congr _ _ _ _ fun x hx => ?_
    rw [List.length_replicate] at hx
    by_cases hlt : x < job.coinbase.length
    · have hbyte := h.byte hfull .coinbase x hlt (by simp only [Hole]; omega)
      rw [read_getElem? _ _ _ _ hlt, hbyte, byteAt, List.getD_eq_getElem _ _ hlt,
        List.getElem?_eq_getElem hlt]
    · rw [List.getElem?_eq_none (by rw [read_length]; omega), List.getElem?_eq_none (by omega)]
  · apply List.ext_getElem (by simp)
    intro i hi1 hi2
    have hbranch := hjob.branch_length _ (List.getElem_mem hi2)
    rw [List.getElem_map, List.getElem_range]
    refine read_eq _ _ _ _ 0 hbranch fun k hk => ?_
    have hbyte :=
      h.byte hfull .merkles (32 * i + k) (by simp only [count]; omega)
        (by simp only [Hole, not_false_iff])
    have hdiv : (32 * i + k) / 32 = i := by omega
    have hmod : (32 * i + k) % 32 = k := by omega
    rw [byteAt, hdiv, hmod, List.getD_eq_getElem _ _ hi2] at hbyte
    rw [← hbyte]
    congr 1
    omega
  · have hk : (mw + Field.header.off + job.merkleOffset - (mw + Field.header.off)).toNat =
        job.merkleOffset.toNat := by omega
    have hlen := hjob.header_length
    rw [fill_eq_write,
      read_write_inside _ _ _ _ _ (by omega) (by rw [List.length_replicate]; omega), hk]
    refine splice_congr _ _ _ _ fun x hx => ?_
    rw [List.length_replicate] at hx
    by_cases hlt : x < 128
    · have hbyte := h.byte hfull .header x hlt (by simp only [Hole]; omega)
      rw [read_getElem? _ _ _ _ hlt, hbyte, byteAt, List.getD_eq_getElem _ _ (by omega),
        List.getElem?_eq_getElem (by omega)]
    · rw [List.getElem?_eq_none (by rw [read_length]; omega), List.getElem?_eq_none (by omega)]
  · exact read_eq _ _ _ _ 0 hjob.target_length fun x hx =>
      h.byte hfull .target x hx (by simp only [Hole, not_false_iff])
  · exact read_eq _ _ _ _ 0 hjob.jobId_length fun x hx =>
      h.byte hfull .jobId x hx (by simp only [Hole, not_false_iff])

end full

/-! ### The session -/

theorem ops_sameSlots (j : Jobs) (ops : List JobOp) (h : SlotsOk j) (hok : ∀ op ∈ ops, OpOk op)
    (hstore : ∀ op ∈ ops, ∀ p, op ≠ .store p) :
    SameSlots j.works (Run.run Jobs.apply j ops).works := by
  induction ops generalizing j with
  | nil => exact fun _ _ => sameSlot_refl _ _
  | cons op ops ih =>
    have hfirst := apply_sameSlots j h op (hstore op (List.mem_cons_self ..))
    have hslots := apply_slotsOk j h op (hok op (List.mem_cons_self ..))
    exact sameSlots_trans h.safe hfirst
      (ih (j.apply op) hslots (fun op' h' => hok op' (List.mem_cons_of_mem _ h'))
      fun op' h' => hstore op' (List.mem_cons_of_mem _ h'))

theorem eventOps_store (e : Event) (ops : List JobOp) (h : EventOps e ops) (he : ∀ p, e ≠ .pkg p) :
    ∀ op ∈ ops, ∀ p, op ≠ .store p := by
  rintro op hop p rfl
  rcases eventOps_cases h with ⟨p', hpkg, _⟩ | hown
  · exact he p' hpkg
  · exact hown _ hop

theorem idle_pktOk (p : Pkg) (h : pkgFields p = []) : PktOk p := by
  refine ⟨fun f hf => ?_, fun ht => ?_⟩
  · have hpart := partOf_pkgFields p f _ (partOf_fragField p f hf)
    rw [h] at hpart
    cases hpart
  · rw [pkgFields, ht] at h
    cases h

theorem set_pktOk (p : Pkg) (h : pkgType p = some .set) : PktOk p :=
  ⟨fun f hf => (by rw [fragField, h] at hf; cases hf), fun ht => (by rw [h] at ht; cases ht)⟩

def InSession (job : JobData) (e : Event) : Prop :=
  ∀ p, e = .pkg p → CrcOk p → pkgFields p = [] ∨ ∃ q, Carries job p q

theorem InSession.ok {job : JobData} (hjob : job.InRange) {e : Event} (h : InSession job e) :
    EventOk e ∧ ¬IsSet e := by
  constructor
  · cases e with
    | pkg p =>
      intro hcrc
      rcases h p rfl hcrc with hidle | ⟨q, hq⟩
      · exact idle_pktOk p hidle
      · exact hq.pktOk hjob
    | _ => trivial
  · rintro ⟨p, he, hcrc, ht⟩
    rcases h p he hcrc with hidle | ⟨q, hq⟩
    · rw [pkgFields, ht] at hidle
      cases hidle
    · have hpart := hq.part
      rw [partOf, ht] at hpart
      cases hpart

theorem step_writeSlot (b : Drivers.Board σ) (s : Fw σ) (e : Event) (h : ¬IsSet e) :
    (step b s e).jobs.writeSlot = s.jobs.writeSlot := by
  obtain ⟨ops, hops, hrun⟩ := step_ops b s e
  rw [Jobs.writeSlot, Jobs.writeSlot, Jobs.mmWriteIdx, Jobs.mmWriteIdx, hrun,
    ops_cur s.jobs ops (eventOps_set e ops hops h)]

theorem step_filling {job : JobData} (hjob : job.InRange) (b : Drivers.Board σ) {s : Fw σ}
    (hslots : SlotsOk s.jobs) {got : Field × ℕ → Prop}
    (h : Filling job got s.jobs.works s.jobs.writeSlot) (e : Event) (he : InSession job e)
    (horder : ∀ q, evPart e = some q → ∀ q', got q' → q'.1 = .coinbase →
      q.1 = .coinbase → q'.2 < q.2) :
    Filling job (fun q => evPart e = some q ∨ got q) (step b s e).jobs.works
      (step b s e).jobs.writeSlot := by
  obtain ⟨hok, hset⟩ := he.ok hjob
  rw [step_writeSlot b s e hset]
  cases e with
  | pkg p =>
    by_cases hcrc : CrcOk p
    · have hjobs : (step b s (.pkg p)).jobs = s.jobs.apply (acceptOp p) := by
        rw [step, handlePkg_jobs, if_pos hcrc]
      rw [hjobs]
      rcases he p rfl hcrc with hidle | ⟨q, hq⟩
      · have hworks : (s.jobs.apply (acceptOp p)).works = s.jobs.works :=
          funext fun x => acceptOp_out s.jobs p x (idle_pktOk p hidle).idx (by rw [hidle]; simp)
        rw [hworks]
        refine h.mono fun q hq => hq.resolve_left fun hpart => ?_
        rw [evPart, if_pos hcrc] at hpart
        have hfields := partOf_pkgFields p q.1 q.2 hpart
        rw [hidle] at hfields
        cases hfields
      · have hpart : evPart (.pkg p) = some q := by rw [evPart, if_pos hcrc, hq.part]
        have hstore : acceptOp p = .store p := by
          have hq' := hq.part
          unfold partOf at hq'
          unfold acceptOp
          split at hq'
          case h_6 => cases hq'
          all_goals
            rename_i ht
            rw [ht]
        rw [hstore]
        refine (h.store hjob p q hq (horder q hpart)).mono fun q' hq' => ?_
        rw [hpart, Option.some.injEq] at hq'
        exact hq'.imp_left Eq.symm
    · have hjobs : (step b s (.pkg p)).jobs = s.jobs := by
        rw [step, handlePkg_jobs, if_neg hcrc]
      rw [hjobs]
      refine h.mono fun q hq => hq.resolve_left ?_
      rw [evPart, if_neg hcrc]
      simp
  | _ =>
    obtain ⟨ops, hops, hrun⟩ := step_ops b s _
    rw [hrun]
    have hsame := ops_sameSlots s.jobs ops hslots (eventOps_ok _ ops hops hok)
      (eventOps_store _ ops hops (by simp)) s.jobs.mmWriteIdx (SlotsOk.write_lt s.jobs)
    exact (h.same hjob hsame).mono fun q hq => hq.resolve_left (by simp [evPart])

theorem run_filling {job : JobData} (hjob : job.InRange) (b : Drivers.Board σ) (es : List Event)
    (hes : ∀ e ∈ es, InSession job e)
    (hinc : (es.filterMap evPart).Pairwise fun q q' => q.1 = .coinbase →
      q'.1 = .coinbase → q.2 < q'.2)
    {s : Fw σ} (hslots : SlotsOk s.jobs) {got : Field × ℕ → Prop}
    (h : Filling job got s.jobs.works s.jobs.writeSlot)
    (hgot : ∀ q', got q' → ∀ q ∈ es.filterMap evPart, q'.1 = .coinbase →
      q.1 = .coinbase → q'.2 < q.2) :
    Filling job (fun q => q ∈ es.filterMap evPart ∨ got q) (Run.run (step b) s es).jobs.works
      (Run.run (step b) s es).jobs.writeSlot := by
  induction es generalizing s got with
  | nil => exact h.mono fun q hq => hq.resolve_left (by simp)
  | cons e es ih =>
    have hin := hes e (List.mem_cons_self ..)
    have hmem (q : Field × ℕ) : q ∈ (e :: es).filterMap evPart ↔ evPart e = some q ∨
        q ∈ es.filterMap evPart := by
      simp only [List.mem_filterMap, List.mem_cons, exists_eq_or_imp]
    have hfirst : ∀ q, evPart e = some q → ∀ q' ∈ es.filterMap evPart, q.1 = .coinbase →
        q'.1 = .coinbase → q.2 < q'.2 := by
      intro q hq
      rw [List.filterMap_cons_some hq] at hinc
      exact (List.pairwise_cons.mp hinc).1
    have hrest : (es.filterMap evPart).Pairwise fun q q' => q.1 = .coinbase →
        q'.1 = .coinbase → q.2 < q'.2 := by
      cases hev : evPart e with
      | none => rwa [List.filterMap_cons_none hev] at hinc
      | some q =>
        rw [List.filterMap_cons_some hev] at hinc
        exact (List.pairwise_cons.mp hinc).2
    have hstep := step_filling hjob b hslots h e hin fun q hq q' hq' h1 h2 =>
      hgot q' hq' q ((hmem q).mpr (Or.inl hq)) h1 h2
    have hrun := ih (fun e' he' => hes e' (List.mem_cons_of_mem _ he')) hrest
      (step_slotsOk b s e hslots (hin.ok hjob).1) hstep fun q' hq' q hq =>
        hq'.elim (fun hpart => hfirst q' hpart q hq) fun hold =>
          hgot q' hold q ((hmem q).mpr (Or.inr hq))
    refine hrun.mono fun q hq => ?_
    rw [hmem] at hq
    rcases hq with (hq | hq) | hq
    · exact Or.inr (Or.inl hq)
    · exact Or.inl hq
    · exact Or.inr (Or.inr hq)

/-! ### The closing SET -/

/-- The works made from `s` to `t` are works of the job. -/
def WorksSince (job : JobData) (s t : Fw σ) : Prop :=
  ∃ later, t.jobs.hist = later ++ s.jobs.hist ∧ ∀ w ∈ worksOf later, WorkOf job w

def CurrentIs (job : JobData) (s : Fw σ) : Prop :=
  (jobAt s.jobs.works s.jobs.curSlot).jobId = job.jobId ∧
    (jobAt s.jobs.works s.jobs.curSlot).poolNo = job.poolNo ∧
    (jobAt s.jobs.works s.jobs.curSlot).target = job.target

theorem set_filling {job : JobData} (hjob : job.InRange) (b : Drivers.Board σ) {s : Fw σ}
    (hslots : SlotsOk s.jobs) {got : Field × ℕ → Prop}
    (h : Filling job got s.jobs.works s.jobs.writeSlot) (p : Pkg) (hcrc : CrcOk p)
    (ht : pkgType p = some .set) :
    Filling job got (step b s (.pkg p)).jobs.works (step b s (.pkg p)).jobs.curSlot := by
  have hjobs : (step b s (.pkg p)).jobs = s.jobs.apply (.set (dataWord p 2) (dataWord p 3)) := by
    rw [step, handlePkg_jobs, if_pos hcrc, acceptOp, ht]
  rw [hjobs]
  exact h.same hjob (set_sameSlots s.jobs hslots _ _ s.jobs.mmWriteIdx (SlotsOk.write_lt s.jobs))

theorem announce_inSession_filling {job : JobData} (b : Drivers.Board σ) (s : Fw σ)
    (p : Pkg) (hcrc : CrcOk p) (hp : Announces job p) :
    Filling job (fun _ => False) (step b s (.pkg p)).jobs.works
      (step b s (.pkg p)).jobs.writeSlot := by
  have hjobs : (step b s (.pkg p)).jobs = s.jobs.apply (.store p) := by
    rw [step, handlePkg_jobs, if_pos hcrc, acceptOp, hp.type]
  rw [hjobs]
  exact announce_filling s.jobs.works s.jobs.writeSlot p hp

theorem Announces.ok {job : JobData} (hjob : job.InRange) {p : Pkg} (hp : Announces job p) :
    EventOk (.pkg p) ∧ ¬IsSet (.pkg p) := by
  have h := (announce_filling (fun _ => 0) 0 p hp).inRange hjob
  have hstore : pkgStore p (fun _ => 0) 0 = storeStatic p (fun _ => 0) 0 := by
    rw [pkgStore, hp.type]
  obtain ⟨h1, h2, h3, h4, _⟩ := storeStatic_words p (fun _ => 0) 0
  rw [← hstore] at h1 h2 h3 h4
  obtain ⟨s1, s2, s3, s4, s5, s6, s7⟩ := h
  rw [h1] at s1 s3
  rw [h2] at s2 s3
  rw [h3] at s6 s7
  rw [h4] at s4 s5
  refine ⟨fun _ => ⟨fun f hf => ?_, fun _ => ⟨s1, s2, s3, s4, s5, s6, s7⟩⟩, ?_⟩
  · rw [fragField, hp.type] at hf
    cases hf
  · rintro ⟨p', he, _, ht⟩
    cases he
    rw [hp.type] at ht
    cases ht

/-- **A job is reassembled.** With the packets before and after in range, whatever the session mixes
its fragments with, the works after SET are works of the job, and those before are still works of
the job that was current. -/
theorem reassembled (b : Drivers.Board σ) (env : σ) (job : JobData) (hjob : job.InRange)
    (before : List Event) (announce : Pkg) (es : List Event) (set : Pkg) (after : List Event)
    (hbefore : ∀ e ∈ before, EventOk e)
    (hcrc : CrcOk announce) (hannounce : Announces job announce) (hes : Session job es)
    (hsetCrc : CrcOk set)
    (hset : pkgType set = some .set) (hafter : ∀ e ∈ after, EventOk e ∧ ¬IsSet e) :
    let s := Run.run (step b) (start b env) before
    let t := Run.run (step b) s (.pkg announce :: es)
    let u := step b t (.pkg set)
    let v := Run.run (step b) u after
    WorksSince job u v ∧ CurrentIs job v ∧
      (InRange s.jobs.works s.jobs.curSlot →
        WorksSince (jobAt s.jobs.works s.jobs.curSlot) s t) := by
  intro s t u v
  have hin : ∀ e ∈ es, InSession job e := fun e he p hp hpcrc => hes.carries p (hp ▸ he) hpcrc
  have hsession : ∀ e ∈ .pkg announce :: es, EventOk e ∧ ¬IsSet e := by
    intro e he
    rcases List.mem_cons.mp he with rfl | he
    · exact hannounce.ok hjob
    · exact (hin e he).ok hjob
  have hs : SlotsOk s.jobs := run_slotsOk b (start b env) before slotsOk_init hbefore
  have ht : SlotsOk t.jobs := run_slotsOk b s _ hs fun e he => (hsession e he).1
  have hinc := List.pairwise_filter.mp hes.increasing
  simp only [decide_eq_true_eq] at hinc
  have hfill :
      Filling job (fun q => q ∈ es.filterMap evPart ∨ False) t.jobs.works t.jobs.writeSlot :=
    run_filling hjob b es hin (hinc.imp fun h h1 h2 => h h1 h2)
      (step_slotsOk b s _ hs (hannounce.ok hjob).1)
      (announce_inSession_filling b s announce hcrc hannounce)
      fun _ hgot => hgot.elim
  have hset' := set_filling hjob b ht hfill set hsetCrc hset
  have hjobAt : jobAt u.jobs.works u.jobs.curSlot = job.blank :=
    hset'.jobAt_eq hjob fun f i hfi => Or.inl (hes.all f i hfi)
  have hu : SlotsOk u.jobs := step_slotsOk b t (.pkg set) ht fun _ => set_pktOk set hset
  have hmine := run_mines b (mines_here u.jobs hu (hset'.inRange hjob)) after hafter
  rw [hjobAt] at hmine
  refine ⟨?_, ?_, fun hrange => ?_⟩
  · obtain ⟨later, hhist, hworks⟩ := hmine.grown
    refine ⟨later, hhist, fun w hw => ?_⟩
    rw [WorkOf, ← job.work_blank hjob]
    exact hworks w hw
  · rw [CurrentIs, hmine.job_eq]
    exact ⟨rfl, rfl, rfl⟩
  · exact (run_mines b (mines_here s.jobs hs hrange) _ hsession).grown

/-! ### A session -/

instance (job : JobData) (p : Pkg) (q : Field × ℕ) : Decidable (Carries job p q) :=
  decidable_of_iff
    (partOf p = some q ∧ (∀ f ∈ fragField p, 1 ≤ pkgIdx p) ∧ 32 * q.2 < count job q.1 ∧
      ∀ k < 32, 32 * q.2 + k < count job q.1 → (pkgData p).getD k 0 = byteAt job q.1 (32 * q.2 + k))
    ⟨fun ⟨h1, h2, h3, h4⟩ => ⟨h1, h2, h3, h4⟩, fun ⟨h1, h2, h3, h4⟩ => ⟨h1, h2, h3, h4⟩⟩

/-- What `InSession` asks of a packet, with the fragment looked up. -/
def carriesPart (job : JobData) (p : Pkg) : Prop :=
  CrcOk p → pkgFields p = [] ∨ ∃ q ∈ partOf p, Carries job p q

instance (job : JobData) (p : Pkg) : Decidable (carriesPart job p) :=
  inferInstanceAs (Decidable (CrcOk p → _ ∨ ∃ q ∈ partOf p, _))

def smallJob : JobData where
  coinbase := List.replicate 40 0x11
  nonce2Offset := 4
  merkleOffset := 36
  branches := [List.replicate 32 0x33]
  header := List.replicate 128 0x22
  target := List.replicate 32 0xFF
  jobId := [1, 2, 3, 4]
  poolNo := 7

theorem smallJob_inRange : smallJob.InRange := by
  constructor <;> simp [smallJob]

def smallStatic : Pkg := staticPkg [40, 4, 4, 36, 1, 1, 7]

theorem smallStatic_announces : Announces smallJob smallStatic := by
  constructor <;> decide +kernel

def smallPkgs : List Pkg :=
  [hostPkg .jobId 1 1 [1, 2, 3, 4], hostPkg .coinbase 1 2 (List.replicate 32 0x11),
    hostPkg .target 1 1 (List.replicate 32 0xFF), hostPkg .polling 1 1 [],
    hostPkg .header 3 4 (List.replicate 32 0x22), hostPkg .merkles 1 1 (List.replicate 32 0x33),
    hostPkg .coinbase 2 2 (List.replicate 8 0x11), hostPkg .header 1 4 (List.replicate 32 0x22),
    hostPkg .header 2 4 (List.replicate 32 0x22), hostPkg .header 4 4 (List.replicate 32 0x22)]

def smallSession : List Event := smallPkgs.map .pkg ++ [.dispatch 1]

theorem smallPkgs_carry : ∀ p ∈ smallPkgs, carriesPart smallJob p := by
  have hall : smallPkgs.all (fun p => decide (carriesPart smallJob p)) = true := by decide +kernel
  intro p hp
  exact of_decide_eq_true (List.all_eq_true.mp hall p hp)

theorem smallSession_parts : smallSession.filterMap evPart =
    [(.jobId, 0), (.coinbase, 0), (.target, 0), (.header, 2), (.merkles, 0), (.coinbase, 1),
      (.header, 0), (.header, 1), (.header, 3)] := by
  decide +kernel

theorem smallSession_ok : Session smallJob smallSession where
  carries := fun p hp hcrc => by
    have hmem : p ∈ smallPkgs := by simpa [smallSession] using hp
    exact (smallPkgs_carry p hmem hcrc).imp_right fun ⟨q, _, hq⟩ => ⟨q, hq⟩
  all := fun f i hi => by
    rw [smallSession_parts]
    cases f <;> simp only [count, smallJob, List.length_replicate, List.length_singleton] at hi
    case coinbase =>
      obtain rfl | rfl : i = 0 ∨ i = 1 := by omega
      all_goals decide
    case header =>
      obtain rfl | rfl | rfl | rfl : i = 0 ∨ i = 1 ∨ i = 2 ∨ i = 3 := by omega
      all_goals decide
    all_goals
      obtain rfl : i = 0 := by omega
      first | decide | omega
  increasing := by
    rw [smallSession_parts]
    decide

def givenRun : List Event :=
  [.pkg (staticPkg [60, 0, 4, 36, 0, 1, 1]), .pkg (setPkg [500, 280, 0, 0x1000]), .dispatch 0]

theorem reassembled_small :
    let s := Run.run (step (Drivers.stillBoard 7)) (start (Drivers.stillBoard 7) ()) givenRun
    let t := Run.run (step (Drivers.stillBoard 7)) s (.pkg smallStatic :: smallSession)
    let u := step (Drivers.stillBoard 7) t (.pkg (setPkg [500, 280, 0, 0x1000]))
    let v := Run.run (step (Drivers.stillBoard 7)) u [.dispatch 2]
    WorksSince smallJob u v ∧ CurrentIs smallJob v ∧
      (InRange s.jobs.works s.jobs.curSlot → WorksSince (jobAt s.jobs.works s.jobs.curSlot) s t) :=
  reassembled (Drivers.stillBoard 7) () smallJob smallJob_inRange givenRun smallStatic smallSession
    (setPkg [500, 280, 0, 0x1000]) [.dispatch 2]
    (fun e he => by
      simp only [givenRun, List.mem_cons, List.not_mem_nil, or_false] at he
      rcases he with rfl | rfl | rfl
      · exact fun _ => by decide +kernel
      · exact fun _ => by decide +kernel
      · trivial)
    (hostPkg_crcOk ..) smallStatic_announces smallSession_ok (hostPkg_crcOk ..) (hostPkg_type ..)
    (fun e he => by
      rw [List.mem_singleton.mp he]
      exact ⟨trivial, fun ⟨_, h, _⟩ => by cases h⟩)

def strayRun : List Event :=
  [.pkg (staticPkg [60, 2876, 4, 36, 0, 1, 1]), .pkg (setPkg [500, 280, 0, 0x1000]), .dispatch 0]

def strayed : Fw Unit :=
  step (Drivers.stillBoard 7)
    (Run.run (step (Drivers.stillBoard 7)) (start (Drivers.stillBoard 7) ())
      (strayRun ++ .pkg smallStatic :: smallSession))
    (.pkg (setPkg [500, 280, 0, 0x1000]))

theorem strayed_jobId : (jobAt strayed.jobs.works strayed.jobs.curSlot).jobId ≠ smallJob.jobId := by
  decide +kernel

/-- The work given to chip 1 during the session overwrites the job id that was stored. -/
theorem stray_nonce2 :
    smallJob.InRange ∧ Announces smallJob smallStatic ∧ Session smallJob smallSession ∧
    ¬CurrentIs smallJob strayed :=
  ⟨smallJob_inRange, smallStatic_announces, smallSession_ok, fun h => strayed_jobId h.1⟩

end HashRatio.Assembly
