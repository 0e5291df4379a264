import HashRatio.MainLoop

/-!
# Where packets write

Which bytes of the slots an accepted packet changes. A fragment goes to
`(idx - 1) * 32` into its array with IDX as received, so it stays in the array
exactly for the IDX values counted from one.
-/

namespace HashRatio.Bounds
open Bytes Memory MmWork Protocol State Packets

variable {σ : Type}

def InField (mw : ℤ) (f : Field) (x : ℤ) : Prop := mw + f.off ≤ x ∧ x < mw + f.off + f.size

instance (mw : ℤ) (f : Field) (x : ℤ) : Decidable (InField mw f x) :=
  inferInstanceAs (Decidable (_ ∧ _))

def fragField (p : Pkg) : Option Field :=
  match pkgType p with
  | some .coinbase => some .coinbase
  | some .merkles => some .merkles
  | some .header => some .header
  | _ => none

/-- IDX of a fragment counts from 1 to the capacity of its array. -/
def IdxOk (p : Pkg) : Prop := ∀ f ∈ fragField p, 1 ≤ pkgIdx p ∧ 32 * pkgIdx p ≤ f.size

/-- The 32-byte copy of a fragment lies inside its array. -/
def CopyInside (p : Pkg) (mw : ℤ) : Prop :=
  ∀ f ∈ fragField p, mw + f.off ≤ fragAddr p mw f ∧ fragAddr p mw f + 32 ≤ mw + f.off + f.size

instance (p : Pkg) : Decidable (IdxOk p) := inferInstanceAs (Decidable (∀ f ∈ fragField p, _))

theorem copyInside_iff (p : Pkg) (mw : ℤ) : CopyInside p mw ↔ IdxOk p := by
  unfold CopyInside IdxOk
  refine forall₂_congr fun f _ => ?_
  simp only [fragAddr, hrtoPDataLen]
  omega

def pkgFields (p : Pkg) : List Field :=
  match pkgType p with
  | some .static =>
    [.coinbaseLen, .nonce2Offset, .nonce2Size, .merkleOffset, .nmerkles, .diff, .poolNo]
  | some .jobId => [.jobId]
  | some .coinbase => [.coinbase]
  | some .merkles => [.merkles]
  | some .header => [.header]
  | some .target => [.target]
  | some .set => [.nonce2]
  | _ => []

/-! ### One store at a time -/

theorem storeField_out (m : Mem Byte) (mw x : ℤ) (f : Field) (bs : List Byte)
    (hlen : bs.length = f.size) (h : ¬InField mw f x) : storeField m mw f bs x = m x := by
  unfold InField at h
  exact write_out m _ x bs (by omega)

theorem storeFragment_out (p : Pkg) (f : Field) (m : Mem Byte) (mw x : ℤ)
    (hin : mw + f.off ≤ fragAddr p mw f ∧ fragAddr p mw f + 32 ≤ mw + f.off + f.size)
    (h : ¬InField mw f x) : storeFragment p f m mw x = m x := by
  unfold InField at h
  exact write_out m _ x (pkgData p) (by rw [pkgData_length]; omega)

theorem storeStatic_out (p : Pkg) (m : Mem Byte) (mw x : ℤ)
    (h : ∀ f ∈
      [Field.coinbaseLen, .nonce2Offset, .nonce2Size, .merkleOffset, .nmerkles, .diff, .poolNo],
      ¬InField mw f x) : storeStatic p m mw x = m x := by
  simp only [List.forall_mem_cons] at h
  obtain ⟨h1, h2, h3, h4, h5, h6, h7, _⟩ := h
  simp only [storeStatic]
  rw [storeField_out _ _ _ _ _ rfl h7, storeField_out _ _ _ _ _ rfl h6,
    storeField_out _ _ _ _ _ rfl h5, storeField_out _ _ _ _ _ rfl h4,
      storeField_out _ _ _ _ _ rfl h3, storeField_out _ _ _ _ _ rfl h2,
    storeField_out _ _ _ _ _ rfl h1]

theorem storeCoinbase_out (p : Pkg) (m : Mem Byte) (mw x : ℤ)
    (hin : mw + Field.coinbase.off ≤ fragAddr p mw .coinbase ∧
      fragAddr p mw .coinbase + 32 ≤ mw + Field.coinbase.off + Field.coinbase.size)
    (h : ¬InField mw .coinbase x) : storeCoinbase p m mw x = m x := by
  simp only [storeCoinbase]
  rw [storeFragment_out p .coinbase _ mw x hin h]
  split
  · unfold InField at h
    exact fill_out m _ x _ 0 (by omega)
  · rfl

theorem pkgStore_out (p : Pkg) (m : Mem Byte) (mw x : ℤ) (hidx : IdxOk p)
    (h : ∀ f ∈ pkgFields p, ¬InField mw f x) : pkgStore p m mw x = m x := by
  have hin := (copyInside_iff p mw).mpr hidx
  unfold CopyInside fragField at hin
  unfold pkgFields at h
  unfold pkgStore
  cases ht : pkgType p with
  | none => rfl
  | some t =>
    rw [ht] at hin h
    cases t <;>
      simp only [List.forall_mem_singleton, Option.mem_def, Option.some.injEq,
        forall_eq'] at h hin ⊢
    case static => exact storeStatic_out p m mw x h
    case jobId => exact storeField_out m mw x .jobId _ rfl h
    case coinbase => exact storeCoinbase_out p m mw x hin h
    case merkles => exact storeFragment_out p .merkles m mw x hin h
    case header => exact storeFragment_out p .header m mw x hin h
    case target => exact storeField_out m mw x .target _ (pkgData_length p) h

theorem pop_works (j : Jobs) : (j.apply .pop).works = j.works := by
  rcases apply_pop_cases j with ⟨_, h⟩ | ⟨_, h⟩ <;> rw [h]

theorem acceptOp_out (j : Jobs) (p : Pkg) (x : ℤ) (hidx : IdxOk p)
    (h : ∀ f ∈ pkgFields p, ¬InField j.writeSlot f x) :
    (j.apply (acceptOp p)).works x = j.works x := by
  unfold acceptOp
  split
  · rename_i ht
    simp only [pkgFields, ht, List.forall_mem_singleton] at h
    exact storeField_out j.works j.writeSlot x .nonce2 _ rfl h
  · rw [pop_works]
  · exact pkgStore_out p j.works j.writeSlot x hidx h

/-! ### The law of the copies -/

/-- What an accepted packet may do: the copy of a fragment lies inside the array it is for, in the
slot after the current one, and no byte outside the fields of the packet changes. -/
def Contained (b : Drivers.Board σ) (s : Fw σ) (p : Pkg) : Prop :=
  CopyInside p s.jobs.writeSlot ∧
    ∀ x, (∀ f ∈ pkgFields p, ¬InField s.jobs.writeSlot f x) →
      (decodePkg b s p).1.jobs.works x = s.jobs.works x

theorem copy_made (j : Jobs) (p : Pkg) (f : Field) (hf : f ∈ fragField p) :
    read (j.apply (acceptOp p)).works (fragAddr p j.writeSlot f) 32 = pkgData p := by
  have hread (m : Mem Byte) :
      read (storeFragment p f m j.writeSlot) (fragAddr p j.writeSlot f) 32 = pkgData p := by
    have hsame := read_write_same m (fragAddr p j.writeSlot f) (pkgData p)
    rwa [pkgData_length] at hsame
  unfold fragField at hf
  split at hf
  case h_1 ht =>
    cases hf
    simp only [acceptOp, ht, apply_store, Jobs.store, pkgStore, storeCoinbase]
    exact hread _
  case h_2 ht =>
    cases hf
    simp only [acceptOp, ht, apply_store, Jobs.store, pkgStore, storeMerkles]
    exact hread _
  case h_3 ht =>
    cases hf
    simp only [acceptOp, ht, apply_store, Jobs.store, pkgStore, storeHeader]
    exact hread _
  case h_4 => cases hf

/-- **Copies stay in their array exactly when IDX counts from one within it.** -/
theorem contained_iff (b : Drivers.Board σ) (s : Fw σ) (p : Pkg) (h : CrcOk p) :
    (∀ f ∈ fragField p,
      read (decodePkg b s p).1.jobs.works (fragAddr p s.jobs.writeSlot f) 32 = pkgData p) ∧
    (Contained b s p ↔ IdxOk p) := by
  refine ⟨fun f hf => ?_, fun hc => (copyInside_iff p s.jobs.writeSlot).mp hc.1, fun hidx => ?_⟩
  · rw [decodePkg_accept b s p h, acceptPkg_jobs]
    exact copy_made s.jobs p f hf
  · -- in range, so the stores of the packet are the frame lemma's
    refine ⟨(copyInside_iff p s.jobs.writeSlot).mpr hidx, fun x hx => ?_⟩
    rw [decodePkg_accept b s p h, acceptPkg_jobs]
    exact acceptOp_out s.jobs p x hidx hx

theorem contained_iff_header :
    Contained (Drivers.stillBoard 7) (MainLoop.start (Drivers.stillBoard 7) ())
    (hostPkg .header 4 4 []) ↔ IdxOk (hostPkg .header 4 4 []) :=
  (contained_iff _ _ _ (hostPkg_crcOk ..)).2

/-- A fifth HEADER fragment is accepted and overwrites `diff`, which follows the header. -/
theorem header_overrun :
    CrcOk (hostPkg .header 5 4 (List.replicate 32 0xAA)) ∧
    ¬Contained (Drivers.stillBoard 7) (MainLoop.start (Drivers.stillBoard 7) ())
      (hostPkg .header 5 4 (List.replicate 32 0xAA)) ∧
    (MainLoop.start (Drivers.stillBoard 7) ()).jobs.works (slotAddr 1 + Field.diff.off) = 0 ∧
    (decodePkg (Drivers.stillBoard 7) (MainLoop.start (Drivers.stillBoard 7) ())
      (hostPkg .header 5 4 (List.replicate 32 0xAA))).1.jobs.works
        (slotAddr 1 + Field.diff.off) = 0xAA := by
  refine ⟨hostPkg_crcOk .., fun h => ?_, rfl, ?_⟩
  · exact absurd ((copyInside_iff _ _).mp h.1) (by decide)
  · rw [decodePkg_accept _ _ _ (hostPkg_crcOk ..), acceptPkg_jobs]
    decide +kernel

end HashRatio.Bounds
