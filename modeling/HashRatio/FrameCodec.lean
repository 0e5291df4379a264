import HashRatio.Packets

/-!
# Frames the firmware builds

`encode_pkg` writes the low byte of the checksum first, `decode_pkg` reads the
high byte first. A frame of the firmware therefore passes the check of the
firmware exactly when the two bytes are equal.
-/

namespace HashRatio.FrameCodec
open Bytes Protocol Crc16 Crc Drivers State Packets

variable {σ : Type}

/-! ### DATA of a frame -/

/-- What `encode_pkg` copies into DATA. -/
def payload (b : Board σ) (s : Fw σ) (type : Byte) (buf : List Byte) : List Byte :=
  match PkgType.ofByte type with
  | some .ackdetect | some .nonce | some .testRet | some .getFreq => buf
  | some .status =>
    let t := readTemps b s.dev
    let f := readFans b t.1
    wordBytes t.2 ++ wordBytes f.2 ++ wordBytes s.localWork ++ wordBytes s.hwWork
  | _ => []

def padded (bs : List Byte) : List Byte := bs ++ List.replicate (32 - bs.length) 0

/-- The remainder of DATA times `x^16` by the generator `x^16 + x^12 + x^5 + 1`. -/
def dataRem (bs : List Byte) : BitVec 16 :=
  rem generator (bits (padded bs) ++ List.replicate 16 false)

theorem encodePkg_eq (b : Board σ) (s : Fw σ) (type : Byte) (buf : List Byte) (idx cnt : Byte) :
    (encodePkg b s type buf idx cnt).2 =
      putCrc
        (pkgWrite (pkgWrite (fun _ => 0) 0 [hrtoH1, hrtoH2, type, idx, cnt]) 5
          (payload b s type buf)) := by
  have hnil (p : Pkg) : pkgWrite p 5 [] = p := by
    funext i
    unfold pkgWrite
    split <;> rfl
  unfold encodePkg payload
  cases PkgType.ofByte type with
  | none => simp only [hnil]
  | some t => cases t <;> simp only [hnil]

theorem payload_length (b : Board σ) (s : Fw σ) (type : Byte) (buf : List Byte)
    (h : buf.length ≤ 32) :
    (payload b s type buf).length ≤ 32 := by
  unfold payload
  split
  case h_5 => simp
  case h_6 => simp
  all_goals exact h

theorem pkgData_putCrc (p : Pkg) : pkgData (putCrc p) = pkgData p :=
  pkgData_congr _ _ fun i _ h2 => pkgWrite_out p 37 _ i (Or.inl h2)

theorem encodePkg_data (b : Board σ) (s : Fw σ) (type : Byte) (buf : List Byte) (idx cnt : Byte)
    (h : buf.length ≤ 32) :
    pkgData (encodePkg b s type buf idx cnt).2 = padded (payload b s type buf) := by
  have hlen := payload_length b s type buf h
  rw [encodePkg_eq, pkgData_putCrc]
  generalize payload b s type buf = bs at hlen
  apply List.ext_getElem
  · simp only [pkgData_length, padded, List.length_append, List.length_replicate]
    omega
  · intro i h1 _
    rw [pkgData_length] at h1
    simp only [pkgData, List.getElem_ofFn, padded]
    by_cases hi : i < bs.length
    · rw [pkgWrite_in _ 5 bs _ 0 (by simp) (by simp only; omega), List.getElem_append_left hi]
      simp only [Nat.add_sub_cancel_left]
      exact List.getD_eq_getElem _ _ hi
    · rw [pkgWrite_out _ 5 bs _ (Or.inr (by simp only; omega)),
        List.getElem_append_right (by omega),
        List.getElem_replicate]
      exact pkgWrite_out _ 0 _ _ (Or.inr (by simp))

/-! ### The two checksum bytes -/

theorem swapped_iff (c : BitVec 16) :
    (c.setWidth 8 ++ (c >>> 8).setWidth 8 : BitVec 16) = c ↔
      (c >>> 8).setWidth 8 = (c.setWidth 8 : Byte) := by
  have hsplit := halves_append c
  constructor
  · intro h
    have hlow := congrArg (BitVec.setWidth 8) h
    rwa [BitVec.setWidth_append_eq_right] at hlow
  · intro h
    rw [h]
    rw [h] at hsplit
    exact hsplit

theorem putCrc_low (p : Pkg) : putCrc p 37 = (crc16 (pkgData p)).setWidth 8 := by
  have hbyte : putCrc p 37 = (crc16 (pkgData p) &&& 0x00ff).setWidth 8 := rfl
  rw [hbyte]
  generalize crc16 (pkgData p) = c
  apply BitVec.eq_of_getLsbD_eq
  intro i hi
  simp only [BitVec.getLsbD_setWidth, BitVec.getLsbD_and]
  interval_cases i <;> simp

theorem putCrc_high (p : Pkg) : putCrc p 38 = (crc16 (pkgData p) >>> 8).setWidth 8 := by
  have hbyte : putCrc p 38 = ((crc16 (pkgData p) &&& 0xff00) >>> 8).setWidth 8 := rfl
  rw [hbyte]
  generalize crc16 (pkgData p) = c
  apply BitVec.eq_of_getLsbD_eq
  intro i hi
  simp only [BitVec.getLsbD_setWidth, BitVec.getLsbD_ushiftRight, BitVec.getLsbD_and]
  interval_cases i <;> simp

/-- **A frame of `encode_pkg` passes the check of `decode_pkg`** exactly when the remainder of its
DATA has equal bytes. -/
theorem encodePkg_crcOk_iff (b : Board σ) (s : Fw σ) (type : Byte)
    (buf : List Byte) (idx cnt : Byte) (h : buf.length ≤ 32) :
    CrcOk (encodePkg b s type buf idx cnt).2 ↔
      (dataRem (payload b s type buf) >>> 8).setWidth 8 =
        ((dataRem (payload b s type buf)).setWidth 8 : Byte) := by
  have hdata := encodePkg_data b s type buf idx cnt h
  have hcrc : crc16 (padded (payload b s type buf)) = dataRem (payload b s type buf) :=
    crc16_eq_rem _
  rw [crcOk_iff, hdata, hcrc, encodePkg_eq, putCrc_low, putCrc_high, ← pkgData_putCrc,
    ← encodePkg_eq b s type buf idx cnt,
    hdata, hcrc]
  exact swapped_iff _

theorem encodePkg_crcOk_detect :
    CrcOk (encodePkg (stillBoard 7) (Fw.init ()) PkgType.ackdetect.code [1] 1 1).2 ↔
      (dataRem (payload (stillBoard 7) (Fw.init ()) PkgType.ackdetect.code [1]) >>> 8).setWidth 8 =
        ((dataRem (payload (stillBoard 7) (Fw.init ()) PkgType.ackdetect.code [1])).setWidth 8 :
          Byte) :=
  encodePkg_crcOk_iff (stillBoard 7) (Fw.init ()) PkgType.ackdetect.code [1] 1 1 (by decide)

theorem ackdetect_rejected :
    ¬CrcOk (encodePkg (stillBoard 7) (Fw.init ()) PkgType.ackdetect.code [1] 1 1).2 := by
  decide +kernel

end HashRatio.FrameCodec
