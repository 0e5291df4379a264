import HashRatio.Lib.Crc
import HashRatio.Protocol

/-!
# crc16.c

The table-driven CRC-16 of a packet's DATA section, generator
`x^16 + x^12 + x^5 + 1`, most significant bit first, register cleared at the
start.
-/

namespace HashRatio.Crc16
open Bytes Protocol Crc

abbrev Reg := BitVec 16

def crc16Table : List Reg := [
  0x0000, 0x1021, 0x2042, 0x3063, 0x4084, 0x50A5, 0x60C6, 0x70E7,
  0x8108, 0x9129, 0xA14A, 0xB16B, 0xC18C, 0xD1AD, 0xE1CE, 0xF1EF,
  0x1231, 0x0210, 0x3273, 0x2252, 0x52B5, 0x4294, 0x72F7, 0x62D6,
  0x9339, 0x8318, 0xB37B, 0xA35A, 0xD3BD, 0xC39C, 0xF3FF, 0xE3DE,
  0x2462, 0x3443, 0x0420, 0x1401, 0x64E6, 0x74C7, 0x44A4, 0x5485,
  0xA56A, 0xB54B, 0x8528, 0x9509, 0xE5EE, 0xF5CF, 0xC5AC, 0xD58D,
  0x3653, 0x2672, 0x1611, 0x0630, 0x76D7, 0x66F6, 0x5695, 0x46B4,
  0xB75B, 0xA77A, 0x9719, 0x8738, 0xF7DF, 0xE7FE, 0xD79D, 0xC7BC,
  0x48C4, 0x58E5, 0x6886, 0x78A7, 0x0840, 0x1861, 0x2802, 0x3823,
  0xC9CC, 0xD9ED, 0xE98E, 0xF9AF, 0x8948, 0x9969, 0xA90A, 0xB92B,
  0x5AF5, 0x4AD4, 0x7AB7, 0x6A96, 0x1A71, 0x0A50, 0x3A33, 0x2A12,
  0xDBFD, 0xCBDC, 0xFBBF, 0xEB9E, 0x9B79, 0x8B58, 0xBB3B, 0xAB1A,
  0x6CA6, 0x7C87, 0x4CE4, 0x5CC5, 0x2C22, 0x3C03, 0x0C60, 0x1C41,
  0xEDAE, 0xFD8F, 0xCDEC, 0xDDCD, 0xAD2A, 0xBD0B, 0x8D68, 0x9D49,
  0x7E97, 0x6EB6, 0x5ED5, 0x4EF4, 0x3E13, 0x2E32, 0x1E51, 0x0E70,
  0xFF9F, 0xEFBE, 0xDFDD, 0xCFFC, 0xBF1B, 0xAF3A, 0x9F59, 0x8F78,
  0x9188, 0x81A9, 0xB1CA, 0xA1EB, 0xD10C, 0xC12D, 0xF14E, 0xE16F,
  0x1080, 0x00A1, 0x30C2, 0x20E3, 0x5004, 0x4025, 0x7046, 0x6067,
  0x83B9, 0x9398, 0xA3FB, 0xB3DA, 0xC33D, 0xD31C, 0xE37F, 0xF35E,
  0x02B1, 0x1290, 0x22F3, 0x32D2, 0x4235, 0x5214, 0x6277, 0x7256,
  0xB5EA, 0xA5CB, 0x95A8, 0x8589, 0xF56E, 0xE54F, 0xD52C, 0xC50D,
  0x34E2, 0x24C3, 0x14A0, 0x0481, 0x7466, 0x6447, 0x5424, 0x4405,
  0xA7DB, 0xB7FA, 0x8799, 0x97B8, 0xE75F, 0xF77E, 0xC71D, 0xD73C,
  0x26D3, 0x36F2, 0x0691, 0x16B0, 0x6657, 0x7676, 0x4615, 0x5634,
  0xD94C, 0xC96D, 0xF90E, 0xE92F, 0x99C8, 0x89E9, 0xB98A, 0xA9AB,
  0x5844, 0x4865, 0x7806, 0x6827, 0x18C0, 0x08E1, 0x3882, 0x28A3,
  0xCB7D, 0xDB5C, 0xEB3F, 0xFB1E, 0x8BF9, 0x9BD8, 0xABBB, 0xBB9A,
  0x4A75, 0x5A54, 0x6A37, 0x7A16, 0x0AF1, 0x1AD0, 0x2AB3, 0x3A92,
  0xFD2E, 0xED0F, 0xDD6C, 0xCD4D, 0xBDAA, 0xAD8B, 0x9DE8, 0x8DC9,
  0x7C26, 0x6C07, 0x5C64, 0x4C45, 0x3CA2, 0x2C83, 0x1CE0, 0x0CC1,
  0xEF1F, 0xFF3E, 0xCF5D, 0xDF7C, 0xAF9B, 0xBFBA, 0x8FD9, 0x9FF8,
  0x6E17, 0x7E36, 0x4E55, 0x5E74, 0x2E93, 0x3EB2, 0x0ED1, 0x1EF0
  ]

def crc16Step (crc : Reg) (b : Byte) : Reg :=
  crc16Table.getD (((crc >>> 8) ^^^ b.setWidth 16) &&& 0xff).toNat 0 ^^^ (crc <<< 8)

def crc16 (buffer : List Byte) : Reg := buffer.foldl crc16Step 0

def generator : Reg := 0x1021

/-! ### The table is the register update -/

/-- Eight bit steps of the register. -/
def byteStep (crc : Reg) (b : Byte) : Reg := (byteBits b).foldl (crcStep generator) crc

theorem byteBits_xor (a b : Byte) : byteBits (a ^^^ b) = xorBits (byteBits a) (byteBits b) := by
  simp [byteBits, xorBits, List.range_succ]

theorem byteStep_xor (c d : Reg) (a b : Byte) :
    byteStep (c ^^^ d) (a ^^^ b) = byteStep c a ^^^ byteStep d b := by
  rw [byteStep, byteBits_xor]
  exact foldl_xor (crcStep generator) (crcStep_xor generator) (byteBits a) (byteBits b) rfl c d

theorem byteStep_low : ∀ l : Byte, byteStep (l.setWidth 16) 0#8 = l.setWidth 16 <<< 8 := by
  decide +kernel

/-- A byte that meets itself in the high half of the register cancels. -/
theorem byteStep_meet : ∀ b : Byte, byteStep (b.setWidth 16 <<< 8) b = 0#16 := by
  decide +kernel

theorem byteStep_table : ∀ h :
    Byte, byteStep (h.setWidth 16 <<< 8) 0#8 = crc16Table.getD h.toNat 0 := by
  decide +kernel

theorem byteStep_high (h b : Byte) :
    byteStep (h.setWidth 16 <<< 8) b = crc16Table.getD (h ^^^ b).toNat 0 := by
  have hsplit : h.setWidth 16 <<< 8 =
      ((h ^^^ b).setWidth 16 <<< 8) ^^^ (b.setWidth 16 <<< 8 : Reg) := by
    rw [← BitVec.shiftLeft_xor_distrib, ← BitVec.setWidth_xor, BitVec.xor_assoc, BitVec.xor_self,
      BitVec.xor_zero]
  have hxor := byteStep_xor ((h ^^^ b).setWidth 16 <<< 8) (b.setWidth 16 <<< 8) 0#8 b
  rw [BitVec.zero_xor, ← hsplit, byteStep_meet, byteStep_table] at hxor
  exact hxor.trans BitVec.xor_zero

theorem halves (c : Reg) :
    c = ((c >>> 8).setWidth 8).setWidth 16 <<< 8 ^^^ ((c.setWidth 8).setWidth 16 : Reg) := by
  apply BitVec.eq_of_getLsbD_eq
  intro i hi
  simp only [BitVec.getLsbD_xor, BitVec.getLsbD_shiftLeft, BitVec.getLsbD_setWidth,
    BitVec.getLsbD_ushiftRight]
  interval_cases i <;> simp

theorem halves_append (c : Reg) : ((c >>> 8).setWidth 8 ++ c.setWidth 8 : Reg) = c := by
  apply BitVec.eq_of_getLsbD_eq
  intro i hi
  simp only [BitVec.getLsbD_append, BitVec.getLsbD_setWidth, BitVec.getLsbD_ushiftRight]
  interval_cases i <;> simp

theorem crc16Step_eq_byteStep (c : Reg) (b : Byte) : crc16Step c b = byteStep c b := by
  have hidx : (((c >>> 8) ^^^ b.setWidth 16) &&& 0xff).toNat =
      ((c >>> 8).setWidth 8 ^^^ b).toNat := by
    have hword : (((c >>> 8) ^^^ b.setWidth 16) &&& 0xff : Reg) =
        ((c >>> 8).setWidth 8 ^^^ b).setWidth 16 := by
      apply BitVec.eq_of_getLsbD_eq
      intro i hi
      simp only [BitVec.getLsbD_and, BitVec.getLsbD_xor, BitVec.getLsbD_setWidth]
      interval_cases i <;> simp
    rw [hword, BitVec.toNat_setWidth]
    exact Nat.mod_eq_of_lt (by have := ((c >>> 8).setWidth 8 ^^^ b).isLt; omega)
  have hlow : c <<< 8 = (c.setWidth 8).setWidth 16 <<< 8 := by
    apply BitVec.eq_of_getLsbD_eq
    intro i hi
    simp only [BitVec.getLsbD_shiftLeft, BitVec.getLsbD_setWidth]
    interval_cases i <;> simp
  have hxor :=
    byteStep_xor (((c >>> 8).setWidth 8).setWidth 16 <<< 8) ((c.setWidth 8).setWidth 16) b 0#8
  rw [BitVec.xor_zero, ← halves, byteStep_high, byteStep_low] at hxor
  rw [hxor, crc16Step, hidx, hlow]

/-- `crc16` runs the bit-serial register over the bits of the buffer. -/
theorem crc16_eq_foldl (buffer : List Byte) :
    crc16 buffer = (bits buffer).foldl (crcStep generator) 0 := by
  have hfold (c : Reg) : buffer.foldl crc16Step c = (bits buffer).foldl (crcStep generator) c := by
    induction buffer generalizing c with
    | nil => rfl
    | cons b bs ih =>
      rw [List.foldl_cons, crc16Step_eq_byteStep, ih]
      simp only [bits, List.flatMap_cons, List.foldl_append]
      rfl
  exact hfold 0

theorem crc16_eq_rem (buffer : List Byte) :
    crc16 buffer = rem generator (bits buffer ++ List.replicate 16 false) := by
  rw [crc16_eq_foldl]
  exact crc_eq_rem generator (by decide) (bits buffer)

end HashRatio.Crc16
