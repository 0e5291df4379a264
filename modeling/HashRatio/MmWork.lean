import HashRatio.Lib.Bytes
import HashRatio.Lib.Memory

/-!
# struct mm_work (miner.h) and the array g_mm_works

The three job slots lie one after the other in flat memory. A slot is known by
its address, a field by its offset; on LM32 `size_t`, `int` and `uint32_t` take
four bytes, so nothing is padded.
-/

namespace HashRatio.MmWork
open Bytes Memory

inductive Field where
  | jobId | coinbaseLen | coinbase | nonce2 | nonce2Offset | nonce2Size | merkleOffset | nmerkles
  | merkles | header | diff | poolNo | target
  deriving DecidableEq, Repr

def Field.off : Field → ℤ
  | jobId => 0
  | coinbaseLen => 4
  | coinbase => 8
  | nonce2 => 2056
  | nonce2Offset => 2060
  | nonce2Size => 2064
  | merkleOffset => 2068
  | nmerkles => 2072
  | merkles => 2076
  | header => 2716
  | diff => 2844
  | poolNo => 2848
  | target => 2852

def Field.size : Field → ℕ
  | coinbase => 2048
  | merkles => 640
  | header => 128
  | target => 32
  | _ => 4

/-- `sizeof(struct mm_work)`. -/
def mmWorkSize : ℤ := 2884

def mmBufNum : ℕ := 3

def slotAddr (i : ℕ) : ℤ := 2884 * i

theorem Field.disjoint : ∀ f g :
    Field, f ≠ g → f.off + f.size ≤ g.off ∨ g.off + g.size ≤ f.off := by
  intro f g h
  cases f <;> cases g <;> first | exact absurd rfl h | (simp only [Field.off, Field.size]; omega)

theorem Field.inside (f : Field) : 0 ≤ f.off ∧ f.off + f.size ≤ mmWorkSize := by
  cases f <;> (simp only [Field.off, Field.size, mmWorkSize]; omega)

theorem slots_disjoint (i j : ℕ) (h : i ≠ j) :
    slotAddr i + mmWorkSize ≤ slotAddr j ∨ slotAddr j + mmWorkSize ≤ slotAddr i := by
  unfold slotAddr mmWorkSize
  omega

/-! ### Words in memory -/

/-- `readl` of a big-endian word. -/
def loadWord (m : Mem Byte) (a : ℤ) : Word := wordAt (read m a 4) 0

theorem loadWord_congr (m m' : Mem Byte) (a : ℤ) (h : ∀ x, a ≤ x → x < a + 4 → m x = m' x) :
    loadWord m a = loadWord m' a := by
  rw [loadWord, loadWord, read_congr m m' a 4 h]

theorem loadWord_write_out (m : Mem Byte) (a b : ℤ) (bs : List Byte)
    (h : a + 4 ≤ b ∨ b + bs.length ≤ a) : loadWord (write m b bs) a = loadWord m a := by
  rw [loadWord, read_write_out m a b 4 bs h, loadWord]

theorem loadWord_write_same (m : Mem Byte) (a : ℤ) (w : Word) :
    loadWord (write m a (wordBytes w)) a = w := by
  have hread := read_write_same m a (wordBytes w)
  rw [wordBytes_length] at hread
  rw [loadWord, hread]
  exact beWord_wordBytes w

/-! ### Fields of the slot at `mw` -/

def coinbaseLen (m : Mem Byte) (mw : ℤ) : Word := loadWord m (mw + Field.coinbaseLen.off)
def nonce2 (m : Mem Byte) (mw : ℤ) : Word := loadWord m (mw + Field.nonce2.off)
def nonce2Offset (m : Mem Byte) (mw : ℤ) : Word := loadWord m (mw + Field.nonce2Offset.off)
def merkleOffset (m : Mem Byte) (mw : ℤ) : Word := loadWord m (mw + Field.merkleOffset.off)
def nmerkles (m : Mem Byte) (mw : ℤ) : Word := loadWord m (mw + Field.nmerkles.off)
def poolNo (m : Mem Byte) (mw : ℤ) : Word := loadWord m (mw + Field.poolNo.off)

def storeField (m : Mem Byte) (mw : ℤ) (f : Field) (bs : List Byte) : Mem Byte :=
  write m (mw + f.off) bs

/-- The sizes and offsets of a slot fit its arrays, as the loops of work generation need them. -/
structure InRange (m : Mem Byte) (mw : ℤ) : Prop where
  coinbase_le : (coinbaseLen m mw).toNat ≤ 2048
  nonce2_nonneg : 0 ≤ (nonce2Offset m mw).toInt
  nonce2_le : (nonce2Offset m mw).toInt + 4 ≤ (coinbaseLen m mw).toNat
  nmerkles_nonneg : 0 ≤ (nmerkles m mw).toInt
  nmerkles_le : (nmerkles m mw).toInt ≤ 20
  merkle_nonneg : 0 ≤ (merkleOffset m mw).toInt
  merkle_le : (merkleOffset m mw).toInt ≤ 96

instance (m : Mem Byte) (mw : ℤ) : Decidable (InRange m mw) :=
  decidable_of_iff
    ((coinbaseLen m mw).toNat ≤ 2048 ∧ 0 ≤ (nonce2Offset m mw).toInt ∧
      (nonce2Offset m mw).toInt + 4 ≤ (coinbaseLen m mw).toNat ∧ 0 ≤ (nmerkles m mw).toInt ∧
      (nmerkles m mw).toInt ≤ 20 ∧ 0 ≤ (merkleOffset m mw).toInt ∧ (merkleOffset m mw).toInt ≤ 96)
    ⟨fun ⟨h1, h2, h3, h4, h5, h6, h7⟩ => ⟨h1, h2, h3, h4, h5, h6, h7⟩,
      fun ⟨h1, h2, h3, h4, h5, h6, h7⟩ => ⟨h1, h2, h3, h4, h5, h6, h7⟩⟩

/-- What keeps every access of work generation inside the slot: a cleared slot has it too,
although its coinbase is empty. -/
structure Safe (m : Mem Byte) (mw : ℤ) : Prop where
  coinbase_le : (coinbaseLen m mw).toNat ≤ 2048
  nonce2_nonneg : 0 ≤ (nonce2Offset m mw).toInt
  nonce2_le : (nonce2Offset m mw).toInt + 4 ≤ 2048
  nmerkles_le : (nmerkles m mw).toInt ≤ 20
  merkle_nonneg : 0 ≤ (merkleOffset m mw).toInt
  merkle_le : (merkleOffset m mw).toInt ≤ 96

theorem InRange.safe {m : Mem Byte} {mw : ℤ} (h : InRange m mw) : Safe m mw := by
  have h1 := h.coinbase_le
  have h2 := h.nonce2_le
  exact ⟨h1, h.nonce2_nonneg, by omega, h.nmerkles_le, h.merkle_nonneg, h.merkle_le⟩

end HashRatio.MmWork
