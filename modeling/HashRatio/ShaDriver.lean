import HashRatio.Lib.Sha256

/-!
# sha256.c

The driver of the SHA-256 engine. The engine is taken at its contract: a word
written to DIN joins the current block, the sixteenth word compresses it, and
the DBL command hashes the 32-byte value again. `din` keeps the words of the
unfinished block and `written` every word since INIT.
-/

namespace HashRatio.ShaDriver
open Bytes Sha256

structure Engine where
  hash : Chain
  din : List Word
  written : List Word

def writeDin (e : Engine) (w : Word) : Engine :=
  if e.din.length = 15 then ⟨compress e.hash (e.din ++ [w]), [], e.written ++ [w]⟩
  else ⟨e.hash, e.din ++ [w], e.written ++ [w]⟩

def sha256Init : Engine := ⟨initial, [], []⟩

/-- `write_block`: sixteen big-endian loads, DONE polled after the last. -/
def writeBlock (e : Engine) (block : List Byte) : Engine := (toWords 16 block).foldl writeDin e

def countBytes (count : ℕ) : List Byte :=
  let bits := BitVec.ofNat 32 (count * 8)
  [((bits &&& 0xff000000) >>> 24).setWidth 8, ((bits &&& 0x00ff0000) >>> 16).setWidth 8,
    ((bits &&& 0x0000ff00) >>> 8).setWidth 8, (bits &&& 0x000000ff).setWidth 8]

/-- `sha256_padding`, on the bytes after the last whole block. -/
def sha256Padding (e : Engine) (input : List Byte) (count : ℕ) : Engine :=
  let lenRem := count % 64
  if 55 < lenRem then
    let block := input.take lenRem ++ [0x80] ++ List.replicate (63 - lenRem) 0
    let block1 := List.replicate 60 0 ++ countBytes count
    writeBlock (writeBlock e block) block1
  else
    writeBlock e (input.take lenRem ++ [0x80] ++ List.replicate (59 - lenRem) 0 ++ countBytes count)

/-- `sha256_update`. The loop counts bytes in an `int`, so that from 2^31 bytes on
it is not entered. -/
def sha256Update (e : Engine) (input : List Byte) (count : ℕ) : Engine :=
  let lenBlocks := if count < 2 ^ 31 then count / 64 else 0
  (List.range lenBlocks).foldl (fun e i => writeBlock e ((input.drop (64 * i)).take 64)) e

def sha256Final (e : Engine) : List Byte := ofWords e.hash.words

def sha256Double (e : Engine) : Engine := {e with hash := digest (ofWords e.hash.words)}

def sha256Run (input : List Byte) (count : ℕ) : Engine :=
  sha256Padding (sha256Update sha256Init input count) (input.drop (count / 64 * 64)) count

def dsha256 (input : List Byte) (count : ℕ) : List Byte :=
  sha256Final (sha256Double (sha256Run input count))

/-! ### The driver computes the standard's hash -/

theorem writeBlock_idle (e : Engine) (block : List Byte) (h : e.din = []) :
    writeBlock e block =
      ⟨compress e.hash (toWords 16 block), [], e.written ++ toWords 16 block⟩ := by
  obtain ⟨hash, din, written⟩ := e
  simp only at h
  subst h
  have hwords : toWords 16 block = [wordAt block 0, wordAt block 1, wordAt block 2, wordAt block 3,
      wordAt block 4, wordAt block 5, wordAt block 6, wordAt block 7,
        wordAt block 8, wordAt block 9,
      wordAt block 10, wordAt block 11, wordAt block 12, wordAt block 13, wordAt block 14,
      wordAt block 15] := rfl
  rw [writeBlock, hwords]
  simp [writeDin]

theorem writeBlocks_idle (bs : List (List Byte)) (e : Engine) (h : e.din = []) :
    bs.foldl writeBlock e =
      ⟨(bs.map (toWords 16)).foldl compress e.hash, [],
        e.written ++ (bs.map (toWords 16)).flatten⟩ := by
  induction bs generalizing e with
  | nil =>
    obtain ⟨hash, din, written⟩ := e
    simp only at h
    subst h
    simp
  | cons b bs ih =>
    rw [List.foldl_cons, ih (writeBlock e b) (by rw [writeBlock_idle e b h]), writeBlock_idle e b h]
    simp

theorem countBytes_eq (count : ℕ) : countBytes count = wordBytes (BitVec.ofNat 32 (8 * count)) := by
  rw [Nat.mul_comm 8]
  simp only [countBytes, wordBytes, List.cons.injEq, and_true]
  refine ⟨?_, ?_, ?_, ?_⟩ <;>
    (apply BitVec.eq_of_getLsbD_eq
     intro i hi
     simp only [BitVec.getLsbD_setWidth, BitVec.getLsbD_ushiftRight, BitVec.getLsbD_and]
     interval_cases i <;> simp)

theorem lengthField_short (count : ℕ) (h : count < 2 ^ 29) :
    lengthField count = List.replicate 4 0 ++ countBytes count := by
  have hhi : 8 * count / 2 ^ 32 = 0 := by omega
  rw [lengthField, hhi, countBytes_eq]
  rfl

theorem toWords_take (bs : List Byte) : toWords 16 (bs.take 64) = toWords 16 bs := by
  by_cases h : 64 ≤ bs.length
  · conv_rhs => rw [← List.take_append_drop 64 bs]
    exact (toWords_append_left 16 _ _ (by simp [h])).symm
  · rw [List.take_of_length_le (by omega)]

/-! ### The blocks of a padded message -/

theorem whole_blocks (input : List Byte) :
    ((List.range (input.length / 64)).map fun i => toWords 16 (input.drop (64 * i))) =
    blocks (input.take (input.length / 64 * 64)) := by
  have hlen : (input.take (input.length / 64 * 64)).length = input.length / 64 * 64 := by
    rw [List.length_take]
    omega
  rw [blocks, hlen, Nat.mul_div_cancel _ (by decide)]
  apply List.map_congr_left
  intro i hi
  have hi' := List.mem_range.mp hi
  rw [List.drop_take,
    ← toWords_take ((input.drop (64 * i)).take (input.length / 64 * 64 - 64 * i)), List.take_take,
    Nat.min_eq_left (by omega), toWords_take]

section tail
variable (rest : List Byte) (count : ℕ) (hrest : rest.length = count % 64) (hc : count < 2 ^ 29)
include hrest hc

/-- Without room for the length the marker ends one block, the length the next. -/
theorem tail_two (hbig : 55 < count % 64) :
    blocks (rest ++ [0x80] ++ List.replicate (padZeros count) 0 ++ lengthField count) =
      [toWords 16 (rest ++ [0x80] ++ List.replicate (63 - count % 64) 0),
        toWords 16 (List.replicate 60 0 ++ countBytes count)] := by
  have hcb : (countBytes count).length = 4 := rfl
  have hz : padZeros count = (63 - count % 64) + 56 := by
    unfold padZeros
    omega
  have hsplit :
      rest ++ [0x80] ++ List.replicate (padZeros count) 0 ++
        (List.replicate 4 0 ++ countBytes count) =
      (rest ++ [0x80] ++ List.replicate (63 - count % 64) 0) ++
        (List.replicate 60 0 ++ countBytes count) := by
    rw [hz, show (60 : ℕ) = 56 + 4 from rfl, ← List.replicate_append_replicate,
      ← List.replicate_append_replicate]
    simp only [List.append_assoc]
  have h1 : (rest ++ [0x80] ++ List.replicate (63 - count % 64) (0 : Byte)).length = 64 := by
    simp only [List.length_append, List.length_replicate, List.length_cons, List.length_nil]
    omega
  have h2 : (List.replicate 60 (0 : Byte) ++ countBytes count).length = 64 := by
    rw [List.length_append, List.length_replicate, hcb]
  rw [lengthField_short count hc, hsplit, blocks_append 1 _ _ (by omega), blocks_single _ h1,
    blocks_single _ h2]
  rfl

/-- The four high bytes of the length are the last zeros of the block. -/
theorem tail_one (hsmall : ¬55 < count % 64) :
    blocks (rest ++ [0x80] ++ List.replicate (padZeros count) 0 ++ lengthField count) =
      [toWords 16 (rest ++ [0x80] ++ List.replicate (59 - count % 64) 0 ++ countBytes count)] := by
  have hcb : (countBytes count).length = 4 := rfl
  have hz : padZeros count + 4 = 59 - count % 64 := by
    unfold padZeros
    omega
  have hsplit :
      rest ++ [0x80] ++ List.replicate (padZeros count) 0 ++
        (List.replicate 4 0 ++ countBytes count) =
      rest ++ [0x80] ++ List.replicate (59 - count % 64) 0 ++ countBytes count := by
    rw [← hz, ← List.replicate_append_replicate]
    simp only [List.append_assoc]
  have h1 :
      (rest ++ [0x80] ++ List.replicate (59 - count % 64) (0 : Byte) ++ countBytes count).length =
        64 := by
    simp only [List.length_append, List.length_replicate, List.length_cons, List.length_nil, hcb]
    omega
  rw [lengthField_short count hc, hsplit, blocks_single _ h1]

end tail

theorem pad_blocks (input : List Byte) :
    blocks (pad input) = blocks (input.take (input.length / 64 * 64)) ++
      blocks
        (input.drop (input.length / 64 * 64) ++ [0x80] ++ List.replicate
          (padZeros input.length) 0 ++ lengthField input.length) := by
  have hpre : (input.take (input.length / 64 * 64)).length = 64 * (input.length / 64) := by
    rw [List.length_take]
    omega
  rw [← blocks_append _ _ _ hpre, pad]
  simp only [← List.append_assoc, List.take_append_drop]

/-! ### The engine over a message -/

theorem sha256Update_eq (input : List Byte) (h : input.length < 2 ^ 29) :
    sha256Update sha256Init input input.length =
      ⟨(blocks (input.take (input.length / 64 * 64))).foldl compress initial, [],
        (blocks (input.take (input.length / 64 * 64))).flatten⟩ := by
  have hlt : input.length < 2 ^ 31 := by omega
  have hfold : (List.range (input.length / 64)).foldl
        (fun e i => writeBlock e ((input.drop (64 * i)).take 64)) sha256Init =
      ((List.range (input.length / 64)).map fun i => (input.drop (64 * i)).take 64).foldl
      writeBlock sha256Init := by
    rw [List.foldl_map]
  have hblocks :
      ((List.range (input.length / 64)).map fun i =>
        (input.drop (64 * i)).take 64).map (toWords 16) =
      blocks (input.take (input.length / 64 * 64)) := by
    rw [← whole_blocks, List.map_map]
    exact List.map_congr_left fun i _ => toWords_take _
  simp only [sha256Update, if_pos hlt, hfold]
  rw [writeBlocks_idle _ _ rfl, hblocks]
  rfl

theorem sha256Padding_eq (e : Engine) (rest : List Byte) (count : ℕ) (he : e.din = [])
    (hrest : rest.length = count % 64) (hc : count < 2 ^ 29) :
    sha256Padding e rest count =
      ⟨(blocks (rest ++ [0x80] ++ List.replicate (padZeros count) 0 ++ lengthField count)).foldl
        compress e.hash, [], e.written ++
          (blocks
            (rest ++ [0x80] ++ List.replicate (padZeros count) 0 ++ lengthField
              count)).flatten⟩ := by
  have htake : rest.take (count % 64) = rest := List.take_of_length_le (by omega)
  simp only [sha256Padding, htake]
  split
  · rename_i hbig
    rw [tail_two rest count hrest hc hbig, writeBlock_idle _ _ (by rw [writeBlock_idle e _ he]),
      writeBlock_idle e _ he]
    simp
  · rename_i hsmall
    rw [tail_one rest count hrest hc hsmall, writeBlock_idle e _ he]
    simp

/-- The engine after a message holds its digest, and the words written are the padded message. -/
theorem sha256Run_eq (input : List Byte) (h : input.length < 2 ^ 29) :
    sha256Run input input.length = ⟨digest input, [], (blocks (pad input)).flatten⟩ := by
  have hdiv : input.length / 64 * 64 ≤ input.length := Nat.div_mul_le_self _ _
  have hrest : (input.drop (input.length / 64 * 64)).length = input.length % 64 := by
    rw [List.length_drop]
    omega
  rw [sha256Run, sha256Update_eq input h, sha256Padding_eq _ _ _ rfl hrest h, digest, pad_blocks]
  simp

theorem dsha256_eq (input : List Byte) (h : input.length < 2 ^ 29) :
    dsha256 input input.length = Sha256.dsha256 input := by
  rw [dsha256, sha256Run_eq input h]
  rfl

end HashRatio.ShaDriver
