import HashRatio.MmWork
import HashRatio.ShaDriver

/-!
# miner.c

Work generation and nonce verification on a slot in memory. Loads and stores of
32-bit words are big-endian (LM32).
-/

namespace HashRatio.Miner
open Bytes Memory MmWork

def bswap16 (value : Word) : Word := ((value &&& 0xff) <<< 8) ||| (value >>> 8)
def bswap32 (value : Word) : Word := (bswap16 (value &&& 0xffff) <<< 16) ||| bswap16 (value >>> 16)

def flipWords (n : ℕ) (src : List Byte) : List Byte := ofWords ((toWords n src).map bswap32)

def flip32 (src : List Byte) : List Byte := flipWords 8 src
def flip80 (src : List Byte) : List Byte := flipWords 20 src

/-- `flip64` puts its words together from single bytes. -/
def flip64 (src : List Byte) : List Byte :=
  ofWords ((List.range 16).map fun i =>
    (src.getD (i * 4 + 0) 0).setWidth 32 ||| ((src.getD (i * 4 + 1) 0).setWidth 32 <<< 8) |||
      ((src.getD (i * 4 + 2) 0).setWidth 32 <<< 16) |||
        ((src.getD (i * 4 + 3) 0).setWidth 32 <<< 24))

structure Work where
  nonce2 : Word
  mmIdx : ℕ
  data : List Byte
  header : List Byte
  deriving DecidableEq, Repr

def calcMidstate (m : Mem Byte) (mw : ℤ) : List Byte :=
  let header := read m (mw + Field.header.off) 128
  let data := flip64 header
  let e := ShaDriver.sha256Update ShaDriver.sha256Init data 64
  flip32 (ShaDriver.sha256Final e) ++ (header.drop 64).take 12

/-- The branch loop of `miner_gen_nonce2_work`: `i` runs over a signed `nmerkles`. -/
def merkleRoot (m : Mem Byte) (mw : ℤ) : List Byte :=
  let count := (coinbaseLen m mw).toNat
  let first := ShaDriver.dsha256 (read m (mw + Field.coinbase.off) count) count
  (List.range (nmerkles m mw).toInt.toNat).foldl
    (fun root (i : ℕ) => ShaDriver.dsha256 (root ++ read m (mw + Field.merkles.off + 32 * i) 32) 64)
    first

/- The two stores of `miner_gen_nonce2_work`, at the nonce2 offset and at the merkle offset of
the slot, whatever these hold. -/
def storeNonce2 (m : Mem Byte) (mw : ℤ) (nonce2 : Word) : Mem Byte :=
  write m (mw + Field.coinbase.off + (nonce2Offset m mw).toInt) (wordBytes (bswap32 nonce2))
def storeRoot (m : Mem Byte) (mw : ℤ) (root : List Byte) : Mem Byte :=
  write m (mw + Field.header.off + (merkleOffset m mw).toInt) root

def minerGenNonce2Work (m : Mem Byte) (mw : ℤ) (nonce2 : Word) : Mem Byte × Work :=
  let m := storeNonce2 m mw nonce2
  let m := storeRoot m mw (flip32 (merkleRoot m mw))
  (m, ⟨nonce2, 0, calcMidstate m mw, read m (mw + Field.header.off) 128⟩)

inductive NonceCheck where
  | hw | valid | diff
  deriving DecidableEq, Repr

/-- The loop of `fulltest` from word `i - 1` down; equal strings leave `rc` at its initial 1. -/
def fulltestFrom (hash target : List Byte) : ℕ → NonceCheck
  | 0 => .valid
  | i + 1 =>
    let h32tmp := bswap32 (wordAt hash i)
    let t32tmp := bswap32 (wordAt target i)
    if t32tmp < h32tmp then .valid
    else if h32tmp < t32tmp then .diff
    else fulltestFrom hash target i

def fulltest (hash target : List Byte) : NonceCheck := fulltestFrom hash target 8

/-- The 80 bytes `test_nonce` hashes: the header with the nonce stored at byte 76, swapped. -/
def swapBuffer (w : Work) (nonce : Word) : List Byte :=
  flip80 (splice w.header (64 + 12) (wordBytes (bswap32 nonce)))

def testNonce (m : Mem Byte) (mw : ℤ) (nonce2 nonce : Word) : Mem Byte × NonceCheck :=
  let r := minerGenNonce2Work m mw nonce2
  let hash1 := ShaDriver.dsha256 (swapBuffer r.2 nonce) 80
  (r.1, if wordAt hash1 7 ≠ 0 then .hw else fulltest hash1 (read r.1 (mw + Field.target.off) 32))

/-! ### Byte order -/

theorem wordBytes_bswap32 (w : Word) : wordBytes (bswap32 w) = (wordBytes w).reverse := by
  simp only [wordBytes, List.reverse_cons, List.reverse_nil, List.nil_append, List.cons_append,
    List.cons.injEq, and_true]
  refine ⟨?_, ?_, ?_, ?_⟩ <;>
    (apply BitVec.eq_of_getLsbD_eq
     intro i hi
     simp only [bswap32, bswap16, BitVec.getLsbD_setWidth, BitVec.getLsbD_ushiftRight,
       BitVec.getLsbD_or, BitVec.getLsbD_shiftLeft, BitVec.getLsbD_and]
     interval_cases i <;> simp)

theorem bswap32_beWord (b0 b1 b2 b3 : Byte) :
    bswap32 (beWord b0 b1 b2 b3) = beWord b3 b2 b1 b0 := by
  have hbytes := wordBytes_bswap32 (beWord b0 b1 b2 b3)
  rw [wordBytes_beWord] at hbytes
  have hback := beWord_wordBytes (bswap32 (beWord b0 b1 b2 b3))
  simp only [wordBytes, List.reverse_cons, List.reverse_nil, List.nil_append, List.cons_append,
    List.cons.injEq, and_true] at hbytes
  obtain ⟨h3, h2, h1, h0⟩ := hbytes
  rw [← hback, h3, h2, h1, h0]

theorem bswap32_bswap32 (w : Word) : bswap32 (bswap32 w) = w := by
  rw [← beWord_wordBytes w, bswap32_beWord, bswap32_beWord]

@[simp] theorem flipWords_length (n : ℕ) (src : List Byte) : (flipWords n src).length = 4 * n := by
  simp [flipWords]

theorem wordAt_flipWords (n : ℕ) (src : List Byte) (k : ℕ) (h : k < n) :
    wordAt (flipWords n src) k = bswap32 (wordAt src k) := by
  rw [flipWords, wordAt_ofWords, List.getD_eq_getElem _ _ (by simpa using h)]
  simp [toWords]

theorem leWord_eq (b0 b1 b2 b3 : Byte) :
    b0.setWidth 32 ||| (b1.setWidth 32 <<< 8) ||| (b2.setWidth 32 <<< 16) |||
      (b3.setWidth 32 <<< 24) = beWord b3 b2 b1 b0 := by
  apply BitVec.eq_of_getLsbD_eq
  intro j hj
  simp only [beWord, BitVec.getLsbD_append, BitVec.getLsbD_or, BitVec.getLsbD_shiftLeft,
    BitVec.getLsbD_setWidth]
  interval_cases j <;> simp

theorem flip64_eq (src : List Byte) : flip64 src = flipWords 16 src := by
  unfold flip64 flipWords toWords
  rw [List.map_map]
  refine congrArg ofWords (List.map_congr_left fun i _ => ?_)
  rw [leWord_eq, Function.comp_apply, wordAt, bswap32_beWord, Nat.mul_comm i 4]
  rfl

end HashRatio.Miner
