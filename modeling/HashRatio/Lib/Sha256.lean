import HashRatio.Lib.Bytes

/-!
# SHA-256 (FIPS 180-4)

The block function, the padding and the hash of a byte string, as the standard
states them: functions 4.1.2, constants 4.2.2, padding 5.1.1, initial value
5.3.3, schedule and rounds 6.2.2.
-/

namespace HashRatio.Sha256
open Bytes

/-- A chaining value, also the eight working variables of a round. -/
structure Chain where
  a : Word
  b : Word
  c : Word
  d : Word
  e : Word
  f : Word
  g : Word
  h : Word
  deriving DecidableEq, Repr

def Chain.words (s : Chain) : List Word := [s.a, s.b, s.c, s.d, s.e, s.f, s.g, s.h]
def Chain.ofList (ws : List Word) : Chain :=
  ⟨ws.getD 0 0, ws.getD 1 0, ws.getD 2 0, ws.getD 3 0, ws.getD 4 0, ws.getD 5 0,
    ws.getD 6 0, ws.getD 7 0⟩
def Chain.add (x y : Chain) : Chain :=
  ⟨x.a + y.a, x.b + y.b, x.c + y.c, x.d + y.d, x.e + y.e, x.f + y.f, x.g + y.g, x.h + y.h⟩

@[simp] theorem Chain.words_length (s : Chain) : s.words.length = 8 := rfl
@[simp] theorem Chain.ofList_words (s : Chain) : Chain.ofList s.words = s := rfl

def ch (x y z : Word) : Word := (x &&& y) ^^^ (~~~x &&& z)
def maj (x y z : Word) : Word := (x &&& y) ^^^ (x &&& z) ^^^ (y &&& z)
def bigSigma0 (x : Word) : Word := x.rotateRight 2 ^^^ x.rotateRight 13 ^^^ x.rotateRight 22
def bigSigma1 (x : Word) : Word := x.rotateRight 6 ^^^ x.rotateRight 11 ^^^ x.rotateRight 25
def smallSigma0 (x : Word) : Word := x.rotateRight 7 ^^^ x.rotateRight 18 ^^^ (x >>> 3)
def smallSigma1 (x : Word) : Word := x.rotateRight 17 ^^^ x.rotateRight 19 ^^^ (x >>> 10)

def roundConstants : List Word := [
  0x428a2f98, 0x71374491, 0xb5c0fbcf, 0xe9b5dba5, 0x3956c25b, 0x59f111f1, 0x923f82a4, 0xab1c5ed5,
  0xd807aa98, 0x12835b01, 0x243185be, 0x550c7dc3, 0x72be5d74, 0x80deb1fe, 0x9bdc06a7, 0xc19bf174,
  0xe49b69c1, 0xefbe4786, 0x0fc19dc6, 0x240ca1cc, 0x2de92c6f, 0x4a7484aa, 0x5cb0a9dc, 0x76f988da,
  0x983e5152, 0xa831c66d, 0xb00327c8, 0xbf597fc7, 0xc6e00bf3, 0xd5a79147, 0x06ca6351, 0x14292967,
  0x27b70a85, 0x2e1b2138, 0x4d2c6dfc, 0x53380d13, 0x650a7354, 0x766a0abb, 0x81c2c92e, 0x92722c85,
  0xa2bfe8a1, 0xa81a664b, 0xc24b8b70, 0xc76c51a3, 0xd192e819, 0xd6990624, 0xf40e3585, 0x106aa070,
  0x19a4c116, 0x1e376c08, 0x2748774c, 0x34b0bcb5, 0x391c0cb3, 0x4ed8aa4a, 0x5b9cca4f, 0x682e6ff3,
  0x748f82ee, 0x78a5636f, 0x84c87814, 0x8cc70208, 0x90befffa, 0xa4506ceb, 0xbef9a3f7, 0xc67178f2]

/-- The message schedule after `n` words past the sixteen of the block. -/
def schedule (block : List Word) : ℕ → List Word
  | 0 => block
  | n + 1 =>
    let w := schedule block n
    w ++
      [smallSigma1 (w.getD (14 + n) 0) + w.getD (9 + n) 0 + smallSigma0
        (w.getD (1 + n) 0) + w.getD n 0]

def round (s : Chain) (kw : Word × Word) : Chain :=
  let t1 := s.h + bigSigma1 s.e + ch s.e s.f s.g + kw.1 + kw.2
  let t2 := bigSigma0 s.a + maj s.a s.b s.c
  ⟨t1 + t2, s.a, s.b, s.c, s.d + t1, s.e, s.f, s.g⟩

def compress (s : Chain) (block : List Word) : Chain :=
  s.add ((roundConstants.zip (schedule block 48)).foldl round s)

def initial : Chain :=
  ⟨0x6a09e667, 0xbb67ae85, 0x3c6ef372, 0xa54ff53a, 0x510e527f, 0x9b05688c, 0x1f83d9ab, 0x5be0cd19⟩

/-- The number of zero bytes between the marker and the length. -/
def padZeros (n : ℕ) : ℕ := (119 - n % 64) % 64

def lengthField (n : ℕ) : List Byte :=
  wordBytes (BitVec.ofNat 32 (8 * n / 2 ^ 32)) ++ wordBytes (BitVec.ofNat 32 (8 * n))

def pad (msg : List Byte) : List Byte :=
  msg ++ [0x80] ++ List.replicate (padZeros msg.length) 0 ++ lengthField msg.length

def blocks (bs : List Byte) : List (List Word) :=
  (List.range (bs.length / 64)).map fun i => toWords 16 (bs.drop (64 * i))

def digest (msg : List Byte) : Chain := (blocks (pad msg)).foldl compress initial

def sha256 (msg : List Byte) : List Byte := ofWords (digest msg).words
def dsha256 (msg : List Byte) : List Byte := sha256 (sha256 msg)

@[simp] theorem sha256_length (msg : List Byte) : (sha256 msg).length = 32 := by simp [sha256]

@[simp] theorem dsha256_length (msg : List Byte) : (dsha256 msg).length = 32 := sha256_length _

theorem blocks_append (n : ℕ) (xs ys : List Byte) (h : xs.length = 64 * n) :
    blocks (xs ++ ys) = blocks xs ++ blocks ys := by
  have hx : xs.length / 64 = n := by omega
  have hxy : (xs ++ ys).length / 64 = n + ys.length / 64 := by
    rw [List.length_append]
    omega
  simp only [blocks, hx, hxy, List.range_add, List.map_append, List.map_map]
  congr 1
  · apply List.map_congr_left
    intro i hi
    have hlt := List.mem_range.mp hi
    rw [List.drop_append_of_le_length (by omega)]
    exact toWords_append_left 16 _ _ (by rw [List.length_drop]; omega)
  · apply List.map_congr_left
    intro i _
    have hdrop : (xs ++ ys).drop (64 * (n + i)) = ys.drop (64 * i) := by
      rw [show 64 * (n + i) = xs.length + 64 * i from by omega, List.drop_append,
        List.drop_of_length_le (by omega), List.nil_append]
      congr 1
      omega
    simp only [Function.comp_apply, hdrop]

theorem blocks_single (bs : List Byte) (h : bs.length = 64) : blocks bs = [toWords 16 bs] := by
  simp [blocks, h, List.range_succ]

/-! ### Round by round -/

/-- `W_t` of a block. -/
def word (block : List Word) (t : ℕ) : Word := (schedule block 48).getD t 0

def constant (t : ℕ) : Word := roundConstants.getD t 0

/-- The working variables after `n` rounds. -/
def after (s : Chain) (w : ℕ → Word) : ℕ → Chain
  | 0 => s
  | n + 1 => round (after s w n) (constant n, w n)

theorem after_congr {s : Chain} {w w' : ℕ → Word} {n : ℕ} (h : ∀ t < n, w t = w' t) :
    after s w n = after s w' n := by
  induction n with
  | zero => rfl
  | succ n ih =>
    rw [after, after, ih fun t ht => h t (Nat.lt_succ_of_lt ht), h n (Nat.lt_succ_self n)]

theorem schedule_length (block : List Word) (n : ℕ) :
    (schedule block n).length = block.length + n := by
  induction n with
  | zero => rfl
  | succ n ih => rw [schedule, List.length_append, ih, List.length_singleton, Nat.add_assoc]

/-- Later words leave the earlier ones as they are. -/
theorem schedule_getD (block : List Word) (n k t : ℕ) (ht : t < block.length + n) :
    (schedule block (n + k)).getD t 0 = (schedule block n).getD t 0 := by
  induction k with
  | zero => rfl
  | succ k ih =>
    rw [← Nat.add_assoc, schedule, List.getD_append _ _ _ _ (by rw [schedule_length]; omega), ih]

section word
variable {block : List Word} (h : block.length = 16)
include h

theorem word_lt {t : ℕ} (ht : t < 16) : word block t = block.getD t 0 := by
  have hkeep := schedule_getD block 0 48 t (by omega)
  rwa [Nat.zero_add] at hkeep

theorem word_step {n : ℕ} (hn : n < 48) : word block (16 + n) =
    smallSigma1 (word block (14 + n)) + word block (9 + n) + smallSigma0 (word block (1 + n)) +
      word block n := by
  have hkeep (m t : ℕ) (hm : m ≤ 48) (ht : t < 16 + m) : word block t =
      (schedule block m).getD t 0 := by
    have hstay := schedule_getD block m (48 - m) t (by omega)
    rwa [Nat.add_sub_cancel' hm] at hstay
  have hlen : (schedule block n).length = 16 + n := by rw [schedule_length, h]
  rw [hkeep (n + 1) _ (by omega) (by omega), hkeep n _ (by omega) (by omega : 14 + n < 16 + n),
    hkeep n _ (by omega) (by omega : 9 + n < 16 + n),
      hkeep n _ (by omega) (by omega : 1 + n < 16 + n),
    hkeep n _ (by omega) (by omega : n < 16 + n), schedule,
      List.getD_append_right _ _ _ _ (by omega), hlen, Nat.sub_self]
  rfl

theorem compress_after (s : Chain) : compress s block = s.add (after s (word block) 64) := by
  have hzip : roundConstants.zip (schedule block 48) = (List.range 64).map fun t =>
      (constant t, word block t) := by
    apply List.ext_getElem
    · rw [List.length_zip, schedule_length, h, List.length_map, List.length_range]
      rfl
    · intro t h1 h2
      rw [List.length_map, List.length_range] at h2
      rw [List.getElem_zip, List.getElem_map, List.getElem_range, constant, word,
        List.getD_eq_getElem _ _ h2, List.getD_eq_getElem _ _ (by rw [schedule_length, h]; omega)]
      rfl
  have hfold (n : ℕ) : ((List.range n).map fun t => (constant t, word block t)).foldl round s =
      after s (word block) n := by
    induction n with
    | zero => rfl
    | succ n ih => rw [List.range_succ, List.map_append, List.foldl_append, ih]; rfl
  rw [compress, hzip, hfold]

end word

/- The first example of the standard, evaluated by the kernel. -/
example : (digest [0x61, 0x62, 0x63]).words =
    [0xba7816bf, 0x8f01cfea, 0x414140de, 0x5dae2223, 0xb00361a3, 0x96177a9c,
      0xb410ff61, 0xf20015ad] := by
  decide +kernel

end HashRatio.Sha256
