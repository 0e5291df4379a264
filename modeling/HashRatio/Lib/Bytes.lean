import Mathlib.Data.List.GetD
import Mathlib.Tactic.IntervalCases

/-!
# Bytes and big-endian words

Eight-bit bytes, 32-bit words and the byte order that ties them: a word is
stored most significant byte first, and a byte string is read four bytes at a
time. Bit strings are most significant bit first; a shift register takes its bits
in at the low end.
-/

namespace HashRatio.Bytes

abbrev Byte := BitVec 8
abbrev Word := BitVec 32

/-- The four bytes of a word as a big-endian store leaves them. -/
def wordBytes (w : Word) : List Byte :=
  [(w >>> 24).setWidth 8, (w >>> 16).setWidth 8, (w >>> 8).setWidth 8, w.setWidth 8]

def beWord (b0 b1 b2 b3 : Byte) : Word := b0 ++ b1 ++ b2 ++ b3

/-- The `k`-th 32-bit word of a byte string (bytes past the end read as zero). -/
def wordAt (bs : List Byte) (k : ℕ) : Word :=
  beWord (bs.getD (4 * k) 0) (bs.getD (4 * k + 1) 0) (bs.getD (4 * k + 2) 0) (bs.getD (4 * k + 3) 0)

def toWords (n : ℕ) (bs : List Byte) : List Word := (List.range n).map (wordAt bs)

def ofWords (ws : List Word) : List Byte := ws.flatMap wordBytes

@[simp] theorem wordBytes_length (w : Word) : (wordBytes w).length = 4 := rfl

@[simp] theorem ofWords_length (ws : List Word) : (ofWords ws).length = 4 * ws.length := by
  induction ws with
  | nil => rfl
  | cons w ws ih =>
    simp only [ofWords, List.flatMap_cons, List.length_append, wordBytes_length,
      List.length_cons] at ih ⊢
    omega

@[simp] theorem toWords_length (n : ℕ) (bs : List Byte) : (toWords n bs).length = n := by
  simp [toWords]

theorem beWord_wordBytes (w : Word) :
    beWord ((w >>> 24).setWidth 8) ((w >>> 16).setWidth 8) ((w >>> 8).setWidth 8) (w.setWidth 8) =
      w := by
  apply BitVec.eq_of_getLsbD_eq
  intro i hi
  simp only [beWord, BitVec.getLsbD_append, BitVec.getLsbD_setWidth, BitVec.getLsbD_ushiftRight]
  interval_cases i <;> simp

theorem wordBytes_beWord (b0 b1 b2 b3 : Byte) :
    wordBytes (beWord b0 b1 b2 b3) = [b0, b1, b2, b3] := by
  simp only [wordBytes, List.cons.injEq, and_true]
  refine ⟨?_, ?_, ?_, ?_⟩ <;>
    (apply BitVec.eq_of_getLsbD_eq
     intro i hi
     simp only [beWord, BitVec.getLsbD_append, BitVec.getLsbD_setWidth, BitVec.getLsbD_ushiftRight]
     interval_cases i <;> simp)

theorem append_toNat {n m : ℕ} (x : BitVec n) (y : BitVec m) :
    (x ++ y).toNat = x.toNat * 2 ^ m + y.toNat := by
  rw [BitVec.toNat_append, ← Nat.shiftLeft_add_eq_or_of_lt y.isLt, Nat.shiftLeft_eq]

theorem beWord_toNat (b0 b1 b2 b3 : Byte) :
    (beWord b0 b1 b2 b3).toNat =
      b0.toNat * 2 ^ 24 + b1.toNat * 2 ^ 16 + b2.toNat * 2 ^ 8 + b3.toNat := by
  simp only [beWord, append_toNat]
  omega

theorem wordAt_ofWords (ws : List Word) (k : ℕ) : wordAt (ofWords ws) k = ws.getD k 0 := by
  induction ws generalizing k with
  | nil => simp [wordAt, ofWords, beWord]
  | cons w ws ih =>
    have hcons : ofWords (w :: ws) = wordBytes w ++ ofWords ws := rfl
    cases k with
    | zero =>
      rw [hcons]
      exact beWord_wordBytes w
    | succ k =>
      have hshift (j : ℕ) : (ofWords (w :: ws)).getD (4 * (k + 1) + j) 0 =
          (ofWords ws).getD (4 * k + j) 0 := by
        rw [hcons,
          List.getD_append_right _ _ _ _ (by rw [wordBytes_length]; omega), wordBytes_length]
        congr 1
        omega
      have h0 := hshift 0
      simp only [Nat.add_zero] at h0
      rw [List.getD_cons_succ, ← ih k]
      simp only [wordAt, h0, hshift]

theorem toWords_ofWords (ws : List Word) : toWords ws.length (ofWords ws) = ws := by
  apply List.ext_getElem (by simp)
  intro i h1 h2
  simp only [toWords, List.getElem_map, List.getElem_range, wordAt_ofWords]
  exact List.getD_eq_getElem ws 0 h2

theorem wordAt_append_left (xs ys : List Byte) (k : ℕ) (h : 4 * k + 4 ≤ xs.length) :
    wordAt (xs ++ ys) k = wordAt xs k := by
  simp only [wordAt]
  rw [List.getD_append _ _ _ _ (by omega), List.getD_append _ _ _ _ (by omega),
    List.getD_append _ _ _ _ (by omega), List.getD_append _ _ _ _ (by omega)]

theorem toWords_append_left (n : ℕ) (xs ys : List Byte) (h : 4 * n ≤ xs.length) :
    toWords n (xs ++ ys) = toWords n xs := by
  apply List.map_congr_left
  intro k hk
  have hlt := List.mem_range.mp hk
  exact wordAt_append_left xs ys k (by omega)

theorem wordAt_drop (bs : List Byte) (k i : ℕ) :
    wordAt (bs.drop (4 * k)) i = wordAt bs (k + i) := by
  have hget (j : ℕ) : (bs.drop (4 * k)).getD (4 * i + j) 0 = bs.getD (4 * (k + i) + j) 0 := by
    simp only [List.getD_eq_getElem?_getD, List.getElem?_drop]
    congr 2
    omega
  have h0 := hget 0
  simp only [Nat.add_zero] at h0
  simp only [wordAt, h0, hget]

theorem toWords_drop (n : ℕ) (bs : List Byte) (k : ℕ) :
    toWords n (bs.drop (4 * k)) = (List.range n).map fun i => wordAt bs (k + i) :=
  List.map_congr_left fun i _ => wordAt_drop bs k i

theorem toWords_append (a b : ℕ) (xs ys : List Byte) (h : xs.length = 4 * a) :
    toWords (a + b) (xs ++ ys) = toWords a xs ++ toWords b ys := by
  have hdrop : ys = (xs ++ ys).drop (4 * a) := (List.drop_left' h).symm
  rw [← toWords_append_left a xs ys (by omega)]
  conv_rhs => rw [hdrop, toWords_drop]
  simp only [toWords, List.range_add, List.map_append, List.map_map, Function.comp_def,
    List.drop_left' h]

/-- Most significant bit first. -/
def byteBits (b : Byte) : List Bool := (List.range 8).map fun i => b.getLsbD (7 - i)

def bits (bs : List Byte) : List Bool := bs.flatMap byteBits

@[simp] theorem byteBits_length (b : Byte) : (byteBits b).length = 8 := rfl

@[simp] theorem bits_length (bs : List Byte) : (bits bs).length = 8 * bs.length := by
  induction bs with
  | nil => rfl
  | cons b bs ih =>
    simp only [bits, List.flatMap_cons, List.length_append, byteBits_length,
      List.length_cons] at ih ⊢
    omega

theorem bits_append (as bs : List Byte) : bits (as ++ bs) = bits as ++ bits bs :=
  List.flatMap_append

/-! ### Shift registers -/

def shiftIn (b : Byte) (x : Bool) : Byte := b.extractLsb' 0 7 ++ BitVec.ofBool x

theorem byteBits_shiftIn :
    ∀ (b : Byte) (x : Bool), byteBits (shiftIn b x) = (byteBits b).drop 1 ++ [x] := by
  decide +kernel

/-- What was shifted in, after what was there before. -/
theorem byteBits_foldl (xs : List Bool) (b : Byte) :
    byteBits (xs.foldl shiftIn b) = (byteBits b ++ xs).drop xs.length := by
  induction xs generalizing b with
  | nil => simp
  | cons x xs ih =>
    have hlen : 1 ≤ (byteBits b).length := by rw [byteBits_length]; omega
    rw [List.foldl_cons, ih, byteBits_shiftIn, List.length_cons, Nat.add_comm, ← List.drop_drop,
      List.drop_append_of_le_length hlen, List.append_assoc, List.singleton_append]

theorem byteBits_read (xs : List Bool) (h : xs.length = 8) (b : Byte) :
    byteBits (xs.foldl shiftIn b) = xs := by
  rw [byteBits_foldl]
  exact List.drop_left' ((byteBits_length b).trans h.symm)

/-- The register after `k` bits left it and ones came in. -/
def shiftOnes (w : Byte) : ℕ → Byte
  | 0 => w
  | k + 1 => shiftIn (shiftOnes w k) true

/-- The top bit over the first `n` bit times. -/
def shiftedOut (w : Byte) (n : ℕ) : List Bool :=
  (List.range n).map fun k => (shiftOnes w k).getLsbD 7

theorem shiftedOut_succ (w : Byte) (n : ℕ) :
    shiftedOut w (n + 1) = shiftedOut w n ++ [(shiftOnes w n).getLsbD 7] := by
  rw [shiftedOut, List.range_succ, List.map_append]
  rfl

theorem shiftedOut_nine : ∀ w : Byte, shiftedOut w 9 = byteBits w ++ [true] := by
  decide +kernel

end HashRatio.Bytes
