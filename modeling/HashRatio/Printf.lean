import HashRatio.Lib.Bytes
import Mathlib.Data.Nat.Digits.Lemmas

/-!
# m_sprintf (minilibc/printf.c)

The formatter as the source has it: one pass over the format with a flag for left
alignment, a flag for zeros and a width. What it writes is the literal characters
of the format, one string for each conversion, and the NUL.
-/

namespace HashRatio.Printf
open Bytes

structure Pad where
  right : Bool
  zero : Bool
  deriving DecidableEq, Repr

def Pad.none : Pad := ⟨false, false⟩

/-! ### Strings and numbers -/

def prints (string : List Char) (width : ℕ) (pad : Pad) : List Char :=
  let padchar := if 0 < width ∧ pad.zero then '0' else ' '
  let width := if string.length ≥ width then 0 else width - string.length
  if pad.right then string ++ List.replicate width padchar
    else List.replicate width padchar ++ string

def printBufLen : ℕ := 12

def digitChar (letbase : Char) (t : ℕ) : Char :=
  Char.ofNat ((if 10 ≤ t then t + (letbase.toNat - '0'.toNat - 10) else t) + '0'.toNat)

/-- The digits of `u` are put in front of `s`; `fuel` is the room left in `print_buf`. -/
def digitLoop (b : ℕ) (letbase : Char) : ℕ → ℕ → List Char → List Char
  | 0, _, s => s
  | fuel + 1, u, s =>
    if u = 0 then s else digitLoop b letbase fuel (u / b) (digitChar letbase (u % b) :: s)

def printi (i : Word) (b : ℕ) (sg : Bool) (width : ℕ) (pad : Pad) (letbase : Char) : List Char :=
  if i = 0 then prints ['0'] width pad
  else
    let neg := sg && b = 10 && i.msb
    let u := if neg then -i else i
    let s := digitLoop b letbase (printBufLen - 1) u.toNat []
    if neg then
      if width ≠ 0 ∧ pad.zero then '-' :: prints s (width - 1) pad else prints ('-' :: s) width pad
    else prints s width pad

/-! ### m_sprintf -/

/-- What is passed for a conversion: an `int`, or a string up to its NUL (`none` is NULL). -/
inductive Arg where
  | int (i : Word)
  | str (s : Option (List Char))
  deriving DecidableEq, Repr

/-- The character after a `%` and its flags; `none` when the argument is none for it. -/
def convert (c : Char) (pad : Pad) (width : ℕ) (args : List Arg) : Option (List Char × List Arg) :=
  match c, args with
  | 's', .str s :: rest => some (prints (s.getD "(null)".toList) width pad, rest)
  | 'd', .int i :: rest | 'i', .int i :: rest => some (printi i 10 true width pad 'a', rest)
  | 'x', .int i :: rest | 'p', .int i :: rest => some (printi i 16 false width pad 'a', rest)
  | 'X', .int i :: rest => some (printi i 16 false width pad 'A', rest)
  | 'u', .int i :: rest => some (printi i 10 false width pad 'a', rest)
  | 'c', .int i :: rest =>
    let scr := Char.ofNat (i.setWidth 8).toNat
    some (prints (if scr.toNat = 0 then [] else [scr]) width pad, rest)
  | c, args => if c ∈ ['s', 'd', 'i', 'x', 'p', 'X', 'u', 'c'] then none else some ([], args)

inductive Stage where
  | first
  | zeros
  | digits
  deriving DecidableEq, Repr

inductive Mode where
  | text
  | spec (stage : Stage) (pad : Pad) (width : ℕ)
  deriving DecidableEq, Repr

/-- The loop over the format; the result is what it writes, the NUL included. -/
def formatLoop : List Char → Mode → List Arg → Option (List Char)
  -- no format here ends within a flag or a width, where the source would read past the NUL
  | [], _, _ => some ['\x00']
  | c :: cs, .text, args =>
    if c = '%' then formatLoop cs (.spec .first Pad.none 0) args
    else (formatLoop cs .text args).map fun out => c :: out
  | c :: cs, .spec stage pad width, args =>
    if stage = .first ∧ c = '%' then (formatLoop cs .text args).map fun out => c :: out
    else if stage = .first ∧ c = '-' then
      formatLoop cs (.spec .zeros {pad with right := true} width) args
    else if stage ≠ .digits ∧ c = '0' then
      formatLoop cs (.spec .zeros {pad with zero := true} width) args
    else if c.isDigit then
      formatLoop cs (.spec .digits pad (width * 10 + (c.toNat - '0'.toNat))) args
    else (convert c pad width args).bind fun r =>
      (formatLoop cs .text r.2).map fun out => r.1 ++ out

def mSprintf (format : String) (args : List Arg) : Option (List Char) :=
  formatLoop format.toList .text args

/-! ### The length of a number -/

theorem prints_length (string : List Char) (width : ℕ) (pad : Pad) :
    (prints string width pad).length = max string.length width := by
  have hfill : (if string.length ≥ width then 0 else width - string.length) + string.length =
      max string.length width := by
    split <;> omega
  simp only [prints]
  by_cases hright : pad.right = true
  · rw [if_pos hright, List.length_append, List.length_replicate, Nat.add_comm]
    exact hfill
  · rw [if_neg hright, List.length_append, List.length_replicate]
    exact hfill

theorem digitLoop_eq (b : ℕ) (hb : 1 < b) (letbase : Char) (fuel u : ℕ) (s : List Char)
    (h : u < b ^ fuel) :
    digitLoop b letbase fuel u s = (Nat.digits b u).reverse.map (digitChar letbase) ++ s := by
  induction fuel generalizing u s with
  | zero =>
    have hu : u = 0 := by rw [Nat.pow_zero] at h; omega
    rw [hu, Nat.digits_zero]
    rfl
  | succ fuel ih =>
    rw [digitLoop]
    by_cases hu : u = 0
    · rw [if_pos hu, hu, Nat.digits_zero]
      rfl
    · have hdiv : u / b < b ^ fuel := by
        rw [Nat.div_lt_iff_lt_mul (by omega), ← Nat.pow_succ]
        exact h
      rw [if_neg hu, ih _ _ hdiv, Nat.digits_def' hb (Nat.pos_of_ne_zero hu),
        List.reverse_cons, List.map_append, List.append_assoc]
      rfl

/-- A word fits `print_buf` in base 10 and above, its sign and the NUL with it. -/
theorem word_room (b : ℕ) (hb : 10 ≤ b) (u : Word) : u.toNat < b ^ (printBufLen - 2) :=
  Nat.lt_of_lt_of_le (Nat.lt_of_lt_of_le u.isLt (by decide))
    (Nat.pow_le_pow_left hb (printBufLen - 2))

def intLength (i : Word) (b : ℕ) (sg : Bool) : ℕ :=
  if i = 0 then 1
  else
    let neg := sg && b = 10 && i.msb
    (Nat.digits b (if neg then -i else i).toNat).length + if neg then 1 else 0

theorem printi_length (i : Word) (b : ℕ) (hb : 10 ≤ b) (sg : Bool) (width : ℕ) (pad : Pad)
    (letbase : Char) :
    (printi i b sg width pad letbase).length = max (intLength i b sg) width := by
  have hdigits (u : Word) : (digitLoop b letbase (printBufLen - 1) u.toNat []).length =
      (Nat.digits b u.toNat).length := by
    have hroom : u.toNat < b ^ (printBufLen - 1) :=
      Nat.lt_of_lt_of_le (word_room b hb u) (Nat.pow_le_pow_right (by omega) (by decide))
    rw [digitLoop_eq b (by omega) letbase _ _ [] hroom, List.append_nil, List.length_map,
      List.length_reverse]
  rw [printi, intLength]
  by_cases hi : i = 0
  · rw [if_pos hi, if_pos hi, prints_length, List.length_singleton]
  · rw [if_neg hi, if_neg hi]
    simp only
    cases hneg : sg && decide (b = 10) && i.msb with
    | false =>
      simp only [Bool.false_eq_true, if_false, prints_length, hdigits, Nat.add_zero]
    | true =>
      simp only [if_true]
      split
      · rw [List.length_cons, prints_length, hdigits]
        omega
      · rw [prints_length, List.length_cons, hdigits]

theorem intLength_pos (i : Word) (b : ℕ) (sg : Bool) : 1 ≤ intLength i b sg := by
  rw [intLength]
  split
  · exact Nat.le_refl 1
  · rename_i hi
    simp only
    split
    · omega
    · have hne : i.toNat ≠ 0 := fun h => hi (BitVec.eq_of_toNat_eq h)
      have hdigits : Nat.digits b i.toNat ≠ [] := Nat.digits_ne_nil_iff_ne_zero.mpr hne
      exact Nat.le_add_right_of_le (List.length_pos_iff.mpr hdigits)

/-- Without a sign a number has at most `k` characters when it is below `b ^ k`. -/
theorem intLength_le_iff (i : Word) (b : ℕ) (hb : 1 < b) (sg : Bool)
    (hpos : sg = false ∨ i.msb = false) (k : ℕ)
    (hk : 0 < k) : intLength i b sg ≤ k ↔ i.toNat < b ^ k := by
  have hneg : (sg && decide (b = 10) && i.msb) = false := by
    rcases hpos with h | h <;> simp [h]
  rw [intLength]
  split
  · rename_i hi
    rw [hi]
    exact ⟨fun _ => Nat.pow_pos (by omega), fun _ => hk⟩
  · simp only [hneg, Bool.false_eq_true, if_false, Nat.add_zero]
    exact Nat.digits_length_le_iff hb _

/-! ### The length of what is written -/

inductive Item where
  | lit (c : Char)
  | conv (c : Char) (pad : Pad) (width : ℕ)
  deriving DecidableEq, Repr

def parse : List Char → Mode → List Item
  | [], _ => []
  | c :: cs, .text =>
    if c = '%' then parse cs (.spec .first Pad.none 0) else .lit c :: parse cs .text
  | c :: cs, .spec stage pad width =>
    if stage = .first ∧ c = '%' then .lit c :: parse cs .text
    else if stage = .first ∧ c = '-' then parse cs (.spec .zeros {pad with right := true} width)
    else if stage ≠ .digits ∧ c = '0' then parse cs (.spec .zeros {pad with zero := true} width)
    else if c.isDigit then parse cs (.spec .digits pad (width * 10 + (c.toNat - '0'.toNat)))
    else .conv c pad width :: parse cs .text

def render : List Item → List Arg → Option (List Char)
  | [], _ => some ['\x00']
  | .lit c :: is, args => (render is args).map fun out => c :: out
  | .conv c pad width :: is, args =>
    (convert c pad width args).bind fun r => (render is r.2).map fun out => r.1 ++ out

theorem formatLoop_render (cs : List Char) (mode : Mode) (args : List Arg) :
    formatLoop cs mode args = render (parse cs mode) args := by
  induction cs generalizing mode args with
  | nil => rfl
  | cons c cs ih =>
    cases mode with
    | text =>
      rw [formatLoop, parse]
      split
      · exact ih _ _
      · rw [render, ih]
    | spec stage pad width =>
      rw [formatLoop, parse]
      split
      · rw [render, ih]
      · split
        · exact ih _ _
        · split
          · exact ih _ _
          · split
            · exact ih _ _
            · rw [render]
              simp only [ih]

def literals (is : List Item) : ℕ :=
  is.countP fun
    | .lit _ => true
    | .conv _ _ _ => false

def conversions (is : List Item) : List (Char × Pad × ℕ) :=
  is.filterMap fun
    | .lit _ => none
    | .conv c pad width => some (c, pad, width)

def convLength : List (Char × Pad × ℕ) → List Arg → Option ℕ
  | [], _ => some 0
  | (c, pad, width) :: convs, args =>
    (convert c pad width args).bind fun r => (convLength convs r.2).map fun n => r.1.length + n

theorem render_length (is : List Item) (args : List Arg) :
    (render is args).map List.length = (convLength (conversions is) args).map fun n =>
      literals is + n + 1 := by
  induction is generalizing args with
  | nil => rfl
  | cons item is ih =>
    cases item with
    | lit c =>
      have hlits : literals (.lit c :: is) = literals is + 1 := List.countP_cons_of_pos rfl
      have hconvs : conversions (.lit c :: is) = conversions is := List.filterMap_cons_none rfl
      have hcons : (render (.lit c :: is) args).map List.length =
          ((render is args).map List.length).map (· + 1) := by
        rw [render]
        cases render is args <;> rfl
      rw [hcons, ih, hlits, hconvs]
      cases convLength (conversions is) args with
      | none => rfl
      | some n =>
        simp only [Option.map_some, Option.some.injEq]
        omega
    | conv c pad width =>
      have hlits : literals (.conv c pad width :: is) = literals is :=
        List.countP_cons_of_neg Bool.false_ne_true
      have hconvs : conversions (.conv c pad width :: is) = (c, pad, width) :: conversions is :=
        List.filterMap_cons_some rfl
      rw [render, hlits, hconvs, convLength]
      cases convert c pad width args with
      | none => rfl
      | some r =>
        have happend : ((render is r.2).map fun out => r.1 ++ out).map List.length =
            ((render is r.2).map List.length).map (r.1.length + ·) := by
          cases render is r.2 with
          | none => rfl
          | some out => simp only [Option.map_some, List.length_append]
        simp only [Option.bind_some]
        rw [happend, ih]
        cases convLength (conversions is) r.2 with
        | none => rfl
        | some n =>
          simp only [Option.map_some, Option.some.injEq]
          omega

/-- **The literal characters, the conversions and the NUL.** -/
theorem mSprintf_length (format : String) (args : List Arg) :
    (mSprintf format args).map List.length =
      (convLength (conversions (parse format.toList .text)) args).map fun n =>
        literals (parse format.toList .text) + n + 1 := by
  rw [mSprintf, formatLoop_render, render_length]

/- A negative number, zeros up to a width, left alignment, a character. -/
example : mSprintf "%03d|%-4x|%%%c" [.int (BitVec.ofInt 32 (-7)), .int 0xab, .int 0x52] =
    some "-07|ab  |%R\x00".toList := by decide

end HashRatio.Printf
