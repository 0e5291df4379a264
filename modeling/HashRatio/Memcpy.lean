import HashRatio.Lib.Bytes
import HashRatio.Lib.Memory
import Mathlib.Data.Nat.Bitwise

/-!
# memcpy (minilibc/memcpy.c)

Bytes, halfwords and words are copied one at a time, as the alignment of the two
pointers allows. The accesses are recorded: LM32 faults on a misaligned one.
-/

namespace HashRatio.Memcpy
open Bytes Memory

structure Access where
  store : Bool
  addr : ℤ
  size : ℕ
  deriving DecidableEq, Repr

/-- The memory with the two pointers. Ghost: `accesses`, oldest first. -/
structure Copy where
  mem : Mem Byte
  dst : ℤ
  src : ℤ
  accesses : List Access

/-- `*to++ = *from++` with elements of `size` bytes. -/
def copyUnit (size : ℕ) (s : Copy) : Copy where
  mem := write s.mem s.dst (read s.mem s.src size)
  dst := s.dst + size
  src := s.src + size
  accesses := s.accesses ++ [⟨false, s.src, size⟩, ⟨true, s.dst, size⟩]

/-- `for (; temp; temp--)` around it. -/
def copyUnits (size : ℕ) : ℕ → Copy → Copy
  | 0, s => s
  | temp + 1, s => copyUnits size temp (copyUnit size s)

/-- From both pointers even on. -/
def copyEven (s : Copy) (n : ℕ) : Copy :=
  let fix := n > 2 ∧ s.dst % 4 / 2 = 1
  let s := if fix then copyUnit 2 s else s
  let n := if fix then n - 2 else n
  if s.src % 4 / 2 = 1 then
    let s := copyUnits 2 (n >>> 1) s
    if n &&& 1 ≠ 0 then copyUnit 1 s else s
  else
    let s := copyUnits 4 (n >>> 2) s
    let s := if n &&& 2 ≠ 0 then copyUnit 2 s else s
    if n &&& 1 ≠ 0 then copyUnit 1 s else s

/-- What it leaves and `xto`, the value returned. -/
def memcpy (m : Mem Byte) (dst src : ℤ) (n : ℕ) : Copy × ℤ :=
  let s : Copy := ⟨m, dst, src, []⟩
  if n = 0 then (s, dst)
  else
    let odd := s.dst % 2 = 1
    let s := if odd then copyUnit 1 s else s
    let n := if odd then n - 1 else n
    if s.src % 2 = 1 then (copyUnits 1 n s, dst)
    else (copyEven s n, dst)

/-! ### Progress -/

/-- An access is aligned and stays in the region it belongs to. -/
structure Access.Ok (a : Access) (dst src : ℤ) (n : ℕ) : Prop where
  aligned : (a.size : ℤ) ∣ a.addr
  inside : if a.store then dst ≤ a.addr ∧ a.addr + a.size ≤ dst + n else src ≤ a.addr ∧
    a.addr + a.size ≤ src + n

/-- The first `k` of `n` bytes are copied. -/
structure Copied (m : Mem Byte) (dst src : ℤ) (n k : ℕ) (s : Copy) : Prop where
  mem : s.mem = write m dst (read m src k)
  dst_eq : s.dst = dst + k
  src_eq : s.src = src + k
  le : k ≤ n
  ok : ∀ a ∈ s.accesses, a.Ok dst src n

section progress
variable {m : Mem Byte} {dst src : ℤ} {n k : ℕ} {s : Copy}

theorem copied_start (m : Mem Byte) (dst src : ℤ) (n : ℕ) :
    Copied m dst src n 0 ⟨m, dst, src, []⟩ where
  mem := by
    funext x
    exact (write_out m dst x [] (by rw [List.length_nil]; omega)).symm
  dst_eq := (Int.add_zero dst).symm
  src_eq := (Int.add_zero src).symm
  le := Nat.zero_le n
  ok := fun a ha => by cases ha

theorem Copied.unit (h : Copied m dst src n k s)
    (hdisjoint : dst + n ≤ src ∨ src + n ≤ dst) (size : ℕ)
    (hle : k + size ≤ n) (hdst : (size : ℤ) ∣ s.dst) (hsrc : (size : ℤ) ∣ s.src) :
    Copied m dst src n (k + size) (copyUnit size s) := by
  have hd := h.dst_eq
  have hs := h.src_eq
  have hload : read s.mem s.src size = read m (src + k) size := by
    rw [h.mem, hs]
    exact read_write_out m (src + k) dst size _ (by rw [read_length]; omega)
  refine ⟨?_, by simp only [copyUnit]; omega, by simp only [copyUnit]; omega, hle, fun a ha => ?_⟩
  · have happend := write_append m dst (read m src k) (read m (src + k) size)
    rw [read_length, ← read_add, ← hd, ← h.mem, ← hload] at happend
    exact happend
  · simp only [copyUnit, List.mem_append, List.mem_cons, List.not_mem_nil, or_false] at ha
    rcases ha with ha | rfl | rfl
    · exact h.ok a ha
    · exact ⟨hsrc, by simp only [Bool.false_eq_true, if_false]; omega⟩
    · exact ⟨hdst, by simp only [if_true]; omega⟩

theorem Copied.units (h : Copied m dst src n k s)
    (hdisjoint : dst + n ≤ src ∨ src + n ≤ dst) (size temp : ℕ)
    (hle : k + size * temp ≤ n) (hdst : (size : ℤ) ∣ s.dst) (hsrc : (size : ℤ) ∣ s.src) :
    Copied m dst src n (k + size * temp) (copyUnits size temp s) ∧
      (copyUnits size temp s).dst = s.dst + size * temp ∧
      (copyUnits size temp s).src = s.src + size * temp := by
  induction temp generalizing k s with
  | zero => exact ⟨h, by simp [copyUnits], by simp [copyUnits]⟩
  | succ temp ih =>
    have hsize : size * (temp + 1) = size + size * temp := by rw [Nat.mul_succ, Nat.add_comm]
    have hcast : (size : ℤ) * ((temp + 1 : ℕ) : ℤ) = size + size * temp := by exact_mod_cast hsize
    have hunit := h.unit hdisjoint size (by omega) hdst hsrc
    obtain ⟨hcopied, hd, hs⟩ :=
      ih hunit (by omega) (Int.dvd_add hdst (Int.dvd_refl _)) (Int.dvd_add hsrc (Int.dvd_refl _))
    rw [Nat.add_assoc, ← hsize] at hcopied
    refine ⟨hcopied, ?_, ?_⟩
    · rw [copyUnits, hd, copyUnit, hcast, Int.add_assoc]
    · rw [copyUnits, hs, copyUnit, hcast, Int.add_assoc]

theorem bit1_iff (r : ℕ) : r &&& 2 ≠ 0 ↔ r % 4 / 2 = 1 := by
  have hand : r &&& 2 = (r.testBit 1).toNat * 2 := Nat.and_two_pow r 1
  rw [hand, Nat.testBit_eq_decide_div_mod_eq]
  by_cases hbit : r / 2 ^ 1 % 2 = 1
  · rw [decide_eq_true hbit]
    exact iff_of_true (by decide) (by omega)
  · rw [decide_eq_false hbit]
    exact iff_of_false (by decide) (by omega)

theorem Copied.last (h : Copied m dst src n k s) (hdisjoint : dst + n ≤ src ∨ src + n ≤ dst) (r : ℕ)
    (hle : k + r % 2 = n) : Copied m dst src n n (if r &&& 1 ≠ 0 then copyUnit 1 s else s) := by
  rw [Nat.and_one_is_mod]
  by_cases hodd : r % 2 = 0
  · have hk : k = n := by omega
    rw [if_neg (not_not_intro hodd)]
    rw [hk] at h
    exact h
  · have hk : k + 1 = n := by omega
    have hunit := h.unit hdisjoint 1 (by omega) (Int.one_dvd _) (Int.one_dvd _)
    rw [hk] at hunit
    rw [if_pos hodd]
    exact hunit

theorem Copied.halves (h : Copied m dst src n k s)
    (hdisjoint : dst + n ≤ src ∨ src + n ≤ dst) (r : ℕ)
    (hle : k + r = n) (hdst : (2 : ℤ) ∣ s.dst) (hsrc : (2 : ℤ) ∣ s.src) :
    Copied m dst src n n (if r &&& 1 ≠ 0 then copyUnit 1 (copyUnits 2 (r >>> 1) s)
      else copyUnits 2 (r >>> 1) s) := by
  have hhalf : r >>> 1 = r / 2 := Nat.shiftRight_eq_div_pow r 1
  have hunits := (h.units hdisjoint 2 (r / 2) (by omega) hdst hsrc).1
  rw [hhalf]
  exact hunits.last hdisjoint r (by omega)

theorem Copied.words (h : Copied m dst src n k s)
    (hdisjoint : dst + n ≤ src ∨ src + n ≤ dst) (temp : ℕ)
    (hle : k + 4 * temp ≤ n) (hdst : temp = 0 ∨ (4 : ℤ) ∣ s.dst) (hsrc : (4 : ℤ) ∣ s.src) :
    Copied m dst src n (k + 4 * temp) (copyUnits 4 temp s) ∧
      (copyUnits 4 temp s).dst = s.dst + 4 * temp ∧
      (copyUnits 4 temp s).src = s.src + 4 * temp := by
  rcases hdst with rfl | hdst
  · exact ⟨h, by simp [copyUnits], by simp [copyUnits]⟩
  · exact h.units hdisjoint 4 temp hle hdst hsrc

theorem Copied.half (h : Copied m dst src n k s) (hdisjoint : dst + n ≤ src ∨ src + n ≤ dst) (r : ℕ)
    (hle : k + r % 4 / 2 * 2 ≤ n) (hdst : (2 : ℤ) ∣ s.dst) (hsrc : (2 : ℤ) ∣ s.src) :
    Copied m dst src n (k + r % 4 / 2 * 2) (if r &&& 2 ≠ 0 then copyUnit 2 s else s) := by
  by_cases hbit : r % 4 / 2 = 1
  · rw [if_pos ((bit1_iff r).mpr hbit)]
    rw [hbit] at hle ⊢
    exact h.unit hdisjoint 2 hle hdst hsrc
  · have hzero : r % 4 / 2 = 0 := by omega
    rw [if_neg (fun hand => hbit ((bit1_iff r).mp hand)), hzero]
    exact h

/-- The part of `copyEven` after the destination is brought to a multiple of 4, or too little is
left. -/
theorem Copied.rest (h : Copied m dst src n k s) (hdisjoint : dst + n ≤ src ∨ src + n ≤ dst) (r : ℕ)
    (hle : k + r = n) (hdst : (2 : ℤ) ∣ s.dst) (hfour : r ≤ 2 ∨ (4 : ℤ) ∣ s.dst)
    (hsrc : (2 : ℤ) ∣ s.src) :
    Copied m dst src n n
      (if s.src % 4 / 2 = 1 then
        if r &&& 1 ≠ 0 then copyUnit 1 (copyUnits 2 (r >>> 1) s) else copyUnits 2 (r >>> 1) s
      else
        if r &&& 1 ≠ 0 then
          copyUnit 1 (if r &&& 2 ≠ 0 then copyUnit 2 (copyUnits 4 (r >>> 2) s)
            else copyUnits 4 (r >>> 2) s)
        else if r &&& 2 ≠ 0 then copyUnit 2 (copyUnits 4 (r >>> 2) s)
            else copyUnits 4 (r >>> 2) s) := by
  by_cases hword : s.src % 4 / 2 = 1
  · rw [if_pos hword]
    exact h.halves hdisjoint r hle hdst hsrc
  · rw [if_neg hword]
    have hquarter : r >>> 2 = r / 4 := Nat.shiftRight_eq_div_pow r 2
    have hdst4 : r / 4 = 0 ∨ (4 : ℤ) ∣ s.dst := hfour.imp (fun hr => by omega) id
    obtain ⟨hwords, hd, hs⟩ := h.words hdisjoint (r / 4) (by omega) hdst4 (by omega)
    have hhalf := hwords.half hdisjoint r (by omega) (by rw [hd]; omega) (by rw [hs]; omega)
    rw [hquarter]
    exact hhalf.last hdisjoint r (by omega)

theorem Copied.even (h : Copied m dst src n k s) (hdisjoint : dst + n ≤ src ∨ src + n ≤ dst) (r : ℕ)
    (hle : k + r = n) (hdst : (2 : ℤ) ∣ s.dst) (hsrc : (2 : ℤ) ∣ s.src) :
    Copied m dst src n n (copyEven s r) := by
  by_cases hfix : r > 2 ∧ s.dst % 4 / 2 = 1
  · have hunit := h.unit hdisjoint 2 (by omega) hdst hsrc
    have hd : (copyUnit 2 s).dst = s.dst + 2 := rfl
    have hs : (copyUnit 2 s).src = s.src + 2 := rfl
    have hrest := hunit.rest hdisjoint (r - 2) (by omega) (by omega) (Or.inr (by omega)) (by omega)
    simp only [copyEven, hfix, and_self, if_true]
    exact hrest
  · have hrest := h.rest hdisjoint r hle hdst (by omega) hsrc
    simp only [copyEven, hfix, if_false]
    exact hrest

end progress

/-- **`memcpy` copies the bytes of the source, for every length and alignment, with aligned accesses
inside the two regions only.** -/
theorem memcpy_copies (m : Mem Byte) (dst src : ℤ) (n : ℕ) (h : dst + n ≤ src ∨ src + n ≤ dst) :
    (memcpy m dst src n).1.mem = write m dst (read m src n) ∧ (memcpy m dst src n).2 = dst ∧
      ∀ a ∈ (memcpy m dst src n).1.accesses, a.Ok dst src n := by
  have hcopied : Copied m dst src n n (memcpy m dst src n).1 := by
    have hstart := copied_start m dst src n
    by_cases hn : n = 0
    · subst hn
      exact hstart
    · by_cases hodd : dst % 2 = 1
      · have hunit := hstart.unit h 1 (by omega) (Int.one_dvd _) (Int.one_dvd _)
        have hd : (copyUnit 1 ⟨m, dst, src, []⟩).dst = dst + 1 := rfl
        simp only [memcpy, hn, hodd, if_true, if_false]
        split
        · have hunits := (hunit.units h 1 (n - 1) (by omega) (Int.one_dvd _) (Int.one_dvd _)).1
          rw [show 0 + 1 + 1 * (n - 1) = n by omega] at hunits
          exact hunits
        · exact hunit.even h (n - 1) (by omega) (by omega) (by omega)
      · simp only [memcpy, hn, hodd, if_false]
        split
        · have hunits := (hstart.units h 1 n (by omega) (Int.one_dvd _) (Int.one_dvd _)).1
          rw [show 0 + 1 * n = n by omega] at hunits
          exact hunits
        · rename_i hsrc
          change ¬src % 2 = 1 at hsrc
          have hdst2 : (2 : ℤ) ∣ dst := by omega
          have hsrc2 : (2 : ℤ) ∣ src := by omega
          exact hstart.even h n (by omega) hdst2 hsrc2
  refine ⟨hcopied.mem, ?_, hcopied.ok⟩
  simp only [memcpy]
  split
  · rfl
  · split <;> split <;> rfl

/-- Every byte the low byte of its address. -/
def ramp : Mem Byte := fun a => BitVec.ofInt 8 a

/-- The 32 bytes of a packet from offset 5 on. -/
theorem memcpy_copies_packet :
    (memcpy ramp 0x2002 0x1005 32).1.mem = write ramp 0x2002 (read ramp 0x1005 32) ∧
      (memcpy ramp 0x2002 0x1005 32).2 = 0x2002 ∧
      ∀ a ∈ (memcpy ramp 0x2002 0x1005 32).1.accesses, a.Ok 0x2002 0x1005 32 :=
  memcpy_copies ramp 0x2002 0x1005 32 (by decide)

end HashRatio.Memcpy
