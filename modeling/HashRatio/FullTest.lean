import HashRatio.Job
import Mathlib.Data.Nat.Digits.Lemmas

/-!
# Hash against target

`fulltest` compares two 32-byte strings word by word from the last word down,
each word swapped, and leaves its loop at the first difference. That is the order
of little-endian integers, with two equal strings on the side of the failures.
-/

namespace HashRatio.FullTest
open Bytes Memory MmWork Miner Job

/-- A byte string read as a little-endian integer. -/
def leNat (bs : List Byte) : ℕ := Nat.ofDigits 256 (bs.map BitVec.toNat)

theorem digits_lt (bs : List Byte) : ∀ d ∈ bs.map BitVec.toNat, d < 256 := by
  intro d hd
  obtain ⟨b, _, rfl⟩ := List.mem_map.mp hd
  exact b.isLt

theorem leNat_lt (bs : List Byte) : leNat bs < 256 ^ bs.length := by
  have hlt := Nat.ofDigits_lt_base_pow_length (b := 256) (by decide) (digits_lt bs)
  rwa [List.length_map] at hlt

theorem leNat_inj {as bs : List Byte} (hlen : as.length = bs.length) (h : leNat as = leNat bs) :
    as = bs := by
  have hdigits := Nat.ofDigits_inj_of_len_eq (b := 256) (by decide)
    (by simpa using hlen) (digits_lt as)
    (digits_lt bs) h
  exact List.map_injective_iff.mpr (fun _ _ => BitVec.eq_of_toNat_eq) hdigits

theorem leNat_append (as bs : List Byte) :
    leNat (as ++ bs) = leNat as + 256 ^ as.length * leNat bs := by
  rw [leNat, List.map_append, Nat.ofDigits_append, List.length_map]
  rfl

theorem leNat_word (bs : List Byte) (i : ℕ) (h : 4 * i + 4 ≤ bs.length) :
    leNat ((bs.drop (4 * i)).take 4) = (bswap32 (wordAt bs i)).toNat := by
  have htake : (bs.drop (4 * i)).take 4 =
      [bs.getD (4 * i) 0, bs.getD (4 * i + 1) 0, bs.getD (4 * i + 2) 0, bs.getD (4 * i + 3) 0] := by
    apply List.ext_getElem
      (by simp only [List.length_take, List.length_drop, List.length_cons, List.length_nil]; omega)
    intro k h1 h2
    have hk : k < 4 := by simpa using h2
    rw [List.getElem_take, List.getElem_drop]
    interval_cases k <;> exact (List.getD_eq_getElem bs 0 (by omega)).symm
  rw [htake, wordAt, bswap32_beWord]
  simp only [leNat, List.map_cons, List.map_nil, Nat.ofDigits_cons, Nat.ofDigits_nil, beWord_toNat]
  omega

theorem leNat_take_succ (bs : List Byte) (n : ℕ) (h : 4 * n + 4 ≤ bs.length) :
    leNat (bs.take (4 * (n + 1))) =
      leNat (bs.take (4 * n)) + 256 ^ (4 * n) * (bswap32 (wordAt bs n)).toNat := by
  have hlen : (bs.take (4 * n)).length = 4 * n := by
    rw [List.length_take]
    omega
  rw [Nat.mul_succ, List.take_add, leNat_append, hlen, leNat_word bs n h]

/-! ### The loop -/

/-- The low `n` words decide what is left of the loop. -/
theorem fulltestFrom_eq (hash target : List Byte) (n : ℕ) (hh : 4 * n ≤ hash.length)
    (ht : 4 * n ≤ target.length) :
    fulltestFrom hash target n =
      if leNat (hash.take (4 * n)) < leNat (target.take (4 * n)) then .diff else .valid := by
  induction n with
  | zero => rfl
  | succ n ih =>
    have hlow := leNat_lt (hash.take (4 * n))
    have tlow := leNat_lt (target.take (4 * n))
    rw [List.length_take, Nat.min_eq_left (by omega)] at hlow tlow
    rw [leNat_take_succ hash n (by omega), leNat_take_succ target n (by omega), fulltestFrom]
    simp only [BitVec.lt_def]
    generalize leNat (hash.take (4 * n)) = hl at *
    generalize leNat (target.take (4 * n)) = tl at *
    generalize (bswap32 (wordAt hash n)).toNat = hw
    generalize (bswap32 (wordAt target n)).toNat = tw
    generalize 256 ^ (4 * n) = base at *
    rcases Nat.lt_trichotomy tw hw with hlt | heq | hgt
    · -- the word decides, whatever the words below it are
      have hstep : base * (tw + 1) ≤ base * hw := Nat.mul_le_mul_left base hlt
      rw [Nat.mul_succ] at hstep
      rw [if_pos hlt, if_neg (by omega)]
    · rw [heq, if_neg (Nat.lt_irrefl hw), if_neg (Nat.lt_irrefl hw), ih (by omega) (by omega)]
      simp only [Nat.add_lt_add_iff_right]
    · have hstep : base * (hw + 1) ≤ base * tw := Nat.mul_le_mul_left base hgt
      rw [Nat.mul_succ] at hstep
      rw [if_neg (by omega), if_pos hgt, if_pos (by omega)]

theorem fulltest_eq (hash target : List Byte) (hh : hash.length = 32) (ht : target.length = 32) :
    fulltest hash target = if leNat hash < leNat target then .diff else .valid := by
  have h := fulltestFrom_eq hash target 8 (by omega) (by omega)
  rwa [List.take_of_length_le (by omega), List.take_of_length_le (by omega)] at h

/-! ### Meeting the target -/

/-- What `test_nonce` compares, and with what. -/
def testHash (m : Mem Byte) (mw : ℤ) (nonce2 nonce : Word) : List Byte :=
  ShaDriver.dsha256 (swapBuffer (minerGenNonce2Work m mw nonce2).2 nonce) 80
def testTarget (m : Mem Byte) (mw : ℤ) (nonce2 : Word) : List Byte :=
  read (minerGenNonce2Work m mw nonce2).1 (mw + Field.target.off) 32

theorem testHash_length (m : Mem Byte) (mw : ℤ) (nonce2 nonce : Word) :
    (testHash m mw nonce2 nonce).length = 32 :=
  dsha256_length _ _
theorem testTarget_length (m : Mem Byte) (mw : ℤ) (nonce2 : Word) :
    (testTarget m mw nonce2).length = 32 :=
  read_length _ _ _

theorem testNonce_eq (m : Mem Byte) (mw : ℤ) (nonce2 nonce : Word) :
    (testNonce m mw nonce2 nonce).2 =
    if wordAt (testHash m mw nonce2 nonce) 7 ≠ 0 then .hw
    else fulltest (testHash m mw nonce2 nonce) (testTarget m mw nonce2) := rfl

theorem fulltest_meets_iff (hash target : List Byte) (hh : hash.length = 32)
    (ht : target.length = 32) :
    fulltest hash target = (if leNat hash ≤ leNat target then .diff else .valid) ↔
      hash ≠ target := by
  rw [fulltest_eq hash target hh ht]
  constructor
  · rintro h rfl
    rw [if_neg (Nat.lt_irrefl _), if_pos (Nat.le_refl _)] at h
    cases h
  · intro hne
    have hnat : leNat hash ≠ leNat target := fun h => hne (leNat_inj (hh.trans ht.symm) h)
    simp only [Nat.lt_iff_le_and_ne, ne_eq, hnat, not_false_eq_true, and_true]

theorem testNonce_diff (m : Mem Byte) (mw : ℤ) (nonce2 nonce : Word) :
    (testNonce m mw nonce2 nonce).2 = .diff ↔
    wordAt (testHash m mw nonce2 nonce) 7 = 0 ∧
      leNat (testHash m mw nonce2 nonce) < leNat (testTarget m mw nonce2) := by
  rw [testNonce_eq,
    fulltest_eq _ _ (testHash_length m mw nonce2 nonce) (testTarget_length m mw nonce2)]
  generalize testHash m mw nonce2 nonce = hash
  generalize testTarget m mw nonce2 = target
  by_cases htop : wordAt hash 7 = 0
  · rw [if_neg (not_not_intro htop)]
    by_cases hlt : leNat hash < leNat target
    · rw [if_pos hlt]
      exact ⟨fun _ => ⟨htop, hlt⟩, fun _ => rfl⟩
    · rw [if_neg hlt]
      exact ⟨fun h => (by cases h), fun h => absurd h.2 hlt⟩
  · rw [if_pos htop]
    exact ⟨fun h => (by cases h), fun h => absurd h.1 htop⟩

theorem testNonce_meets_iff (m : Mem Byte) (mw : ℤ) (nonce2 nonce : Word) :
    ((testNonce m mw nonce2 nonce).2 = .diff ↔ wordAt (testHash m mw nonce2 nonce) 7 = 0 ∧
        leNat (testHash m mw nonce2 nonce) ≤ leNat (testTarget m mw nonce2)) ↔
      ¬(wordAt (testHash m mw nonce2 nonce) 7 = 0 ∧
        testHash m mw nonce2 nonce = testTarget m mw nonce2) := by
  have hlen : (testHash m mw nonce2 nonce).length = (testTarget m mw nonce2).length :=
    (testHash_length m mw nonce2 nonce).trans (testTarget_length m mw nonce2).symm
  rw [testNonce_diff]
  generalize testHash m mw nonce2 nonce = hash at *
  generalize testTarget m mw nonce2 = target at *
  constructor
  · rintro h ⟨htop, rfl⟩
    exact Nat.lt_irrefl _ (h.mpr ⟨htop, Nat.le_refl _⟩).2
  · intro hne
    refine ⟨fun h => ⟨h.1, Nat.le_of_lt h.2⟩, fun h => ⟨h.1, Nat.lt_of_le_of_ne h.2 fun heq => ?_⟩⟩
    exact hne ⟨h.1, leNat_inj hlen heq⟩

/-- **A hash is tested against the target as a 256-bit little-endian integer**, unless the two are
equal: then it is rejected. -/
theorem meets_target_iff (hash target : List Byte) (hh : hash.length = 32)
    (ht : target.length = 32) (m : Mem Byte) (mw : ℤ) (nonce2 nonce : Word) :
    (fulltest hash target = (if leNat hash ≤ leNat target then .diff else .valid) ↔ hash ≠ target) ∧
    (((testNonce m mw nonce2 nonce).2 = .diff ↔ wordAt (testHash m mw nonce2 nonce) 7 = 0 ∧
        leNat (testHash m mw nonce2 nonce) ≤ leNat (testTarget m mw nonce2)) ↔
      ¬(wordAt (testHash m mw nonce2 nonce) 7 = 0 ∧
        testHash m mw nonce2 nonce = testTarget m mw nonce2)) :=
  ⟨fulltest_meets_iff hash target hh ht, testNonce_meets_iff m mw nonce2 nonce⟩

/-- The easiest target a hash with a zero top word can meet. -/
def easyTarget : List Byte := List.replicate 28 0xFF ++ List.replicate 4 0

theorem easyTarget_length : easyTarget.length = 32 := by decide

theorem meets_target_easy :
    (fulltest (List.replicate 32 0) easyTarget =
        (if leNat (List.replicate 32 0) ≤ leNat easyTarget then .diff else .valid) ↔
      List.replicate 32 0 ≠ easyTarget) ∧
    (((testNonce (fun _ => 0) 0 1 2).2 = .diff ↔ wordAt (testHash (fun _ => 0) 0 1 2) 7 = 0 ∧
        leNat (testHash (fun _ => 0) 0 1 2) ≤ leNat (testTarget (fun _ => 0) 0 1)) ↔
      ¬(wordAt (testHash (fun _ => 0) 0 1 2) 7 = 0 ∧
        testHash (fun _ => 0) 0 1 2 = testTarget (fun _ => 0) 0 1)) :=
  meets_target_iff (List.replicate 32 0) easyTarget (by decide) easyTarget_length (fun _ => 0) 0 1 2

theorem equal_rejected : wordAt easyTarget 7 = 0 ∧ leNat easyTarget ≤ leNat easyTarget ∧
    fulltest easyTarget easyTarget = .valid := by
  refine ⟨by decide, Nat.le_refl _, ?_⟩
  rw [fulltest_eq _ _ easyTarget_length easyTarget_length, if_neg (Nat.lt_irrefl _)]

end HashRatio.FullTest
