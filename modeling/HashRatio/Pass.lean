import HashRatio.Results

/-!
# A result pass as turns

`be200_read_result` goes through the chips with a few locals. A turn is a chip
that the pass finds ready, with the locals it comes with; the pass is the fold of
its turns, so what it does to a counter or to the ring is settled turn by turn.
-/

namespace HashRatio.Pass
open Bytes Memory Miner Protocol Drivers State Packets Results

variable {σ : Type}

-- no simp set is to evaluate a test
attribute [local irreducible] Jobs.test

/-! ### The candidates of a nonce -/

def candidates (nonce : Word) : List Word := diffNonce.map fun diff => nonce + BitVec.ofInt 32 diff

/-- The candidates the loop over `diff_nonce` tests and what they test, up to the first
NONCE_DIFF. -/
def tries (idx : ℕ) (nonce : Word) : List ℤ → Jobs → List (Word × NonceCheck)
  | [], _ => []
  | diff :: diffs, j =>
    let r := j.test idx (nonce + BitVec.ofInt 32 diff)
    (nonce + BitVec.ofInt 32 diff, r.2) :: if r.2 = .diff then [] else tries idx nonce diffs r.1

def firstDiff (rs : List (Word × NonceCheck)) : Option Word :=
  rs.findSome? fun r => if r.2 = .diff then some r.1 else none

def testOps (idx : ℕ) (rs : List (Word × NonceCheck)) : List JobOp := rs.map fun r => .test idx r.1

section cons
variable {idx : ℕ} {nonce : Word} {diff : ℤ} (diffs : List ℤ) {j : Jobs}

theorem tries_hit (h : (j.test idx (nonce + BitVec.ofInt 32 diff)).2 = .diff) :
    tries idx nonce (diff :: diffs) j = [(nonce + BitVec.ofInt 32 diff, .diff)] := by
  rw [tries, if_pos h, h]

theorem tries_miss (h : (j.test idx (nonce + BitVec.ofInt 32 diff)).2 ≠ .diff) :
    tries idx nonce (diff :: diffs) j =
      (nonce + BitVec.ofInt 32 diff, (j.test idx (nonce + BitVec.ofInt 32 diff)).2) ::
        tries idx nonce diffs (j.test idx (nonce + BitVec.ofInt 32 diff)).1 := by
  rw [tries, if_neg h]

theorem tryNonces_hit (check : NonceCheck)
    (h : (j.test idx (nonce + BitVec.ofInt 32 diff)).2 = .diff) :
    tryNonces idx nonce (diff :: diffs) j check =
      ((j.test idx (nonce + BitVec.ofInt 32 diff)).1, .diff,
        some (nonce + BitVec.ofInt 32 diff)) := by
  rw [tryNonces, if_pos h]

theorem tryNonces_miss (check : NonceCheck)
    (h : (j.test idx (nonce + BitVec.ofInt 32 diff)).2 ≠ .diff) :
    tryNonces idx nonce (diff :: diffs) j check =
      tryNonces idx nonce diffs (j.test idx (nonce + BitVec.ofInt 32 diff)).1
        (j.test idx (nonce + BitVec.ofInt 32 diff)).2 := by
  rw [tryNonces, if_neg h]

end cons

theorem firstDiff_miss {n : Word} {check : NonceCheck} (h : check ≠ .diff)
    (rs : List (Word × NonceCheck)) :
    firstDiff ((n, check) :: rs) = firstDiff rs := by
  rw [firstDiff, List.findSome?_cons, if_neg h, firstDiff]

theorem tryNonces_jobs (idx : ℕ) (nonce : Word) (diffs : List ℤ) (j : Jobs) (check : NonceCheck) :
    (tryNonces idx nonce diffs j check).1 =
      Run.run Jobs.apply j (testOps idx (tries idx nonce diffs j)) := by
  induction diffs generalizing j check with
  | nil => rfl
  | cons diff diffs ih =>
    by_cases h : (j.test idx (nonce + BitVec.ofInt 32 diff)).2 = .diff
    · rw [tryNonces_hit diffs check h, tries_hit diffs h, testOps, List.map_cons,
        List.map_nil, Run.run_cons, Run.run_nil, apply_test]
    · rw [tryNonces_miss diffs check h, tries_miss diffs h, ih, testOps, testOps,
        List.map_cons, Run.run_cons, apply_test]

theorem tryNonces_valid (idx : ℕ) (nonce : Word) (diffs : List ℤ) (j : Jobs) (check : NonceCheck) :
    (tryNonces idx nonce diffs j check).2.2 = firstDiff (tries idx nonce diffs j) := by
  induction diffs generalizing j check with
  | nil => rfl
  | cons diff diffs ih =>
    by_cases h : (j.test idx (nonce + BitVec.ofInt 32 diff)).2 = .diff
    · rw [tryNonces_hit diffs check h, tries_hit diffs h]
      rfl
    · rw [tryNonces_miss diffs check h, tries_miss diffs h, firstDiff_miss h, ih]

/-- The check the loop ends with is NONCE_DIFF just when it found a nonce. -/
theorem tryNonces_diff (idx : ℕ) (nonce : Word) (diffs : List ℤ) (j : Jobs) (check : NonceCheck)
    (hnil : diffs = [] → check ≠ .diff) : (tryNonces idx nonce diffs j check).2.1 = .diff ↔
      (firstDiff (tries idx nonce diffs j)).isSome = true := by
  induction diffs generalizing j check with
  | nil =>
    rw [tryNonces]
    exact ⟨fun hc => absurd hc (hnil rfl), fun hc => by cases hc⟩
  | cons diff diffs ih =>
    by_cases h : (j.test idx (nonce + BitVec.ofInt 32 diff)).2 = .diff
    · rw [tryNonces_hit diffs check h, tries_hit diffs h]
      exact ⟨fun _ => rfl, fun _ => rfl⟩
    · rw [tryNonces_miss diffs check h, tries_miss diffs h, firstDiff_miss h]
      exact ih _ _ fun _ => h

theorem firstDiff_isSome (rs : List (Word × NonceCheck)) :
    (firstDiff rs).isSome = true ↔ .diff ∈ rs.map Prod.snd := by
  rw [firstDiff, List.findSome?_isSome_iff]
  simp only [List.mem_map]
  constructor
  · rintro ⟨r, hr, hsome⟩
    by_cases hd : r.2 = .diff
    · exact ⟨r, hr, hd⟩
    · rw [if_neg hd] at hsome
      cases hsome
  · rintro ⟨r, hr, hd⟩
    exact ⟨r, hr, by rw [if_pos hd]; rfl⟩

theorem tries_prefix (idx : ℕ) (nonce : Word) (diffs : List ℤ) (j : Jobs) :
    (tries idx nonce diffs j).map Prod.fst <+: diffs.map fun diff =>
      nonce + BitVec.ofInt 32 diff := by
  induction diffs generalizing j with
  | nil => exact List.prefix_refl _
  | cons diff diffs ih =>
    by_cases h : (j.test idx (nonce + BitVec.ofInt 32 diff)).2 = .diff
    · rw [tries_hit diffs h]
      exact List.cons_prefix_cons.mpr ⟨rfl, List.nil_prefix⟩
    · rw [tries_miss diffs h]
      exact List.cons_prefix_cons.mpr ⟨rfl, ih _⟩

/-! ### Turns -/

/-- A chip found ready: the pass before its status check, and the nonce mask it answers. -/
structure Turn (b : Board σ) where
  chip : ℕ
  scan : Scan σ
  mask : Byte
  ready : (be200GetDone b scan.fw.dev chip).2 = some mask

variable {b : Board σ}

def turnAt (b : Board σ) (st : Scan σ) (idx : ℕ) : Option (Turn b) :=
  match h : (be200GetDone b st.fw.dev idx).2 with
  | none => none
  | some mask => some ⟨idx, st, mask, h⟩

def turnsFrom (b : Board σ) : Scan σ → List ℕ → List (Turn b)
  | _, [] => []
  | st, idx :: is => (turnAt b st idx).toList ++ turnsFrom b (resultChip b st idx) is

def passStart (b : Board σ) (s : Fw σ) : Scan σ := ⟨s, b.stale s.dev.env, .hw, false⟩

def passTurns (b : Board σ) (s : Fw σ) : List (Turn b) :=
  turnsFrom b (passStart b s) (List.range chipNumber)

namespace Turn
variable (t : Turn b)

def dev : Dev σ := (be200GetDone b t.scan.fw.dev t.chip).1
def readOut : Dev σ × Option Word := be200GetResult b t.dev t.chip t.mask

/-- The base nonce: what was read out, or what the turn before left in `nonce`. -/
def base : Word := t.readOut.2.getD t.scan.nonce

/-- The jobs its candidates are tested in. -/
def jobs : Jobs := t.scan.fw.jobs.noteReady t.chip t.mask
def tests : List (Word × NonceCheck) := tries t.chip t.base diffNonce t.jobs

def verified : Option Word := firstDiff t.tests
def tested : Jobs := Run.run Jobs.apply t.jobs (testOps t.chip t.tests)
def after : Scan σ := resultChip b t.scan t.chip

def Counted : Prop := t.verified = none ∧ t.scan.found = false

instance : Decidable t.Counted := inferInstanceAs (Decidable (_ ∧ _))

end Turn

theorem turnAt_none {st : Scan σ} {idx : ℕ} (h : (be200GetDone b st.fw.dev idx).2 = none) :
    turnAt b st idx = none := by
  unfold turnAt
  split
  · rfl
  · rename_i mask hmask
    rw [h] at hmask
    cases hmask

theorem turnAt_some {st : Scan σ} {idx : ℕ} {mask : Byte}
    (h : (be200GetDone b st.fw.dev idx).2 = some mask) :
    turnAt b st idx = some ⟨idx, st, mask, h⟩ := by
  unfold turnAt
  split
  · rename_i hmask
    rw [h] at hmask
    cases hmask
  · rename_i mask' hmask
    have heq : mask' = mask := Option.some.inj (hmask.symm.trans h)
    subst heq
    rfl

/-! ### What a chip's turn does -/

theorem skip_eq {st : Scan σ} {idx : ℕ} (h : (be200GetDone b st.fw.dev idx).2 = none) :
    resultChip b st idx = {st with fw := {st.fw with dev := (be200GetDone b st.fw.dev idx).1}} := by
  simp only [resultChip, h]

namespace Turn
variable (t : Turn b)

/-- What the counting of a turn starts from. -/
def counting : Fw σ :=
  {t.scan.fw with dev := t.readOut.1, jobs := t.tested, localWork := t.scan.fw.localWork + 1}

theorem after_eq : t.after = countResult b
    {t.scan with fw := {t.scan.fw with dev := t.readOut.1}, nonce := t.base} t.chip
    (tryNonces t.chip t.base diffNonce t.jobs t.scan.nonceCheck) := by
  have hready := t.ready
  simp only [after, resultChip, hready, readyChip, jobs, base, readOut, dev]

theorem after_verified {nonce : Word} (h : t.verified = some nonce) :
    t.after = ⟨countValid b t.counting t.chip nonce, nonce, .diff, true⟩ := by
  have hdiff :=
    tryNonces_diff t.chip t.base diffNonce t.jobs t.scan.nonceCheck (by simp [diffNonce])
  have hvalid := tryNonces_valid t.chip t.base diffNonce t.jobs t.scan.nonceCheck
  have hjobs := tryNonces_jobs t.chip t.base diffNonce t.jobs t.scan.nonceCheck
  rw [after_eq]
  generalize tryNonces t.chip t.base diffNonce t.jobs t.scan.nonceCheck = r at *
  rw [verified, tests] at h
  rw [h] at hdiff hvalid
  simp only [countResult, hdiff.mpr rfl, hvalid, hjobs, if_true, Option.getD_some,
    Option.isSome_some, Bool.or_true, counting, tested, tests]

theorem after_none (h : t.verified = none) : t.after =
    ⟨if t.scan.found then t.counting else countInvalid b t.counting, t.base,
      (tryNonces t.chip t.base diffNonce t.jobs t.scan.nonceCheck).2.1, t.scan.found⟩ := by
  have hdiff :=
    tryNonces_diff t.chip t.base diffNonce t.jobs t.scan.nonceCheck (by simp [diffNonce])
  have hvalid := tryNonces_valid t.chip t.base diffNonce t.jobs t.scan.nonceCheck
  have hjobs := tryNonces_jobs t.chip t.base diffNonce t.jobs t.scan.nonceCheck
  rw [after_eq]
  generalize tryNonces t.chip t.base diffNonce t.jobs t.scan.nonceCheck = r at *
  rw [verified, tests] at h
  rw [h] at hdiff hvalid
  have hne : r.2.1 ≠ .diff := fun hd => by cases hdiff.mp hd
  simp only [countResult, hne, hvalid, hjobs, if_false, Option.getD_none,
    Option.isSome_none, Bool.or_false, counting, tested, tests]
  split <;> rfl

theorem after_found : t.after.found = (t.scan.found || t.verified.isSome) := by
  cases h : t.verified with
  | none => simp [t.after_none h]
  | some nonce => simp [t.after_verified h]

theorem after_localWork : t.after.fw.localWork = t.scan.fw.localWork + 1 := by
  cases h : t.verified with
  | none =>
    rw [t.after_none h]
    simp only [countInvalid]
    split
    · rfl
    · split <;> rfl
  | some nonce =>
    rw [t.after_verified h]
    rfl

theorem after_totalNonce :
    t.after.fw.totalNonce = t.scan.fw.totalNonce + if t.verified.isSome then 1 else 0 := by
  cases h : t.verified with
  | none =>
    rw [t.after_none h, Option.isSome_none, if_neg Bool.false_ne_true]
    simp only [countInvalid]
    split
    · exact (BitVec.add_zero _).symm
    · split <;> exact (BitVec.add_zero _).symm
  | some nonce =>
    rw [t.after_verified h]
    rfl

theorem after_hwWork : t.after.fw.hwWork = t.scan.fw.hwWork + if t.Counted then 1 else 0 := by
  cases h : t.verified with
  | none =>
    rw [t.after_none h]
    by_cases hf : t.scan.found = true
    · rw [if_pos hf, if_neg fun hc => by cases hf.symm.trans hc.2]
      exact (BitVec.add_zero _).symm
    · rw [if_neg hf, if_pos ⟨h, Bool.eq_false_iff.mpr hf⟩]
      simp only [countInvalid]
      split <;> rfl
  | some nonce =>
    rw [t.after_verified h, if_neg fun hc => by cases h.symm.trans hc.1]
    exact (BitVec.add_zero _).symm

theorem counting_jobs : t.counting.jobs = t.tested := by rw [counting]

theorem after_jobs : t.after.fw.jobs = t.verified.elim t.tested (t.tested.push t.chip) := by
  cases h : t.verified with
  | none =>
    rw [t.after_none h, Option.elim_none, ← counting_jobs]
    by_cases hf : t.scan.found = true
    · rw [if_pos hf]
    · rw [if_neg hf, countInvalid_jobs]
  | some nonce =>
    rw [t.after_verified h, Option.elim_some, ← counting_jobs, countValid]

end Turn

/-! ### The pass as a fold of its turns -/

/-- What chips that are not ready leave alone, and each turn changes by `g`, the pass changes by the
fold of `g` over its turns. -/
theorem pass_fold {α : Type} (f : Scan σ → α) (g : α → Turn b → α)
    (hskip : ∀ st idx, (be200GetDone b st.fw.dev idx).2 = none → f (resultChip b st idx) = f st)
    (hturn : ∀ t : Turn b, f t.after = g (f t.scan) t) (st : Scan σ) (is : List ℕ) :
    f (is.foldl (resultChip b) st) = (turnsFrom b st is).foldl g (f st) := by
  induction is generalizing st with
  | nil => rfl
  | cons idx is ih =>
    rw [List.foldl_cons, ih, turnsFrom, List.foldl_append]
    congr 1
    cases h : (be200GetDone b st.fw.dev idx).2 with
    | none =>
      rw [turnAt_none h, hskip st idx h]
      rfl
    | some mask =>
      rw [turnAt_some h]
      exact hturn ⟨idx, st, mask, h⟩

/-- A turn finds `found` set when an earlier turn of the pass had a valid nonce. -/
theorem found_iff (st : Scan σ) (is : List ℕ) (pre post : List (Turn b)) (t : Turn b)
    (h : turnsFrom b st is = pre ++ t :: post) :
    t.scan.found = (st.found || pre.any fun u => u.verified.isSome) := by
  induction is generalizing st pre with
  | nil =>
    rw [turnsFrom] at h
    simp at h
  | cons idx is ih =>
    rw [turnsFrom] at h
    cases hdone : (be200GetDone b st.fw.dev idx).2 with
    | none =>
      rw [turnAt_none hdone, Option.toList_none, List.nil_append] at h
      rw [ih _ _ h, skip_eq hdone]
    | some mask =>
      rw [turnAt_some hdone, Option.toList_some, List.singleton_append] at h
      cases pre with
      | nil =>
        rw [List.nil_append, List.cons.injEq] at h
        rw [← h.1]
        simp
      | cons u pre =>
        rw [List.cons_append, List.cons.injEq] at h
        obtain ⟨hu, hrest⟩ := h
        have hafter : resultChip b st idx = u.after := by
          rw [← hu]
          rfl
        rw [ih _ _ hrest, hafter, u.after_found, List.any_cons, ← Bool.or_assoc, ← hu]

end HashRatio.Pass
