import HashRatio.Accounting
import HashRatio.Bus

/-!
# Nonces read from a chip

`be200_get_result` reads the four registers of the lowest nonce a chip flags, adds
one to the low byte and puts the bytes together with OR. A result pass tests the
nine numbers around what it gets, and when it gets nothing those around what it
got from another chip.
-/

namespace HashRatio.NonceRead
open Bytes Miner Protocol Drivers State Packets Results MainLoop Bus Pass Accounting Sample

variable {σ : Type} {b : Board σ}

-- no simp set is to evaluate a test
attribute [local irreducible] Jobs.test

/-! ### The value of the registers -/

/-- The number in four nonce registers, low byte first, plus one. -/
def exactNonce (b0 b1 b2 b3 : Byte) : Word :=
  BitVec.ofNat 32 (b0.toNat + 2 ^ 8 * b1.toNat + 2 ^ 16 * b2.toNat + 2 ^ 24 * b3.toNat + 1)

theorem or_beWord (b0 b1 b2 b3 : Byte) :
    (b3.setWidth 32 <<< 24) ||| (b2.setWidth 32 <<< 16) |||
      (b1.setWidth 32 <<< 8) ||| b0.setWidth 32 =
      beWord b3 b2 b1 b0 := by
  have hrev (x y z w : Word) : x ||| y ||| z ||| w = w ||| z ||| y ||| x := by ac_rfl
  rw [hrev, leWord_eq]

theorem nonceValue_low (b0 b1 b2 b3 : Byte) (h : b0 ≠ 0xff) :
    nonceValue b0 b1 b2 b3 = exactNonce b0 b1 b2 b3 := by
  have hlt : b0.toNat < 255 := by
    have hle := b0.isLt
    have hne : b0.toNat ≠ 255 := fun he => h (BitVec.eq_of_toNat_eq he)
    omega
  have hbyte : (b0 + 1).toNat = b0.toNat + 1 := by
    rw [BitVec.toNat_add, show (1 : Byte).toNat = 1 from rfl]
    omega
  have hlow : (b0.setWidth 32 + 1 : Word) = (b0 + 1).setWidth 32 := by
    apply BitVec.eq_of_toNat_eq
    rw [BitVec.toNat_add, BitVec.toNat_setWidth, BitVec.toNat_setWidth, hbyte,
      show (1 : Word).toNat = 1 from rfl]
    omega
  rw [nonceValue, hlow, or_beWord]
  apply BitVec.eq_of_toNat_eq
  rw [beWord_toNat, exactNonce, BitVec.toNat_ofNat, hbyte]
  have h1 := b1.isLt
  have h2 := b2.isLt
  have h3 := b3.isLt
  omega

/-- The carry out of the low byte is ORed into the second. -/
theorem nonceValue_carry (b1 b2 b3 : Byte) :
    nonceValue 0xff b1 b2 b3 = beWord b3 b2 (b1 ||| 1) 0 := by
  rw [nonceValue, ← or_beWord]
  apply BitVec.eq_of_getLsbD_eq
  intro i hi
  simp only [BitVec.getLsbD_or, BitVec.getLsbD_shiftLeft, BitVec.getLsbD_setWidth]
  interval_cases i <;> simp

theorem or_one (x : Byte) :
    (x ||| 1).toNat = if x.getLsbD 0 = true then x.toNat else x.toNat + 1 := by
  revert x
  decide

theorem nonceValue_iff (b0 b1 b2 b3 : Byte) :
    nonceValue b0 b1 b2 b3 = exactNonce b0 b1 b2 b3 ↔ ¬(b0 = 0xff ∧ b1.getLsbD 0 = true) := by
  by_cases h : b0 = 0xff
  · have h1 := b1.isLt
    have h2 := b2.isLt
    have h3 := b3.isLt
    have hexact : (exactNonce 0xff b1 b2 b3).toNat =
        (255 + 2 ^ 8 * b1.toNat + 2 ^ 16 * b2.toNat + 2 ^ 24 * b3.toNat + 1) % 2 ^ 32 :=
          BitVec.toNat_ofNat ..
    rw [h, nonceValue_carry, ← BitVec.toNat_inj, beWord_toNat, or_one, hexact]
    have hzero : (0 : Byte).toNat = 0 := rfl
    rw [hzero]
    by_cases hodd : b1.getLsbD 0 = true
    · rw [if_pos hodd]
      exact ⟨fun he => by omega, fun hn => absurd ⟨rfl, hodd⟩ hn⟩
    · rw [if_neg hodd]
      have heven : b1.toNat < 255 := by
        have hne : b1.toNat ≠ 255 :=
          fun he => hodd (by rw [show b1 = 0xff from BitVec.eq_of_toNat_eq he]; decide)
        omega
      exact ⟨fun _ hn => hodd hn.2, fun _ => by omega⟩
  · exact ⟨fun _ hn => h hn.1, fun _ => nonceValue_low b0 b1 b2 b3 h⟩

/-! ### The read-out -/

/-- The bytes of the four registers from `reg` on, in the order `be200_get_result` reads them. -/
structure Regs where
  b0 : Byte
  b1 : Byte
  b2 : Byte
  b3 : Byte

def readRegs (b : Board σ) (d : Dev σ) (idx reg : ℕ) : Dev σ × Regs :=
  let r3 := be200CmdRd b d idx (reg + 3)
  let r2 := be200CmdRd b r3.1 idx (reg + 2)
  let r1 := be200CmdRd b r2.1 idx (reg + 1)
  let r0 := be200CmdRd b r1.1 idx (reg + 0)
  (r0.1, ⟨r0.2, r1.2, r2.2, r3.2⟩)

def Regs.value (r : Regs) : Word := nonceValue r.b0 r.b1 r.b2 r.b3
def Regs.exact (r : Regs) : Word := exactNonce r.b0 r.b1 r.b2 r.b3

theorem getResult_some (d : Dev σ) (idx : ℕ) (mask : Byte) (reg : ℕ)
    (h : nonceStartReg mask = some reg) :
    be200GetResult b d idx mask =
      ((be200CmdRd b (readRegs b d idx reg).1 idx be200RegClear).1,
        some (readRegs b d idx reg).2.value) := by
  rw [be200GetResult, h]
  rfl

theorem getResult_none (d : Dev σ) (idx : ℕ) (mask : Byte) (h : nonceStartReg mask = none) :
    be200GetResult b d idx mask = (d, none) := by
  rw [be200GetResult, h]

theorem startReg_some (mask : Byte) (h : mask &&& 0x0f ≠ 0) : ∃ k < 4, mask.getLsbD k = true ∧
    nonceStartReg mask = some (46 + 4 * k) := by
  revert mask
  decide +kernel

theorem startReg_none (mask : Byte) (h : mask &&& 0x0f = 0) : nonceStartReg mask = none := by
  revert mask
  decide +kernel

theorem mem_candidates (nonce x : Word) :
    x ∈ candidates nonce ↔ ∃ k : ℤ, -4 ≤ k ∧ k ≤ 4 ∧ x = nonce + BitVec.ofInt 32 k := by
  have hdiff (k : ℤ) : k ∈ diffNonce ↔ -4 ≤ k ∧ k ≤ 4 := by
    simp only [diffNonce, List.mem_cons, List.not_mem_nil, or_false]
    omega
  rw [candidates, List.mem_map]
  simp only [hdiff]
  constructor
  · rintro ⟨k, ⟨hlow, hhigh⟩, hx⟩
    exact ⟨k, hlow, hhigh, hx.symm⟩
  · rintro ⟨k, hlow, hhigh, hx⟩
    exact ⟨k, ⟨hlow, hhigh⟩, hx.symm⟩

/-- What `be200_get_result` is to return, with the candidates that gives. -/
def ExactRead (b : Board σ) (d : Dev σ) (idx : ℕ) (mask : Byte) (r : Regs) : Prop :=
  ∃ v, (be200GetResult b d idx mask).2 = some v ∧ v = r.exact ∧
    ∀ x, x ∈ candidates v ↔ ∃ k : ℤ, -4 ≤ k ∧ k ≤ 4 ∧ x = r.exact + BitVec.ofInt 32 k

/-- **The nonce read out is the number in the registers plus one** unless the low byte is 0xFF and
the byte above it odd; a pass tests the candidates of the nonce read out. -/
theorem exactRead_iff (d : Dev σ) (idx : ℕ) (mask : Byte) (h : mask &&& 0x0f ≠ 0) :
    ∃ reg, nonceStartReg mask = some reg ∧
      (ExactRead b d idx mask (readRegs b d idx reg).2 ↔
        ¬((readRegs b d idx reg).2.b0 = 0xff ∧ (readRegs b d idx reg).2.b1.getLsbD 0 = true)) ∧
      ∀ t : Turn b, t.dev = d → t.chip = idx → t.mask = mask →
        t.tests.map Prod.fst <+: candidates (readRegs b d idx reg).2.value := by
  obtain ⟨k, _, _, hreg⟩ := startReg_some mask h
  refine ⟨46 + 4 * k, hreg, ?_, fun t hd hi hm => ?_⟩
  · rw [← nonceValue_iff, ExactRead, getResult_some d idx mask _ hreg]
    constructor
    · rintro ⟨v, hv, hexact, _⟩
      exact (Option.some.inj hv).trans hexact
    · intro hexact
      have hvalue : (readRegs b d idx (46 + 4 * k)).2.value =
          (readRegs b d idx (46 + 4 * k)).2.exact := hexact
      exact ⟨_, rfl, hvalue, fun x => by rw [mem_candidates, hvalue]⟩
  · have hbase : t.base = (readRegs b d idx (46 + 4 * k)).2.value := by
      rw [Turn.base, Turn.readOut, hd, hi, hm, getResult_some d idx mask _ hreg, Option.getD_some]
    rw [Turn.tests, hbase]
    exact tries_prefix t.chip _ diffNonce t.jobs

theorem exactRead_one :
    ∃ reg, nonceStartReg 1 = some reg ∧
      (ExactRead belowBoard belowState.dev 0 1 (readRegs belowBoard belowState.dev 0 reg).2 ↔
        ¬((readRegs belowBoard belowState.dev 0 reg).2.b0 = 0xff ∧
          (readRegs belowBoard belowState.dev 0 reg).2.b1.getLsbD 0 = true)) ∧
      ∀ t : Turn belowBoard, t.dev = belowState.dev → t.chip = 0 → t.mask = 1 →
        t.tests.map Prod.fst <+: candidates (readRegs belowBoard belowState.dev 0 reg).2.value :=
  exactRead_iff belowState.dev 0 1 (by decide)

def carryBytes (i : ℕ) : Byte := ([0xff, 0x01, 0x00, 0x00] : List Byte).getD i 0

/-- The registers FF 01 00 00 are read as 0x100, one short of a carry. -/
theorem carry_lost :
    (readRegs (foundBoard firstChip carryBytes) belowState.dev 0 46).2 = ⟨0xff, 0x01, 0x00, 0x00⟩ ∧
      (be200GetResult (foundBoard firstChip carryBytes) belowState.dev 0 1).2 = some 0x100 ∧
      exactNonce 0xff 0x01 0x00 0x00 = 0x200 :=
  ⟨rfl, by rw [foundBoard_result]; rfl, by decide⟩

/-! ### Flagged nonces -/

/-- The transfers a turn makes between its status check and its first test, oldest first. -/
def reads (t : Turn b) : List (Xfer σ) :=
  (t.readOut.1.xfers.take (t.readOut.1.xfers.length - t.dev.xfers.length)).reverse

def answer (b : Board σ) (x : Xfer σ) : Byte := (b.spi x.env x.chip x.sent).2 1

/-- In these transfers the four registers of nonce `k` are read before the flags are cleared, and
hold `v` (put together as the driver does). -/
def NonceIn (b : Board σ) (idx : ℕ) (xs : List (Xfer σ)) (k : ℕ) (v : Word) : Prop :=
  ∃ x0 x1 x2 x3, (∀ x ∈ [x0, x1, x2, x3], x ∈ xs.takeWhile (¬IsClear ·) ∧ x.chip = idx) ∧
    Reads x0 (46 + 4 * k) ∧ Reads x1 (46 + 4 * k + 1) ∧ Reads x2 (46 + 4 * k + 2) ∧
    Reads x3 (46 + 4 * k + 3) ∧
    v = nonceValue (answer b x0) (answer b x1) (answer b x2) (answer b x3)

def TestsBase (t : Turn b) (v : Word) : Prop :=
  ∃ n, 0 < n ∧ t.tests.map Prod.fst = (candidates v).take n

/-- The base nonces the turn tests are the nonces its chip flags, read out in the turn. -/
def TestsFlagged (t : Turn b) : Prop :=
  (∀ k < 4, t.mask.getLsbD k = true → ∃ v, NonceIn b t.chip (reads t) k v ∧ TestsBase t v) ∧
    ∀ v, TestsBase t v → ∃ k < 4, t.mask.getLsbD k = true ∧ NonceIn b t.chip (reads t) k v

def OneFlag (t : Turn b) : Prop := ∃ k < 4, ∀ i < 4, t.mask.getLsbD i = true ↔ i = k

theorem first_candidate (v : Word) : v + BitVec.ofInt 32 0 = v := BitVec.add_zero v

theorem testsBase_iff (t : Turn b) (v : Word) : TestsBase t v ↔ v = t.base := by
  obtain ⟨check, rest, htests⟩ : ∃ check rest, t.tests = (t.base, check) :: rest := by
    rw [Turn.tests, diffNonce, tries, first_candidate]
    exact ⟨_, _, rfl⟩
  constructor
  · rintro ⟨n, hn, htake⟩
    obtain ⟨n, rfl⟩ : ∃ n', n = n' + 1 := ⟨n - 1, by omega⟩
    rw [htests, candidates, diffNonce, List.map_cons, List.map_cons,
      List.take_succ_cons, List.cons.injEq,
      first_candidate] at htake
    exact htake.1.symm
  · rintro rfl
    have hpre : t.tests.map Prod.fst <+: candidates t.base :=
      tries_prefix t.chip t.base diffNonce t.jobs
    exact ⟨_, by rw [htests]; simp, List.prefix_iff_eq_take.mp hpre⟩

/-! ### One flag -/

theorem reads_none (t : Turn b) (h : t.mask &&& 0x0f = 0) : reads t = [] := by
  rw [reads, Turn.readOut, getResult_none t.dev t.chip t.mask (startReg_none t.mask h),
    Nat.sub_self, List.take_zero, List.reverse_nil]

theorem reads_some (t : Turn b) (reg : ℕ) (h : nonceStartReg t.mask = some reg) :
    ∃ e3 e2 e1 e0 e, reads t =
      [⟨e3, t.chip, [be200CmdReadReg (reg + 3), 0, 0, 0]⟩,
        ⟨e2, t.chip, [be200CmdReadReg (reg + 2), 0, 0, 0]⟩,
        ⟨e1, t.chip, [be200CmdReadReg (reg + 1), 0, 0, 0]⟩,
        ⟨e0, t.chip, [be200CmdReadReg reg, 0, 0, 0]⟩,
        ⟨e, t.chip, [be200CmdReadReg be200RegClear, 0, 0, 0]⟩] ∧
      t.base = nonceValue (answer b ⟨e0, t.chip, [be200CmdReadReg reg, 0, 0, 0]⟩)
        (answer b ⟨e1, t.chip, [be200CmdReadReg (reg + 1), 0, 0, 0]⟩)
        (answer b ⟨e2, t.chip, [be200CmdReadReg (reg + 2), 0, 0, 0]⟩)
        (answer b ⟨e3, t.chip, [be200CmdReadReg (reg + 3), 0, 0, 0]⟩) := by
  let d2 := (be200CmdRd b t.dev t.chip (reg + 3)).1
  let d1 := (be200CmdRd b d2 t.chip (reg + 2)).1
  let d0 := (be200CmdRd b d1 t.chip (reg + 1)).1
  refine ⟨t.dev.env, d2.env, d1.env, d0.env, (be200CmdRd b d0 t.chip reg).1.env, ?_, ?_⟩
  · rw [reads, Turn.readOut, getResult_some t.dev t.chip t.mask reg h]
    simp only [readRegs, rd_xfers, List.length_cons, Nat.add_zero]
    rw [show t.dev.xfers.length + 1 + 1 + 1 + 1 + 1 - t.dev.xfers.length = 5 by omega]
    rfl
  · rw [Turn.base, Turn.readOut, getResult_some t.dev t.chip t.mask reg h]
    rfl

theorem readReg_inj : ∀ m < 64, ∀ n < 64, be200CmdReadReg m = be200CmdReadReg n → m = n := by
  decide +kernel

theorem testsFlagged_iff (t : Turn b) : TestsFlagged t ↔ OneFlag t := by
  by_cases h : t.mask &&& 0x0f = 0
  · -- no flag: the stale nonce is tested
    have hzero : ∀ k < 4, t.mask.getLsbD k ≠ true := by
      generalize t.mask = mask at h
      revert mask
      decide +kernel
    constructor
    · rintro ⟨_, htested⟩
      obtain ⟨k, hk, hflag, _⟩ := htested t.base ((testsBase_iff t _).mpr rfl)
      exact absurd hflag (hzero k hk)
    · rintro ⟨k, hk, hone⟩
      exact absurd ((hone k hk).mpr rfl) (hzero k hk)
  · obtain ⟨k, hk, hflag, hreg⟩ := startReg_some t.mask h
    obtain ⟨e3, e2, e1, e0, e, hreads, hbase⟩ := reads_some t (46 + 4 * k) hreg
    have hne (i : ℕ) (hi : i < 4) : be200CmdReadReg (46 + 4 * k + i) ≠
        be200CmdReadReg be200RegClear :=
      (readReg_ne _ (by omega)).1
    have hkeep (env : σ) (i : ℕ) (hi : i < 4) :
        ¬IsClear (⟨env, t.chip, [be200CmdReadReg (46 + 4 * k + i), 0, 0, 0]⟩ : Xfer σ) :=
      fun hc => hne i hi ((sends_iff ..).mp hc)
    have hstop : IsClear (⟨e, t.chip, [be200CmdReadReg be200RegClear, 0, 0, 0]⟩ : Xfer σ) :=
      (sends_iff ..).mpr rfl
    have hzero := hkeep e0 0 (by omega)
    rw [Nat.add_zero] at hzero
    have htake : (reads t).takeWhile (¬IsClear ·) =
        [⟨e3, t.chip, [be200CmdReadReg (46 + 4 * k + 3), 0, 0, 0]⟩,
          ⟨e2, t.chip, [be200CmdReadReg (46 + 4 * k + 2), 0, 0, 0]⟩,
          ⟨e1, t.chip, [be200CmdReadReg (46 + 4 * k + 1), 0, 0, 0]⟩,
          ⟨e0, t.chip, [be200CmdReadReg (46 + 4 * k), 0, 0, 0]⟩] := by
      rw [hreads]
      simp only [List.takeWhile_cons, hkeep e3 3 (by omega), hkeep e2 2 (by omega),
        hkeep e1 1 (by omega), hzero, hstop,
        not_true_eq_false, not_false_eq_true, decide_true, decide_false, if_true, if_false,
          Bool.false_eq_true]
    have hread : NonceIn b t.chip (reads t) k t.base := by
      refine ⟨_, _, _, _, fun x hx => ?_, (sends_iff ..).mpr rfl, (sends_iff ..).mpr rfl,
        (sends_iff ..).mpr rfl, (sends_iff ..).mpr rfl, hbase⟩
      rw [htake]
      simp only [List.mem_cons, List.not_mem_nil, or_false] at hx ⊢
      rcases hx with rfl | rfl | rfl | rfl <;> simp
    constructor
    · rintro ⟨hflagged, _⟩
      refine ⟨k, hk, fun i hi => ⟨fun hi' => ?_, fun hik => hik ▸ hflag⟩⟩
      -- only registers of nonce `k` are read, so a second flag has no read-out
      obtain ⟨v, ⟨x0, x1, x2, x3, hx, hr0, _⟩, _⟩ := hflagged i hi hi'
      have hx0 := (hx x0 (List.mem_cons_self ..)).1
      rw [htake] at hx0
      simp only [List.mem_cons, List.not_mem_nil, or_false] at hx0
      rcases hx0 with rfl | rfl | rfl | rfl
      all_goals
        have hreg := readReg_inj _ (by omega) _ (by omega) ((sends_iff ..).mp hr0)
        omega
    · rintro ⟨k', hk', hone⟩
      have hkk : k = k' := (hone k hk).mp hflag
      refine ⟨fun i hi hi' => ?_, fun v hv => ?_⟩
      · have hik : i = k := ((hone i hi).mp hi').trans hkk.symm
        exact ⟨t.base, hik ▸ hread, (testsBase_iff t _).mpr rfl⟩
      · rw [(testsBase_iff t v).mp hv]
        exact ⟨k, hk, hflag, hread⟩

/-- The turn also tests before the flags are cleared. -/
def TestsFirst (t : Turn b) : Prop := TestsFlagged t ∧ ∀ x ∈ reads t, ¬IsClear x

theorem not_testsFirst (t : Turn b) : ¬TestsFirst t := by
  rintro ⟨hflagged, hclear⟩
  by_cases h : t.mask &&& 0x0f = 0
  · obtain ⟨k, _, _, x0, _, _, _, hx, _⟩ := hflagged.2 t.base ((testsBase_iff t _).mpr rfl)
    have hx0 := (hx x0 (List.mem_cons_self ..)).1
    rw [reads_none t h] at hx0
    cases hx0
  · obtain ⟨k, _, _, hreg⟩ := startReg_some t.mask h
    obtain ⟨_, _, _, _, e, hreads, _⟩ := reads_some t (46 + 4 * k) hreg
    exact hclear ⟨e, t.chip, [be200CmdReadReg be200RegClear, 0, 0, 0]⟩ (by rw [hreads]; simp)
      ((sends_iff ..).mpr rfl)

/-- **A pass tests the nonces its ready chips flag**, each read out before the flags are cleared,
exactly when each of them flags one. No test comes before the flags are cleared. -/
theorem testsFlagged_all_iff (b : Board σ) (s : Fw σ) :
    ((∀ t ∈ passTurns b s, TestsFlagged t) ↔ ∀ t ∈ passTurns b s, OneFlag t) ∧
    ((∀ t ∈ passTurns b s, TestsFirst t) ↔ passTurns b s = []) := by
  refine ⟨forall₂_congr fun t _ => testsFlagged_iff t, ?_, ?_⟩
  · intro h
    exact List.eq_nil_iff_forall_not_mem.mpr fun t ht => not_testsFirst t (h t ht)
  · intro h t ht
    rw [h] at ht
    cases ht

theorem firstTurn_mem (s : Fw σ) (mask : Byte)
    (h : (be200GetDone b (passStart b s).fw.dev 0).2 = some mask) :
    ⟨0, passStart b s, mask, h⟩ ∈ passTurns b s := by
  rw [passTurns, chipNumber, List.range_succ_eq_map, turnsFrom, turnAt_some h]
  exact List.mem_append_left _ (List.mem_singleton_self _)

def emptyMask (idx : ℕ) : Byte := if idx = 0 then 0x02 else 0
def twoFlags (idx : ℕ) : Byte := if idx = 0 then 0x0e else 0

/-- A ready chip without a flag has a nonce tested it was not asked for; of two flagged nonces one
is not tested. -/
theorem flags_missed :
    ¬(∀ t ∈ passTurns (foundBoard emptyMask nonceBytes) belowState, TestsFlagged t) ∧
    ¬(∀ t ∈ passTurns (foundBoard twoFlags nonceBytes) belowState, TestsFlagged t) := by
  constructor
  · intro h
    obtain ⟨k, hk, hone⟩ := (testsFlagged_iff _).mp (h _ (firstTurn_mem belowState 0 rfl))
    have hflag := (hone k hk).mpr rfl
    revert k
    decide
  · intro h
    obtain ⟨k, hk, hone⟩ := (testsFlagged_iff _).mp (h _ (firstTurn_mem belowState 3 rfl))
    have h0 := (hone 0 (by omega)).mp (by decide)
    have h1 := (hone 1 (by omega)).mp (by decide)
    omega

end HashRatio.NonceRead
