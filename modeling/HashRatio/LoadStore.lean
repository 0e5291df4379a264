import HashRatio.Lib.Memory
import HashRatio.Lib.Bytes
import Mathlib.Tactic.IntervalCases

/-!
# The load store unit (lm32_load_store_unit.v)

With data RAM and instruction ROM and without a data cache: byte lanes, selection by
address, the bypass around the data RAM and the data bus.
-/

namespace HashRatio.LoadStore
open Bytes

/-! ### Selection by address -/

def cfgIromBaseAddress : Word := 0x0000
def cfgIromLimit : Word := 0x3fff
def cfgDramBaseAddress : Word := 0x4000
def cfgDramLimit : Word := 0x7fff

def dramSelect (a : Word) : Bool := decide (cfgDramBaseAddress ≤ a) && decide (a ≤ cfgDramLimit)

def iromSelect (a : Word) : Bool := decide (cfgIromBaseAddress ≤ a) && decide (a ≤ cfgIromLimit)

def wbSelect (a : Word) : Bool := !dramSelect a && !iromSelect a

/-! ### Byte lanes -/

/-- The size codes of loads and stores. -/
inductive Size where
  | byte
  | hword
  | word
  deriving DecidableEq, Repr

def Size.storeData (z : Size) (w : Word) : Word :=
  match z with
  | .byte => beWord (w.setWidth 8) (w.setWidth 8) (w.setWidth 8) (w.setWidth 8)
  | .hword => w.extractLsb' 0 16 ++ w.extractLsb' 0 16
  | .word => w

def Size.byteEnable (z : Size) (a : Word) : BitVec 4 :=
  match z with
  | .byte =>
    if a.extractLsb' 0 2 = 3 then 1 else if a.extractLsb' 0 2 = 2 then 2
      else if a.extractLsb' 0 2 = 1 then 4 else 8
  | .hword => if a.getLsbD 1 then 3 else 12
  | .word => 15

/-- Only the enabled bytes are replaced. -/
def merge (enable : BitVec 4) (new old : Word) : Word :=
  beWord (if enable.getLsbD 3 then new.extractLsb' 24 8 else old.extractLsb' 24 8)
    (if enable.getLsbD 2 then new.extractLsb' 16 8 else old.extractLsb' 16 8)
    (if enable.getLsbD 1 then new.extractLsb' 8 8 else old.extractLsb' 8 8)
    (if enable.getLsbD 0 then new.extractLsb' 0 8 else old.extractLsb' 0 8)

def extend {n : ℕ} (sign : Bool) (b : BitVec n) : Word :=
  if sign then b.signExtend 32 else b.setWidth 32

/-- `a`: the low bits of the address. -/
def Size.loadData (z : Size) (sign : Bool) (a : BitVec 2) (w : Word) : Word :=
  match z with
  | .byte =>
    if a = 3 then extend sign (w.extractLsb' 0 8)
    else if a = 2 then extend sign (w.extractLsb' 8 8)
    else if a = 1 then extend sign (w.extractLsb' 16 8)
    else extend sign (w.extractLsb' 24 8)
  | .hword =>
    if a.getLsbD 1 then extend sign (w.extractLsb' 0 16) else extend sign (w.extractLsb' 16 16)
  | .word => w

/-! ### Registers -/

structure Regs where
  dCyc : Bool
  dStb : Bool
  dWe : Bool
  dLock : Bool
  dAdr : Word
  dDat : Word
  dSel : BitVec 4
  dCti : BitVec 3
  wbDataM : Word
  wbLoadComplete : Bool
  stallWbLoad : Bool
  dramBypassEn : Bool
  dramBypassData : Word
  sizeM : Size
  signExtendM : Bool
  byteEnableM : BitVec 4
  storeDataM : Word
  dramSelectM : Bool
  iromSelectM : Bool
  wbSelectM : Bool
  sizeW : Size
  dataW : Word
  signExtendW : Bool
  deriving DecidableEq, Repr

/-- `LM32_CTYPE_END` -/
def ctypeEnd : BitVec 3 := 7

def Regs.reset : Regs where
  dCyc := false
  dStb := false
  dWe := false
  dLock := false
  dAdr := 0
  dDat := 0
  dSel := 0
  dCti := ctypeEnd
  wbDataM := 0
  wbLoadComplete := false
  stallWbLoad := false
  dramBypassEn := false
  dramBypassData := 0
  sizeM := .byte
  signExtendM := false
  byteEnableM := 0
  storeDataM := 0
  dramSelectM := false
  iromSelectM := false
  wbSelectM := false
  sizeW := .byte
  dataW := 0
  signExtendW := false

/-- From the pipeline, the memories and the bus. -/
structure Input where
  stallX : Bool
  stallM : Bool
  killM : Bool
  exceptionM : Bool
  storeOperandX : Word
  loadStoreAddressX : Word
  loadStoreAddressM : Word
  loadX : Bool
  storeX : Bool
  loadQX : Bool
  storeQX : Bool
  loadQM : Bool
  storeQM : Bool
  signExtendX : Bool
  sizeX : Size
  iromDataM : Word
  dramQRd : Word
  dDatI : Word
  dAckI : Bool
  dErrI : Bool
  deriving DecidableEq, Repr

section wires
variable (s : Regs) (i : Input)

def Regs.dramDataM : Word := if s.dramBypassEn then s.dramBypassData else i.dramQRd

def Regs.dramStoreDataM : Word := merge s.byteEnableM s.storeDataM (s.dramDataM i)

def Regs.iromStoreDataM : Word := merge s.byteEnableM s.storeDataM i.iromDataM

def Regs.iromAddressXm : Word :=
  if s.iromSelectM ∧ i.storeQM then i.loadStoreAddressM else i.loadStoreAddressX

def Regs.iromWeXm : Bool := s.iromSelectM && i.storeQM

def iromStallRequestX (address : Word) (storeQX : Bool) : Bool := iromSelect address && storeQX

def Regs.dataM : Word :=
  if s.wbSelectM then s.wbDataM else if s.dramSelectM then s.dramDataM i else i.iromDataM

def Regs.loadDataW (addressW : BitVec 2) : Word := s.sizeW.loadData s.signExtendW addressW s.dataW

def Regs.answered : Bool := s.dCyc && (i.dAckI || i.dErrI)

def Regs.storeStarts : Bool :=
  !s.dCyc && (i.storeQM && !i.stallM && !s.dramSelectM && !s.iromSelectM)

def Regs.loadStarts : Bool :=
  !s.dCyc && !(i.storeQM && !i.stallM && !s.dramSelectM && !s.iromSelectM) &&
    (i.loadQM && s.wbSelectM && !s.wbLoadComplete)

end wires

/-- A store is followed by a load or store of the same word. -/
def Input.bypassStarts (i : Input) : Bool :=
  !i.stallM && !i.stallX && i.storeQM && (i.loadX || i.storeX) &&
    (i.loadStoreAddressX.extractLsb' 2 30 == i.loadStoreAddressM.extractLsb' 2 30)

def Regs.next (s : Regs) (i : Input) : Regs where
  dCyc := if s.answered i then false else s.dCyc || s.storeStarts i || s.loadStarts i
  dStb := if s.answered i then false else s.dStb || s.storeStarts i || s.loadStarts i
  dWe := if s.storeStarts i then true else if s.loadStarts i then false else s.dWe
  dLock := if s.answered i then false else s.dLock
  dAdr := if s.storeStarts i || s.loadStarts i then i.loadStoreAddressM else s.dAdr
  dDat := if s.storeStarts i then s.storeDataM else s.dDat
  dSel := if s.storeStarts i || s.loadStarts i then s.byteEnableM else s.dSel
  dCti := if s.storeStarts i || s.loadStarts i then ctypeEnd else s.dCti
  wbDataM := if s.answered i then i.dDatI else s.wbDataM
  wbLoadComplete := if !i.stallM then false else if s.answered i then !s.dWe else s.wbLoadComplete
  stallWbLoad :=
    if i.killM || i.exceptionM then false
    else if i.loadQX && wbSelect i.loadStoreAddressX && !i.stallX then true
    else if s.loadStarts i then false
    else s.stallWbLoad
  dramBypassEn :=
    if i.bypassStarts then true else if s.dramBypassEn && !i.stallX then false else s.dramBypassEn
  dramBypassData := if !i.stallX then s.dramStoreDataM i else s.dramBypassData
  sizeM := if !i.stallM then i.sizeX else s.sizeM
  signExtendM := if !i.stallM then i.signExtendX else s.signExtendM
  byteEnableM := if !i.stallM then i.sizeX.byteEnable i.loadStoreAddressX else s.byteEnableM
  storeDataM := if !i.stallM then i.sizeX.storeData i.storeOperandX else s.storeDataM
  dramSelectM := if !i.stallM then dramSelect i.loadStoreAddressX else s.dramSelectM
  iromSelectM := if !i.stallM then iromSelect i.loadStoreAddressX else s.iromSelectM
  wbSelectM := if !i.stallM then wbSelect i.loadStoreAddressX else s.wbSelectM
  sizeW := s.sizeM
  dataW := s.dataM i
  signExtendW := s.signExtendM

/-! ### The bytes behind the lanes -/

section lanes
open Memory

def wordOf (m : Mem Byte) (k : ℕ) : Word :=
  beWord (m k) (m (k + 1 : ℕ)) (m (k + 2 : ℕ)) (m (k + 3 : ℕ))

/-- Of a misaligned address the low bits are dropped. -/
def Size.load (z : Size) (sign : Bool) (m : Mem Byte) (a : Word) : Word :=
  match z with
  | .byte => extend sign (m a.toNat)
  | .hword => extend sign (m (a.toNat / 2 * 2 : ℕ) ++ m (a.toNat / 2 * 2 + 1 : ℕ))
  | .word => wordOf m (a.toNat / 4 * 4)

def Size.store (z : Size) (m : Mem Byte) (a w : Word) : Mem Byte :=
  match z with
  | .byte => write m a.toNat [w.setWidth 8]
  | .hword => write m (a.toNat / 2 * 2 : ℕ) [w.extractLsb' 8 8, w.setWidth 8]
  | .word => write m (a.toNat / 4 * 4 : ℕ) (wordBytes w)

variable {m : Mem Byte} {a w : Word} {k : ℕ}

theorem extract_beWord (b0 b1 b2 b3 : Byte) :
    (beWord b0 b1 b2 b3).extractLsb' 24 8 = b0 ∧ (beWord b0 b1 b2 b3).extractLsb' 16 8 = b1 ∧
      (beWord b0 b1 b2 b3).extractLsb' 8 8 = b2 ∧ (beWord b0 b1 b2 b3).extractLsb' 0 8 = b3 := by
  refine ⟨?_, ?_, ?_, ?_⟩ <;>
    (apply BitVec.eq_of_getLsbD_eq
     intro i hi
     simp only [beWord, BitVec.getLsbD_append, BitVec.getLsbD_extractLsb']
     interval_cases i <;> simp)

theorem lane_cases (a : Word) :
    (a.extractLsb' 0 2 = 0 ∧ a.getLsbD 1 = false ∧ a.toNat % 4 = 0) ∨
      (a.extractLsb' 0 2 = 1 ∧ a.getLsbD 1 = false ∧ a.toNat % 4 = 1) ∨
      (a.extractLsb' 0 2 = 2 ∧ a.getLsbD 1 = true ∧ a.toNat % 4 = 2) ∨
      (a.extractLsb' 0 2 = 3 ∧ a.getLsbD 1 = true ∧ a.toNat % 4 = 3) := by
  have hlow : (a.extractLsb' 0 2).toNat = a.toNat % 4 := by simp [BitVec.extractLsb'_toNat]
  have hbit : a.getLsbD 1 = (a.extractLsb' 0 2).getLsbD 1 := by simp
  rw [hbit, ← hlow]
  generalize a.extractLsb' 0 2 = x
  revert x
  decide

theorem wordOf_bytes (m : Mem Byte) (k : ℕ) :
    (wordOf m k).extractLsb' 24 8 = m k ∧ (wordOf m k).extractLsb' 16 8 = m (k + 1 : ℕ) ∧
      (wordOf m k).extractLsb' 8 8 = m (k + 2 : ℕ) ∧ (wordOf m k).extractLsb' 0 8 = m (k + 3 : ℕ) :=
  extract_beWord _ _ _ _

theorem wordOf_halves (m : Mem Byte) (k : ℕ) :
    (wordOf m k).extractLsb' 16 16 = m k ++ m (k + 1 : ℕ) ∧
      (wordOf m k).extractLsb' 0 16 = m (k + 2 : ℕ) ++ m (k + 3 : ℕ) := by
  refine ⟨?_, ?_⟩ <;>
    (apply BitVec.eq_of_getLsbD_eq
     intro i hi
     simp only [wordOf, beWord, BitVec.getLsbD_append, BitVec.getLsbD_extractLsb']
     interval_cases i <;> simp)

theorem load_eq (z : Size) (sign : Bool) (m : Mem Byte) (a : Word) :
    z.loadData sign (a.extractLsb' 0 2) (wordOf m (a.toNat / 4 * 4)) = z.load sign m a := by
  obtain ⟨h3, h2, h1, h0⟩ := wordOf_bytes m (a.toNat / 4 * 4)
  obtain ⟨hhigh, hlow⟩ := wordOf_halves m (a.toNat / 4 * 4)
  cases z with
  | byte =>
    simp only [Size.loadData, Size.load]
    obtain ⟨hl, -, hr⟩ | ⟨hl, -, hr⟩ | ⟨hl, -, hr⟩ | ⟨hl, -, hr⟩ := lane_cases a
    · rw [hl, if_neg (by decide), if_neg (by decide), if_neg (by decide), h3,
        show a.toNat / 4 * 4 = a.toNat by omega]
    · rw [hl, if_neg (by decide), if_neg (by decide), if_pos rfl, h2,
        show a.toNat / 4 * 4 + 1 = a.toNat by omega]
    · rw [hl, if_neg (by decide), if_pos rfl, h1, show a.toNat / 4 * 4 + 2 = a.toNat by omega]
    · rw [hl, if_pos rfl, h0, show a.toNat / 4 * 4 + 3 = a.toNat by omega]
  | hword =>
    simp only [Size.loadData, Size.load]
    obtain ⟨hl, -, hr⟩ | ⟨hl, -, hr⟩ | ⟨hl, -, hr⟩ | ⟨hl, -, hr⟩ := lane_cases a
    · rw [hl, if_neg (by decide), hhigh, show a.toNat / 2 * 2 = a.toNat / 4 * 4 by omega]
    · rw [hl, if_neg (by decide), hhigh, show a.toNat / 2 * 2 = a.toNat / 4 * 4 by omega]
    · rw [hl, if_pos (by decide), hlow, show a.toNat / 2 * 2 = a.toNat / 4 * 4 + 2 by omega]
    · rw [hl, if_pos (by decide), hlow, show a.toNat / 2 * 2 = a.toNat / 4 * 4 + 2 by omega]
  | word => rfl

theorem wordOf_congr {m m' : Mem Byte} (h : ∀ d < 4, m (k + d : ℕ) = m' (k + d : ℕ)) :
    wordOf m k = wordOf m' k := by
  unfold wordOf
  rw [h 1 (by decide), h 2 (by decide), h 3 (by decide)]
  exact congrArg (beWord · _ _ _) (h 0 (by decide))

theorem store_out {z : Size} {x : ℕ} (h : x < a.toNat / 4 * 4 ∨ a.toNat / 4 * 4 + 4 ≤ x) :
    z.store m a w x = m x := by
  cases z with
  | byte => exact write_out m _ _ _ (by simp only [List.length_singleton]; omega)
  | hword => exact write_out m _ _ _ (by simp only [List.length_cons, List.length_nil]; omega)
  | word => exact write_out m _ _ _ (by rw [wordBytes_length]; omega)

theorem byteEnable_byte (a : Word) :
    ∀ d < 4, (Size.byte.byteEnable a).getLsbD (3 - d) = decide (d = a.toNat % 4) := by
  obtain ⟨hl, -, hr⟩ | ⟨hl, -, hr⟩ | ⟨hl, -, hr⟩ | ⟨hl, -, hr⟩ := lane_cases a <;>
    · rw [Size.byteEnable, hl, hr]
      decide

theorem byteEnable_hword (a : Word) :
    ∀ d < 4, (Size.hword.byteEnable a).getLsbD (3 - d) = decide (d / 2 = a.toNat % 4 / 2) := by
  obtain ⟨-, hb, hr⟩ | ⟨-, hb, hr⟩ | ⟨-, hb, hr⟩ | ⟨-, hb, hr⟩ := lane_cases a <;>
    · rw [Size.byteEnable, hb, hr]
      decide

theorem storeData_hword (w : Word) :
    ∀ d < 4, (Size.hword.storeData w).extractLsb' (8 * (3 - d)) 8 = if d % 2 = 0 then
      w.extractLsb' 8 8 else w.setWidth 8 := by
  intro d hd
  interval_cases d <;>
    (apply BitVec.eq_of_getLsbD_eq
     intro i hi
     simp only [Size.storeData, BitVec.getLsbD_append, BitVec.getLsbD_extractLsb']
     interval_cases i <;> simp)

/-- Each byte of the word, from the highest. -/
theorem store_lane (z : Size) (m : Mem Byte) (a w : Word) (d : ℕ) (hd : d < 4) :
    z.store m a w (a.toNat / 4 * 4 + d : ℕ) =
      if (z.byteEnable a).getLsbD (3 - d) then (z.storeData w).extractLsb' (8 * (3 - d)) 8
      else m (a.toNat / 4 * 4 + d : ℕ) := by
  cases z with
  | byte =>
    have hdata : (Size.byte.storeData w).extractLsb' (8 * (3 - d)) 8 = w.setWidth 8 := by
      obtain ⟨h3, h2, h1, h0⟩ :=
        extract_beWord (w.setWidth 8) (w.setWidth 8) (w.setWidth 8) (w.setWidth 8)
      interval_cases d <;> assumption
    rw [byteEnable_byte a d hd, hdata, Size.store]
    by_cases h : d = a.toNat % 4
    · rw [if_pos (decide_eq_true h),
        write_in' m _ _ _ 0 (by omega) (by simp only [List.length_singleton]; omega),
        show ((a.toNat / 4 * 4 + d : ℕ) - (a.toNat : ℤ)).toNat = 0 by omega]
      rfl
    · rw [if_neg (by simpa using h)]
      exact write_out m _ _ _ (by simp only [List.length_singleton]; omega)
  | hword =>
    rw [byteEnable_hword a d hd, storeData_hword w d hd, Size.store]
    by_cases h : d / 2 = a.toNat % 4 / 2
    · rw [if_pos (decide_eq_true h),
        write_in' m _ _ _ 0 (by omega) (by simp only [List.length_cons, List.length_nil]; omega)]
      by_cases hodd : d % 2 = 0
      · rw [if_pos hodd,
          show ((a.toNat / 4 * 4 + d : ℕ) - (a.toNat / 2 * 2 : ℕ) : ℤ).toNat = 0 by omega]
        rfl
      · rw [if_neg hodd,
          show ((a.toNat / 4 * 4 + d : ℕ) - (a.toNat / 2 * 2 : ℕ) : ℤ).toNat = 1 by omega]
        rfl
    · rw [if_neg (by simpa using h)]
      exact write_out m _ _ _ (by simp only [List.length_cons, List.length_nil]; omega)
  | word =>
    rw [Size.store, write_in' m _ _ _ 0 (by omega) (by rw [wordBytes_length]; omega),
      show ((a.toNat / 4 * 4 + d : ℕ) - (a.toNat / 4 * 4 : ℕ) : ℤ).toNat = d by omega]
    interval_cases d <;> · simp [Size.byteEnable, Size.storeData, wordBytes]; ext i hi; simp

theorem store_eq (z : Size) (m : Mem Byte) (a w : Word) :
    wordOf (z.store m a w) (a.toNat / 4 * 4) =
      merge (z.byteEnable a) (z.storeData w) (wordOf m (a.toNat / 4 * 4)) := by
  obtain ⟨h3, h2, h1, h0⟩ := wordOf_bytes m (a.toNat / 4 * 4)
  have hlane := store_lane z m a w
  unfold merge
  rw [h3, h2, h1, h0, wordOf, hlane 1 (by decide), hlane 2 (by decide), hlane 3 (by decide)]
  exact congrArg (beWord · _ _ _) (hlane 0 (by decide))

theorem store_other {z : Size} (hk : 4 ∣ k) (h : k ≠ a.toNat / 4 * 4) :
    wordOf (z.store m a w) k = wordOf m k :=
  wordOf_congr fun d hd => store_out (by omega)

end lanes

end HashRatio.LoadStore
