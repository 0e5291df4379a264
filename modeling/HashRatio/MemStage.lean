import HashRatio.LoadStore
import HashRatio.Lib.Run

/-!
# Loads and stores in the pipeline (lm32_cpu.v)

The X, M and W stages as far as loads and stores go, with the data RAM, the data port of
the instruction ROM and the bus behind the load store unit. Whatever stalls, flushes and
exceptions come, they work on one memory in the order in which they leave X.
-/

namespace HashRatio.MemStage
open Bytes Memory LoadStore Run

/-! ### Pipeline registers -/

/-- `load_x`, `store_x`, or neither. -/
inductive Kind where
  | load
  | store
  | other
  deriving DecidableEq, Repr

@[simp] theorem load_store : (Kind.load == Kind.store) = false := rfl

@[simp] theorem store_load : (Kind.store == Kind.load) = false := rfl

@[simp] theorem other_load : (Kind.other == Kind.load) = false := rfl

@[simp] theorem other_store : (Kind.other == Kind.store) = false := rfl

/-- An instruction as the load store unit sees it in X; `address`: the result of the adder. -/
structure Instr where
  kind : Kind
  size : Size
  signExtend : Bool
  address : Word
  operand : Word
  deriving DecidableEq, Repr

/-- `operandM` is kept for loads and stores, whose result in X is the address. -/
structure Stage where
  x : Instr
  validX : Bool
  loadM : Bool
  storeM : Bool
  validM : Bool
  exceptionM : Bool
  operandM : Word
  operandW : BitVec 2
  lsu : Regs
  dram : BitVec 12 → Word
  dramQRd : Word
  irom : BitVec 12 → Word
  iromQWr : Word

/-- One clock. `d`: the instruction in D, which X takes when it moves; `advances`: whether it is
valid then; `flush`: a branch in M is taken; `clash`: what a memory port shows that another port
writes to. -/
structure Clock where
  d : Instr
  advances : Bool
  flush : Bool
  exceptionX : Bool
  interruptException : Bool
  iCyc : Bool
  userStall : Bool
  dDatI : Word
  dAckI : Bool
  dErrI : Bool
  clash : Word
  deriving DecidableEq, Repr

/-- Of a word of the data RAM or the ROM. -/
def index (a : Word) : BitVec 12 := a.extractLsb' 2 12

def update (m : BitVec 12 → Word) (k : BitVec 12) (w : Word) : BitVec 12 → Word :=
  fun j => if j = k then w else m j

section wires
variable (t : Stage) (c : Clock)

def Stage.stallM : Bool :=
  t.lsu.stallWbLoad ||
    (t.lsu.dCyc &&
      (t.storeM || (t.x.kind == .store && c.interruptException) || t.loadM || t.x.kind == .load)) ||
    c.iCyc || c.userStall

def Stage.killX : Bool := !t.stallM c && (c.flush || t.exceptionM)

def Stage.qX : Bool := t.validX && !t.killX c

def Stage.loadQX : Bool := t.x.kind == .load && t.qX c

def Stage.storeQX : Bool := t.x.kind == .store && t.qX c

def Stage.stallX : Bool :=
  t.stallM c ||
    (iromStallRequestX t.x.address (t.storeQX c) && (c.d.kind == .load || c.d.kind == .store))

def Stage.qM : Bool := t.validM && !t.exceptionM

def Stage.loadQM : Bool := t.loadM && t.qM

def Stage.storeQM : Bool := t.storeM && t.qM

def Stage.input : LoadStore.Input where
  stallX := t.stallX c
  stallM := t.stallM c
  killM := false
  exceptionM := t.exceptionM
  storeOperandX := t.x.operand
  loadStoreAddressX := t.x.address
  loadStoreAddressM := t.operandM
  loadX := t.x.kind == .load
  storeX := t.x.kind == .store
  loadQX := t.loadQX c
  storeQX := t.storeQX c
  loadQM := t.loadQM
  storeQM := t.storeQM
  signExtendX := t.x.signExtend
  sizeX := t.x.size
  iromDataM := t.iromQWr
  dramQRd := t.dramQRd
  dDatI := c.dDatI
  dAckI := c.dAckI
  dErrI := c.dErrI

def Stage.dramWrites : Bool := !t.stallM c && t.storeQM && t.lsu.dramSelectM

def Stage.iromWrites : Bool := (!t.stallX c || !t.stallM c) && t.lsu.iromWeXm (t.input c)

end wires

def Stage.next (t : Stage) (c : Clock) : Stage where
  x := if t.stallX c then t.x else c.d
  validX := if !t.stallX c then c.advances else if t.killX c then false else t.validX
  loadM := if t.stallM c then t.loadM else t.x.kind == .load
  storeM := if t.stallM c then t.storeM else t.x.kind == .store
  validM := if !t.stallX c then t.qX c else if !t.stallM c then false else t.validM
  exceptionM := if t.stallM c then t.exceptionM else c.exceptionX && t.qX c && !t.stallX c
  operandM := if t.stallM c then t.operandM else t.x.address
  operandW := t.operandM.extractLsb' 0 2
  lsu := t.lsu.next (t.input c)
  dram :=
    if t.dramWrites c then
      update t.dram (index t.operandM) (t.lsu.dramStoreDataM (t.input c)) else t.dram
  dramQRd :=
    if t.stallX c then t.dramQRd
    else if t.dramWrites c ∧ index t.x.address = index t.operandM then c.clash
    else t.dram (index t.x.address)
  irom :=
    if t.iromWrites c then
      update t.irom (index (t.lsu.iromAddressXm (t.input c))) (t.lsu.iromStoreDataM (t.input c))
    else t.irom
  iromQWr :=
    if t.stallX c && t.stallM c then t.iromQWr
    else if t.iromWrites c then c.clash
    else t.irom (index (t.lsu.iromAddressXm (t.input c)))

/-! ### What is read, written and asked for -/

/-- An access on the bus, with the data of a write. -/
structure Req where
  adr : Word
  sel : BitVec 4
  data : Option Word
  deriving DecidableEq, Repr

def busReq (r : Regs) : Req := ⟨r.dAdr, r.dSel, if r.dWe then some r.dDat else none⟩

def Instr.req (o : Instr) : Req :=
  ⟨o.address, o.size.byteEnable o.address, if o.kind = .store then
    some (o.size.storeData o.operand) else none⟩

/-- With what has happened: `cur` is the load or store in M, `done` are those that left it,
`results` what the loads of them gave in W; `issued` and `got` are the accesses of the bus and their
data. -/
structure Sys where
  stage : Stage
  cur : Option Instr
  done : List Instr
  results : List Word
  issued : List Req
  got : List Word

/-- X gives M a load or store. -/
def Stage.enters (t : Stage) (c : Clock) : Bool :=
  !t.stallX c && t.qX c && !c.exceptionX && t.x.kind != .other

def Sys.next (s : Sys) (c : Clock) : Sys where
  stage := s.stage.next c
  cur := if s.stage.enters c then some s.stage.x else if s.stage.stallM c then s.cur else none
  done := if s.stage.stallM c then s.done else s.done ++ s.cur.toList
  results :=
    if !s.stage.stallM c && s.stage.loadQM then
      s.results ++ [(s.stage.next c).lsu.loadDataW (s.stage.next c).operandW]
    else s.results
  issued := if !s.stage.lsu.dCyc && (s.stage.next c).lsu.dCyc then
    s.issued ++ [busReq (s.stage.next c).lsu] else s.issued
  got := if s.stage.lsu.answered (s.stage.input c) then s.got ++ [c.dDatI] else s.got

/-- From reset; `mem`: the contents of ROM and RAM. -/
def Sys.start (mem : Mem Byte) (x : Instr) : Sys where
  stage :=
    { x := x
      validX := false
      loadM := false
      storeM := false
      validM := false
      exceptionM := false
      operandM := 0
      operandW := 0
      lsu := .reset
      dram := fun k => wordOf mem (0x4000 + 4 * k.toNat)
      dramQRd := 0
      irom := fun k => wordOf mem (4 * k.toNat)
      iromQWr := 0 }
  cur := none
  done := []
  results := []
  issued := []
  got := []

/-! ### One memory, one instruction after the other -/

structure Flat where
  mem : Mem Byte
  reqs : List Req
  loads : List Word

/-- `ans`: the data of the accesses in their order. -/
def Flat.exec (ans : List Word) (f : Flat) (o : Instr) : Flat :=
  match o.kind, wbSelect o.address with
  | .load, false => { f with loads := f.loads ++ [o.size.load o.signExtend f.mem o.address] }
  | .load, true =>
    { f with
      reqs := f.reqs ++ [o.req]
      loads :=
        f.loads ++
          [o.size.loadData o.signExtend (o.address.extractLsb' 0 2) (ans.getD f.reqs.length 0)] }
  | .store, false => { f with mem := o.size.store f.mem o.address o.operand }
  | .store, true => { f with reqs := f.reqs ++ [o.req] }
  | .other, _ => f

def flat (ans : List Word) (mem : Mem Byte) (os : List Instr) : Flat :=
  os.foldl (Flat.exec ans) ⟨mem, [], []⟩

/-- The two memories hold `mem`. -/
def Holds (mem : Mem Byte) (t : Stage) : Prop :=
  ∀ k : BitVec 12, t.dram k = wordOf mem (0x4000 + 4 * k.toNat) ∧
    t.irom k = wordOf mem (4 * k.toNat)

/-! ### Addresses -/

section addresses
variable {a b : Word}

theorem dramSelect_iff : dramSelect a = true ↔ 0x4000 ≤ a.toNat ∧ a.toNat ≤ 0x7fff := by
  simp [dramSelect, cfgDramBaseAddress, cfgDramLimit, BitVec.le_def]

theorem iromSelect_iff : iromSelect a = true ↔ a.toNat ≤ 0x3fff := by
  simp [iromSelect, cfgIromBaseAddress, cfgIromLimit, BitVec.le_def]

theorem wbSelect_iff : wbSelect a = true ↔ dramSelect a = false ∧ iromSelect a = false := by
  simp [wbSelect]

theorem select_cases (h : wbSelect a = false) : dramSelect a = true ∧ iromSelect a = false ∨
    dramSelect a = false ∧ iromSelect a = true := by
  have hdram := dramSelect_iff (a := a)
  have hirom := iromSelect_iff (a := a)
  cases hd : dramSelect a with
  | false =>
    rw [wbSelect, hd] at h
    exact .inr ⟨rfl, by simpa using h⟩
  | true =>
    refine .inl ⟨rfl, Bool.eq_false_iff.mpr fun hi => ?_⟩
    have := hdram.mp hd
    have := hirom.mp hi
    omega

theorem index_toNat (a : Word) : (index a).toNat = a.toNat / 4 % 4096 := by
  simp [index, BitVec.extractLsb'_toNat, Nat.shiftRight_eq_div_pow]

theorem index_dram (h : dramSelect a = true) : 0x4000 + 4 * (index a).toNat = a.toNat / 4 * 4 := by
  have := dramSelect_iff.mp h
  rw [index_toNat]
  omega

theorem index_irom (h : iromSelect a = true) : 4 * (index a).toNat = a.toNat / 4 * 4 := by
  have := iromSelect_iff.mp h
  rw [index_toNat]
  omega

theorem word_toNat : a.extractLsb' 2 30 = b.extractLsb' 2 30 ↔ a.toNat / 4 = b.toNat / 4 := by
  have hlt (c : Word) : (c.extractLsb' 2 30).toNat = c.toNat / 4 := by
    have := c.isLt
    simp only [BitVec.extractLsb'_toNat, Nat.shiftRight_eq_div_pow]
    omega
  rw [← BitVec.toNat_inj, hlt, hlt]

end addresses

/-! ### The load or store in M -/

/-- `o` is in M, and what the memories show there is what they hold. -/
structure InM (o : Instr) (t : Stage) : Prop where
  kind : o.kind ≠ .other
  loadM : t.loadM = (o.kind == .load)
  storeM : t.storeM = (o.kind == .store)
  validM : t.validM = true
  exceptionM : t.exceptionM = false
  operandM : t.operandM = o.address
  sizeM : t.lsu.sizeM = o.size
  signExtendM : t.lsu.signExtendM = o.signExtend
  byteEnableM : t.lsu.byteEnableM = o.size.byteEnable o.address
  storeDataM : t.lsu.storeDataM = o.size.storeData o.operand
  dramSelectM : t.lsu.dramSelectM = dramSelect o.address
  iromSelectM : t.lsu.iromSelectM = iromSelect o.address
  wbSelectM : t.lsu.wbSelectM = wbSelect o.address
  dram : dramSelect o.address = true →
    (if t.lsu.dramBypassEn then t.lsu.dramBypassData else t.dramQRd) = t.dram (index o.address)
  irom : iromSelect o.address = true → t.iromQWr = t.irom (index o.address)
  alone : iromSelect o.address = true → o.kind = .store → t.x.kind = .other

structure NoneInM (t : Stage) : Prop where
  loadQM : t.loadQM = false
  storeQM : t.storeQM = false

def Occupied (cur : Option Instr) (t : Stage) : Prop :=
  match cur with
  | some o => InM o t
  | none => NoneInM t

section stage
variable {t : Stage} {c : Clock} {o : Instr}

theorem stallX_of_stallM (h : t.stallM c = true) : t.stallX c = true := by
  rw [Stage.stallX, h, Bool.true_or]

theorem InM.loadQM (h : InM o t) : t.loadQM = (o.kind == .load) := by
  rw [Stage.loadQM, Stage.qM, h.loadM, h.validM, h.exceptionM]
  exact Bool.and_true _

theorem InM.storeQM (h : InM o t) : t.storeQM = (o.kind == .store) := by
  rw [Stage.storeQM, Stage.qM, h.storeM, h.validM, h.exceptionM]
  exact Bool.and_true _

theorem InM.stalled (h : InM o t) (hst : t.stallM c = true) : InM o (t.next c) := by
  have hx := stallX_of_stallM hst
  have hwr : t.dramWrites c = false := by rw [Stage.dramWrites, hst]; rfl
  have hir : t.iromWrites c = false := by rw [Stage.iromWrites, hst, hx]; rfl
  have hby : (t.input c).bypassStarts = false := by
    have : (t.input c).stallM = true := hst
    rw [Input.bypassStarts, this]
    rfl
  have hlsu : (t.next c).lsu = t.lsu.next (t.input c) := rfl
  have hstM : (t.input c).stallM = true := hst
  have hstX : (t.input c).stallX = true := hx
  constructor
  case kind => exact h.kind
  case loadM => simp only [Stage.next, hst, if_true, h.loadM]
  case storeM => simp only [Stage.next, hst, if_true, h.storeM]
  case validM =>
    simp only [Stage.next, hst, hx, h.validM, Bool.not_true, Bool.false_eq_true, if_false]
  case exceptionM => simp only [Stage.next, hst, if_true, h.exceptionM]
  case operandM => simp only [Stage.next, hst, if_true, h.operandM]
  case dram =>
    intro hsel
    simp only [Regs.next, hby, hstX, Stage.next, hx, hwr, Bool.not_true, Bool.and_false,
      Bool.false_eq_true, if_false, if_true]
    exact h.dram hsel
  case irom =>
    intro hsel
    simp only [Stage.next, hx, hst, hir, Bool.and_self, Bool.false_eq_true, if_false, if_true]
    exact h.irom hsel
  case alone =>
    intro hsel hk
    simp only [Stage.next, hx, if_true]
    exact h.alone hsel hk
  all_goals
    simp only [hlsu, Regs.next, hstM, Bool.not_true, Bool.false_eq_true, if_false]
  case sizeM => exact h.sizeM
  case signExtendM => exact h.signExtendM
  case byteEnableM => exact h.byteEnableM
  case storeDataM => exact h.storeDataM
  case dramSelectM => exact h.dramSelectM
  case iromSelectM => exact h.iromSelectM
  case wbSelectM => exact h.wbSelectM

theorem NoneInM.stalled (h : NoneInM t) (hst : t.stallM c = true) : NoneInM (t.next c) := by
  have hx := stallX_of_stallM hst
  have hq : (t.next c).qM = t.qM := by
    simp only [Stage.qM, Stage.next, hst, hx, Bool.not_true, Bool.false_eq_true, if_false, if_true]
  constructor
  · rw [Stage.loadQM, hq, ← h.loadQM]
    simp only [Stage.next, hst, if_true, Stage.loadQM]
  · rw [Stage.storeQM, hq, ← h.storeQM]
    simp only [Stage.next, hst, if_true, Stage.storeQM]

/-! ### What the instruction in M leaves behind -/

def Instr.mem (o : Instr) (m : Mem Byte) : Mem Byte :=
  if o.kind = .store ∧ wbSelect o.address = false then o.size.store m o.address o.operand else m

def memOf (cur : Option Instr) (m : Mem Byte) : Mem Byte := cur.elim m fun o => o.mem m

theorem writes_none (h : t.storeQM = false) : t.dramWrites c = false ∧ t.iromWrites c = false := by
  have hin : (t.input c).storeQM = false := h
  constructor
  · rw [Stage.dramWrites, h, Bool.and_false, Bool.false_and]
  · rw [Stage.iromWrites, Regs.iromWeXm, hin, Bool.and_false, Bool.and_false]

theorem Holds.quiet {m : Mem Byte} (h : Holds m t)
    (hw : t.dramWrites c = false ∧ t.iromWrites c = false) :
    Holds m (t.next c) := by
  intro k
  simp only [Stage.next, hw.1, hw.2, Bool.false_eq_true, if_false]
  exact h k

theorem Holds.store {m : Mem Byte} (h : Holds m t) (ho : InM o t) (hk : o.kind = .store)
    (hst : t.stallM c = false) :
    Holds (o.mem m) (t.next c) := by
  have hq : t.storeQM = true := by rw [ho.storeQM, hk]; rfl
  have hqi : (t.input c).storeQM = true := hq
  have hdram : t.dramWrites c = dramSelect o.address := by
    rw [Stage.dramWrites, hst, hq, ho.dramSelectM]
    rfl
  have hirom : t.iromWrites c = iromSelect o.address := by
    rw [Stage.iromWrites, hst, Regs.iromWeXm, hqi, ho.iromSelectM, Bool.and_true,
      Bool.not_false, Bool.or_true, Bool.true_and]
  cases hwb : wbSelect o.address with
  | true =>
    obtain ⟨hd, hi⟩ := wbSelect_iff.mp hwb
    rw [Instr.mem, if_neg (by simp [hwb])]
    exact h.quiet ⟨hdram.trans hd, hirom.trans hi⟩
  | false =>
    rw [Instr.mem, if_pos ⟨hk, hwb⟩]
    intro k
    obtain ⟨hkd, hki⟩ := h k
    obtain ⟨hd, hi⟩ | ⟨hd, hi⟩ := select_cases hwb
    · have hword := index_dram hd
      have hrange := dramSelect_iff.mp hd
      constructor
      · simp only [Stage.next, hdram, hd, if_true, update, ho.operandM]
        by_cases hidx : k = index o.address
        · rw [if_pos hidx, hidx, hword, store_eq, ← hword, ← (h (index o.address)).1, ← ho.dram hd,
            Regs.dramStoreDataM, ho.byteEnableM, ho.storeDataM]
          rfl
        · rw [if_neg hidx, hkd]
          refine (store_other (by omega) fun heq => hidx (BitVec.eq_of_toNat_eq (by omega))).symm
      · have hlt := k.isLt
        simp only [Stage.next, hirom, hi, Bool.false_eq_true, if_false]
        rw [hki, store_other (by omega) (by omega)]
    · have hword := index_irom hi
      have hrange := iromSelect_iff.mp hi
      constructor
      · simp only [Stage.next, hdram, hd, Bool.false_eq_true, if_false]
        rw [hkd, store_other (by omega) (by omega)]
      · have haddr : t.lsu.iromAddressXm (t.input c) = o.address := by
          rw [Regs.iromAddressXm, if_pos ⟨ho.iromSelectM.trans hi, hqi⟩]
          exact ho.operandM
        simp only [Stage.next, hirom, hi, if_true, update, haddr]
        by_cases hidx : k = index o.address
        · rw [if_pos hidx, hidx, hword, store_eq, ← hword, ← (h (index o.address)).2, ← ho.irom hi,
            Regs.iromStoreDataM, ho.byteEnableM, ho.storeDataM]
          rfl
        · rw [if_neg hidx, hki]
          refine (store_other (by omega) fun heq => hidx (BitVec.eq_of_toNat_eq (by omega))).symm

/-- The instruction in M works on the memories when it leaves. -/
theorem Holds.next {m : Mem Byte} {cur : Option Instr} (h : Holds m t) (hcur : Occupied cur t) :
    Holds (if t.stallM c then m else memOf cur m) (t.next c) := by
  cases hst : t.stallM c with
  | true =>
    refine h.quiet ⟨by rw [Stage.dramWrites, hst]; rfl, ?_⟩
    rw [Stage.iromWrites, hst, stallX_of_stallM hst]
    rfl
  | false =>
    cases cur with
    | none => exact h.quiet (writes_none hcur.storeQM)
    | some o =>
      have ho : InM o t := hcur
      by_cases hk : o.kind = .store
      · exact h.store ho hk hst
      · have hmem : memOf (some o) m = m := if_neg fun hand => hk hand.1
        rw [if_neg Bool.false_ne_true, hmem]
        refine h.quiet (writes_none ?_)
        rw [ho.storeQM]
        exact beq_eq_false_iff_ne.mpr hk

/-! ### The next instruction in M -/

/-- A store in M that the data port of the ROM is taken up by keeps loads and stores out of X. -/
theorem rom_free {cur : Option Instr} (hcur : Occupied cur t) (hx : t.x.kind ≠ .other) :
    (t.lsu.iromSelectM && t.storeQM) = false := by
  cases cur with
  | none => rw [hcur.storeQM, Bool.and_false]
  | some o =>
    have ho : InM o t := hcur
    rw [ho.iromSelectM, ho.storeQM]
    refine Bool.eq_false_iff.mpr fun hand => ?_
    rw [Bool.and_eq_true, beq_iff_eq] at hand
    exact hx (ho.alone hand.1 hand.2)

/-- The data RAM shows what it holds after the edge, by the bypass if need be. -/
theorem dram_shown {cur : Option Instr} (hcur : Occupied cur t) (hx : t.stallX c = false)
    (hkind : t.x.kind ≠ .other) (hsel : dramSelect t.x.address = true) :
    (if (t.next c).lsu.dramBypassEn then (t.next c).lsu.dramBypassData else (t.next c).dramQRd) =
      (t.next c).dram (index t.x.address) := by
  have hst : t.stallM c = false := Bool.eq_false_iff.mpr fun h => by
    rw [stallX_of_stallM h] at hx
    exact Bool.noConfusion hx
  have hmem : ((t.input c).loadX || (t.input c).storeX) = true := by
    change (t.x.kind == .load || t.x.kind == .store) = true
    cases hk : t.x.kind with
    | load => rfl
    | store => rfl
    | other => exact absurd hk hkind
  have hby : (t.input c).bypassStarts =
      (t.storeQM && (t.x.address.extractLsb' 2 30 == t.operandM.extractLsb' 2 30)) := by
    rw [Input.bypassStarts, hmem, show (t.input c).stallM = false from hst,
      show (t.input c).stallX = false from hx,
      Bool.and_true]
    rfl
  have hxin : (t.input c).stallX = false := hx
  cases hb : (t.input c).bypassStarts with
  | true =>
    rw [hb, eq_comm, Bool.and_eq_true, beq_iff_eq, word_toNat] at hby
    obtain ⟨hq, hsame⟩ := hby
    cases cur with
    | none => exact absurd (hcur.storeQM.symm.trans hq) Bool.false_ne_true
    | some o =>
      have ho : InM o t := hcur
      have hod : dramSelect o.address = true := by
        have := dramSelect_iff.mp hsel
        rw [ho.operandM] at hsame
        exact dramSelect_iff.mpr (by omega)
      have hwr : t.dramWrites c = true := by
        rw [Stage.dramWrites, hst, hq, ho.dramSelectM, hod]
        rfl
      have hidx : index t.x.address = index t.operandM :=
        BitVec.eq_of_toNat_eq (by rw [index_toNat, index_toNat, hsame])
      simp only [Stage.next, Regs.next, hb, hxin, hwr, hidx, update, Bool.not_false, if_true]
  | false =>
    rw [hb, eq_comm, Bool.and_eq_false_iff] at hby
    have hother (hw : t.dramWrites c = true) : index t.x.address ≠ index t.operandM := by
      intro hidx
      have hand := hw
      rw [Stage.dramWrites, Bool.and_eq_true, Bool.and_eq_true] at hand
      obtain ⟨⟨-, hq⟩, hd⟩ := hand
      rw [hq] at hby
      have hne := hby.resolve_left (fun h => Bool.noConfusion h)
      rw [beq_eq_false_iff_ne, Ne, word_toNat] at hne
      cases cur with
      | none => exact absurd (hcur.storeQM.symm.trans hq) Bool.false_ne_true
      | some o =>
        have ho : InM o t := hcur
        have hod := dramSelect_iff.mp (ho.dramSelectM.symm.trans hd)
        have hxd := dramSelect_iff.mp hsel
        have hnat := congrArg BitVec.toNat hidx
        rw [index_toNat, index_toNat, ho.operandM] at hnat
        rw [ho.operandM] at hne
        omega
    have hclear : (t.next c).lsu.dramBypassEn = false := by
      simp only [Stage.next, Regs.next, hb, hxin, Bool.not_false, Bool.and_true,
        Bool.false_eq_true, if_false]
      cases t.lsu.dramBypassEn <;> rfl
    rw [hclear, if_neg Bool.false_ne_true]
    by_cases hw : t.dramWrites c = true
    · simp only [Stage.next, hx, hw, update, if_neg (hother hw), true_and, Bool.false_eq_true,
        if_false, if_true]
    · simp only [Stage.next, hx, hw, false_and, Bool.false_eq_true, if_false]

theorem InM.entered {cur : Option Instr} (hcur : Occupied cur t) (hent : t.enters c = true) :
    InM t.x (t.next c) := by
  rw [Stage.enters, Bool.and_eq_true, Bool.and_eq_true, Bool.and_eq_true, Bool.not_eq_true',
    Bool.not_eq_true', bne_iff_ne] at hent
  obtain ⟨⟨⟨hx, hq⟩, hexc⟩, hkind⟩ := hent
  have hst : t.stallM c = false := Bool.eq_false_iff.mpr fun h => by
    rw [stallX_of_stallM h] at hx
    exact Bool.noConfusion hx
  have hstM : (t.input c).stallM = false := hst
  have hfree := rom_free hcur hkind
  have hwrites : t.iromWrites c = false := by
    rw [Stage.iromWrites, Regs.iromWeXm, show (t.input c).storeQM = t.storeQM from rfl,
      hfree, Bool.and_false]
  constructor
  case kind => exact hkind
  case loadM => simp only [Stage.next, hst, Bool.false_eq_true, if_false]
  case storeM => simp only [Stage.next, hst, Bool.false_eq_true, if_false]
  case validM => simp only [Stage.next, hx, hq, Bool.not_false, if_true]
  case exceptionM => simp only [Stage.next, hst, hexc, Bool.false_and, Bool.false_eq_true, if_false]
  case operandM => simp only [Stage.next, hst, Bool.false_eq_true, if_false]
  case dram => exact fun hsel => dram_shown hcur hx hkind hsel
  case irom =>
    intro _
    have haddr : t.lsu.iromAddressXm (t.input c) = t.x.address := by
      rw [Regs.iromAddressXm, if_neg]
      · rfl
      · rw [← Bool.and_eq_true]
        exact Bool.eq_false_iff.mp hfree
    simp only [Stage.next, hx, hwrites, haddr, Bool.false_and, Bool.false_eq_true, if_false]
  case alone =>
    intro hsel hk
    have hstore : t.storeQX c = true := by rw [Stage.storeQX, hk, hq]; rfl
    have hd := hx
    rw [Stage.stallX, hst, hstore, iromStallRequestX, hsel, Bool.false_or, Bool.true_and,
      Bool.true_and] at hd
    have hnext : (t.next c).x = c.d := by simp only [Stage.next, hx, Bool.false_eq_true, if_false]
    rw [hnext]
    cases hk : c.d.kind with
    | load => rw [hk] at hd; exact Bool.noConfusion hd
    | store => rw [hk] at hd; exact Bool.noConfusion hd
    | other => rfl
  all_goals
    simp only [Stage.next, Regs.next, hstM, Bool.not_false, if_true]
    rfl

theorem NoneInM.left (hent : t.enters c = false) (hst : t.stallM c = false) :
    NoneInM (t.next c) := by
  have hvalid : (t.next c).qM = false ∨ t.x.kind = .other := by
    cases hx : t.stallX c with
    | true =>
      left
      simp only [Stage.qM, Stage.next, hst, hx, Bool.not_true, Bool.not_false, Bool.false_eq_true,
        if_false, if_true, Bool.false_and]
    | false =>
      rw [Stage.enters, hx, Bool.not_false, Bool.true_and, Bool.and_eq_false_iff,
        Bool.and_eq_false_iff] at hent
      simp only [Stage.qM, Stage.next, hst, hx, Bool.not_false, Bool.false_eq_true, if_false,
        if_true, Bool.and_true]
      obtain (hq | hexc) | hk := hent
      · left
        rw [hq, Bool.false_and]
      · left
        rw [Bool.not_eq_false'] at hexc
        rw [hexc, Bool.true_and]
        cases t.qX c <;> rfl
      · right
        simpa using hk
  have hload : (t.next c).loadM = (t.x.kind == .load) := by
    simp only [Stage.next, hst, Bool.false_eq_true, if_false]
  have hstore : (t.next c).storeM = (t.x.kind == .store) := by
    simp only [Stage.next, hst, Bool.false_eq_true, if_false]
  constructor
  · rw [Stage.loadQM, hload]
    obtain hq | hk := hvalid
    · rw [hq, Bool.and_false]
    · rw [hk]
      rfl
  · rw [Stage.storeQM, hstore]
    obtain hq | hk := hvalid
    · rw [hq, Bool.and_false]
    · rw [hk]
      rfl

def nextCur (t : Stage) (c : Clock) (cur : Option Instr) : Option Instr :=
  if t.enters c then some t.x else if t.stallM c then cur else none

theorem Occupied.next {cur : Option Instr} (h : Occupied cur t) :
    Occupied (nextCur t c cur) (t.next c) := by
  cases hent : t.enters c with
  | true =>
    rw [nextCur, if_pos hent]
    exact InM.entered h hent
  | false =>
    rw [nextCur, hent, if_neg Bool.false_ne_true]
    cases hst : t.stallM c with
    | true =>
      rw [if_pos rfl]
      cases cur with
      | none => exact NoneInM.stalled h hst
      | some o => exact InM.stalled h hst
    | false =>
      rw [if_neg Bool.false_ne_true]
      exact NoneInM.left hent hst

end stage

/-! ### Accesses on the bus -/

/-- How far the load in M is with the bus, if there is one. -/
inductive BusAt (ans : List Word) (f : Flat) (s : Sys) : Prop where
  | calm (cur : ∀ o, s.cur = some o → o.kind = .load → wbSelect o.address = false)
      (complete : s.stage.lsu.wbLoadComplete = false) (writes : s.stage.lsu.dCyc = true →
        s.stage.lsu.dWe = true)
      (issued : s.issued = f.reqs)
  | waiting (o : Instr) (cur : s.cur = some o) (kind : o.kind = .load)
      (wb : wbSelect o.address = true) (stall : s.stage.lsu.stallWbLoad = true)
      (complete : s.stage.lsu.wbLoadComplete = false)
      (writes : s.stage.lsu.dCyc = true → s.stage.lsu.dWe = true) (issued : s.issued = f.reqs)
  | asked (o : Instr) (cur : s.cur = some o) (kind : o.kind = .load)
      (wb : wbSelect o.address = true) (cyc : s.stage.lsu.dCyc = true)
      (we : s.stage.lsu.dWe = false) (complete : s.stage.lsu.wbLoadComplete = false)
      (issued : s.issued = f.reqs ++ [o.req])
  | answered (o : Instr) (cur : s.cur = some o) (kind : o.kind = .load)
      (wb : wbSelect o.address = true) (cyc : s.stage.lsu.dCyc = false)
      (complete : s.stage.lsu.wbLoadComplete = true)
      (issued : s.issued = f.reqs ++ [o.req])
      (data : s.stage.lsu.wbDataM = ans.getD f.reqs.length 0)

structure Inv (ans : List Word) (mem : Mem Byte) (s : Sys) : Prop where
  occupied : Occupied s.cur s.stage
  holds : Holds (flat ans mem s.done).mem s.stage
  results : s.results = (flat ans mem s.done).loads
  bus : BusAt ans (flat ans mem s.done) s
  count : s.got.length + s.stage.lsu.dCyc.toNat = s.issued.length

section bus
variable {ans : List Word} {mem : Mem Byte} {f : Flat} {s : Sys} {c : Clock} {o : Instr}

/-- What the instruction in M has done when it leaves. -/
def Flat.leave (ans : List Word) (f : Flat) (cur : Option Instr) : Flat := cur.elim f (f.exec ans)

theorem flat_next : flat ans mem (s.next c).done =
    if s.stage.stallM c then flat ans mem s.done else (flat ans mem s.done).leave ans s.cur := by
  cases hst : s.stage.stallM c with
  | true => simp only [Sys.next, hst, if_true]
  | false =>
    simp only [Sys.next, hst, Bool.false_eq_true, if_false, flat, List.foldl_append]
    cases s.cur <;> rfl

theorem exec_mem (f : Flat) (o : Instr) : (f.exec ans o).mem = o.mem f.mem := by
  rcases o with ⟨k, z, e, a, w⟩
  cases k <;> cases hwb : wbSelect a <;> simp [Flat.exec, Instr.mem, hwb]

theorem leave_mem (f : Flat) (cur : Option Instr) : (f.leave ans cur).mem = memOf cur f.mem := by
  cases cur with
  | none => rfl
  | some o => exact exec_mem f o

theorem enters_moves {t : Stage} (h : t.enters c = true) : t.stallM c = false := by
  refine Bool.eq_false_iff.mpr fun hst => ?_
  rw [Stage.enters, stallX_of_stallM hst] at h
  exact Bool.noConfusion h

theorem next_cur : (s.next c).cur = nextCur s.stage c s.cur := rfl

theorem stalled_cur (hst : s.stage.stallM c = true) : (s.next c).cur = s.cur := by
  have hent : s.stage.enters c = false := Bool.eq_false_iff.mpr fun h => by
    rw [enters_moves h] at hst
    exact Bool.noConfusion hst
  rw [next_cur, nextCur, hent, hst, if_neg Bool.false_ne_true, if_pos rfl]

theorem loadStarts_eq (ho : Occupied s.cur s.stage) : s.stage.lsu.loadStarts (s.stage.input c) =
    (!s.stage.lsu.dCyc && (s.cur.elim false fun o => o.kind == .load && wbSelect o.address) &&
      !s.stage.lsu.wbLoadComplete) := by
  have hin : (s.stage.input c).loadQM = s.stage.loadQM := rfl
  have hin' : (s.stage.input c).storeQM = s.stage.storeQM := rfl
  cases hcur : s.cur with
  | none =>
    rw [hcur] at ho
    rw [Regs.loadStarts, hin, ho.loadQM]
    simp
  | some o =>
    rw [hcur] at ho
    have ho' : InM o s.stage := ho
    rw [Regs.loadStarts, hin, hin', ho'.loadQM, ho'.storeQM, ho'.wbSelectM]
    cases hk : o.kind <;> simp [hk, Bool.and_assoc]

theorem storeStarts_eq (ho : Occupied s.cur s.stage) (hst : s.stage.stallM c = false) :
    s.stage.lsu.storeStarts (s.stage.input c) = s.cur.elim false fun o =>
      o.kind == .store && wbSelect o.address := by
  have hin' : (s.stage.input c).storeQM = s.stage.storeQM := rfl
  have hstM : (s.stage.input c).stallM = false := hst
  cases hcur : s.cur with
  | none =>
    rw [hcur] at ho
    rw [Regs.storeStarts, hin', ho.storeQM]
    simp
  | some o =>
    rw [hcur] at ho
    have ho' : InM o s.stage := ho
    rw [Regs.storeStarts, hin', hstM, ho'.storeQM, ho'.dramSelectM, ho'.iromSelectM]
    cases hk : o.kind with
    | store =>
      have hcyc : s.stage.lsu.dCyc = false := by
        rw [Stage.stallM, ho'.storeM, hk] at hst
        simp only [beq_self_eq_true, Bool.true_or, Bool.and_true, Bool.or_eq_false_iff] at hst
        exact hst.1.1.2
      simp [hcyc, hk, wbSelect]
    | load => simp [hk]
    | other => simp [hk]

theorem storeStarts_stalled (hst : s.stage.stallM c = true) :
    s.stage.lsu.storeStarts (s.stage.input c) = false := by
  rw [Regs.storeStarts, show (s.stage.input c).stallM = true from hst]
  simp

/-- X gives M a load or store, or M is empty. -/
theorem arrives (hst : s.stage.stallM c = false)
    (hwrites : (s.next c).stage.lsu.dCyc = true → (s.next c).stage.lsu.dWe = true)
    (hissued : (s.next c).issued = f.reqs) : BusAt ans f (s.next c) := by
  have hcomplete : (s.next c).stage.lsu.wbLoadComplete = false := by
    have hin : (s.stage.input c).stallM = false := hst
    simp only [Sys.next, Stage.next, Regs.next, hin, Bool.not_false, if_true]
  cases hent : s.stage.enters c with
  | false =>
    refine .calm (fun o ho => ?_) hcomplete hwrites hissued
    rw [next_cur, nextCur, hent, hst, if_neg Bool.false_ne_true, if_neg Bool.false_ne_true] at ho
    exact absurd ho (Option.some_ne_none o).symm
  | true =>
    have hcur : (s.next c).cur = some s.stage.x := by rw [next_cur, nextCur, if_pos hent]
    by_cases hwb : s.stage.x.kind = .load ∧ wbSelect s.stage.x.address = true
    · rw [Stage.enters, Bool.and_eq_true, Bool.and_eq_true, Bool.and_eq_true,
        Bool.not_eq_true'] at hent
      obtain ⟨⟨⟨hx, hq⟩, -⟩, -⟩ := hent
      refine .waiting _ hcur hwb.1 hwb.2 ?_ hcomplete hwrites hissued
      have hexc : s.stage.exceptionM = false := by
        rw [Stage.qX, Stage.killX, hst, Bool.not_false, Bool.true_and, Bool.and_eq_true,
          Bool.not_eq_true', Bool.or_eq_false_iff] at hq
        exact hq.2.2
      have hload : (s.stage.input c).loadQX = true := by
        change s.stage.loadQX c = true
        rw [Stage.loadQX, hwb.1, hq]
        rfl
      have haddr : wbSelect (s.stage.input c).loadStoreAddressX = true := hwb.2
      have hxin : (s.stage.input c).stallX = false := hx
      have hein : (s.stage.input c).exceptionM = false := hexc
      have hkin : (s.stage.input c).killM = false := rfl
      simp only [Sys.next, Stage.next, Regs.next, hload, haddr, hxin, hein, hkin,
        Bool.or_self, Bool.not_false, Bool.and_self, Bool.false_eq_true, if_false, if_true]
    · refine .calm (fun o ho hk => ?_) hcomplete hwrites hissued
      rw [hcur] at ho
      obtain rfl := Option.some.inj ho
      exact Bool.eq_false_iff.mpr fun h => hwb ⟨hk, h⟩

theorem bus_next : (s.next c).stage.lsu = s.stage.lsu.next (s.stage.input c) := rfl

theorem next_cyc : (s.next c).stage.lsu.dCyc =
    if s.stage.lsu.answered (s.stage.input c) then false
    else s.stage.lsu.dCyc || s.stage.lsu.storeStarts (s.stage.input c) ||
      s.stage.lsu.loadStarts (s.stage.input c) := rfl

theorem next_we : (s.next c).stage.lsu.dWe =
    if s.stage.lsu.storeStarts (s.stage.input c) then true
    else if s.stage.lsu.loadStarts (s.stage.input c) then false
    else s.stage.lsu.dWe := rfl

theorem next_issued : (s.next c).issued =
    if !s.stage.lsu.dCyc && (s.next c).stage.lsu.dCyc then s.issued ++ [busReq (s.next c).stage.lsu]
      else s.issued := rfl

theorem next_complete (hst : s.stage.stallM c = true) : (s.next c).stage.lsu.wbLoadComplete =
    if s.stage.lsu.answered (s.stage.input c) then !s.stage.lsu.dWe
        else s.stage.lsu.wbLoadComplete := by
  have hin : (s.stage.input c).stallM = true := hst
  rw [bus_next]
  simp only [Regs.next, hin, Bool.not_true, Bool.false_eq_true, if_false]

theorem answered_cyc (h : s.stage.lsu.answered (s.stage.input c) = true) :
    s.stage.lsu.dCyc = true := by
  rw [Regs.answered, Bool.and_eq_true] at h
  exact h.1

theorem goes_on (hstore : s.stage.lsu.storeStarts (s.stage.input c) = false)
    (hload : s.stage.lsu.loadStarts (s.stage.input c) = false) :
    (s.next c).issued = s.issued ∧ ((s.next c).stage.lsu.dCyc = true → s.stage.lsu.dCyc = true) ∧
      (s.next c).stage.lsu.dWe = s.stage.lsu.dWe := by
  have hcyc : (s.next c).stage.lsu.dCyc = true → s.stage.lsu.dCyc = true := by
    rw [next_cyc, hstore, hload, Bool.or_false, Bool.or_false]
    cases s.stage.lsu.answered (s.stage.input c) <;> simp
  refine ⟨?_, hcyc, ?_⟩
  · rw [next_issued, if_neg]
    rw [Bool.and_eq_true, Bool.not_eq_true']
    exact fun h => Bool.eq_false_iff.mp h.1 (hcyc h.2)
  · rw [next_we, hstore, hload, if_neg Bool.false_ne_true, if_neg Bool.false_ne_true]

theorem begins (ho : InM o s.stage) (hcyc : s.stage.lsu.dCyc = false)
    (hstart : if o.kind = .store then s.stage.lsu.storeStarts (s.stage.input c) = true
      else s.stage.lsu.storeStarts (s.stage.input c) = false ∧
        s.stage.lsu.loadStarts (s.stage.input c) = true) :
    (s.next c).issued = s.issued ++ [o.req] ∧ (s.next c).stage.lsu.dCyc = true ∧
      (s.next c).stage.lsu.dWe = decide (o.kind = .store) := by
  have hans : s.stage.lsu.answered (s.stage.input c) = false := by
    rw [Regs.answered, hcyc, Bool.false_and]
  have hor :
      (s.stage.lsu.storeStarts (s.stage.input c) || s.stage.lsu.loadStarts (s.stage.input c)) =
        true := by
    split at hstart
    · rw [hstart, Bool.true_or]
    · rw [hstart.2, Bool.or_true]
  have hnext : (s.next c).stage.lsu.dCyc = true := by
    rw [next_cyc, hans, if_neg Bool.false_ne_true, Bool.or_assoc, hor, Bool.or_true]
  have hreq : busReq (s.next c).stage.lsu = o.req := by
    rw [bus_next]
    have haddr : (s.stage.input c).loadStoreAddressM = o.address := ho.operandM
    simp only [busReq, Regs.next, hor, if_true, haddr, Instr.req, ho.byteEnableM, ho.storeDataM]
    split at hstart
    case isTrue hk => simp [hstart, hk]
    case isFalse hk => simp [hstart.1, hstart.2, hk]
  refine ⟨?_, hnext, ?_⟩
  · rw [next_issued, hcyc, hnext, hreq]
    rfl
  · rw [next_we]
    split at hstart
    case isTrue hk => rw [if_pos hstart, decide_eq_true hk]
    case isFalse hk =>
      rw [hstart.1, hstart.2, if_neg Bool.false_ne_true, if_pos rfl, decide_eq_false hk]

theorem stalled_load (ho : InM o s.stage) (hk : o.kind = .load)
    (h : s.stage.lsu.stallWbLoad = true ∨ s.stage.lsu.dCyc = true) : s.stage.stallM c = true := by
  rw [Stage.stallM, ho.loadM, hk]
  obtain h | h := h <;> simp [h]

theorem exec_quiet (h : ¬(wbSelect o.address = true ∧ o.kind ≠ .other)) :
    (f.exec ans o).reqs = f.reqs := by
  rcases o with ⟨k, z, e, a, w⟩
  cases k <;> cases hwb : wbSelect a <;> simp_all [Flat.exec]

theorem exec_req (hwb : wbSelect o.address = true) (hk : o.kind ≠ .other) :
    (f.exec ans o).reqs = f.reqs ++ [o.req] := by
  rcases o with ⟨k, z, e, a, w⟩
  cases k <;> simp_all [Flat.exec]

theorem BusAt.next (ho : Occupied s.cur s.stage) (h : BusAt ans f s)
    (hcount : s.got.length + s.stage.lsu.dCyc.toNat = s.issued.length)
    (hans : (s.next c).got <+: ans) :
    BusAt ans (if s.stage.stallM c then f else f.leave ans s.cur) (s.next c) := by
  cases h with
  | calm hcalm hcomplete hwrites hissued =>
    have hload : s.stage.lsu.loadStarts (s.stage.input c) = false := by
      rw [loadStarts_eq ho]
      cases hcur : s.cur with
      | none => simp
      | some o =>
        cases hk : o.kind with
        | load => simp [hk, hcalm o hcur hk]
        | store => simp [hk]
        | other => simp [hk]
    cases hst : s.stage.stallM c with
    | true =>
      rw [if_pos rfl]
      obtain ⟨hiss, hcyc, hwe⟩ := goes_on (storeStarts_stalled hst) hload
      refine .calm (by rwa [stalled_cur hst]) ?_ (fun hc => hwe.trans (hwrites (hcyc hc)))
        (hiss.trans hissued)
      rw [next_complete hst, hcomplete]
      cases hansw : s.stage.lsu.answered (s.stage.input c) with
      | true => rw [hwrites (answered_cyc hansw)]; rfl
      | false => rfl
    | false =>
      rw [if_neg Bool.false_ne_true]
      cases hstore : s.stage.lsu.storeStarts (s.stage.input c) with
      | true =>
        have hcyc : s.stage.lsu.dCyc = false := by
          rw [Regs.storeStarts, Bool.and_eq_true, Bool.not_eq_true'] at hstore
          exact hstore.1
        have hcur := hstore
        rw [storeStarts_eq ho hst] at hcur
        cases hc : s.cur with
        | none => rw [hc] at hcur; exact absurd hcur Bool.false_ne_true
        | some o =>
          rw [hc] at hcur ho
          rw [Option.elim, Bool.and_eq_true, beq_iff_eq] at hcur
          obtain ⟨hiss, -, hwe⟩ := begins (c := c) ho hcyc (by rw [if_pos hcur.1]; exact hstore)
          refine arrives hst (fun _ => hwe.trans (decide_eq_true hcur.1)) (hiss.trans ?_)
          rw [hissued]
          exact (exec_req hcur.2 (by rw [hcur.1]; decide)).symm
      | false =>
        obtain ⟨hiss, hcyc, hwe⟩ := goes_on hstore hload
        refine arrives hst (fun hc => hwe.trans (hwrites (hcyc hc))) ((hiss.trans hissued).trans ?_)
        cases hc : s.cur with
        | none => rfl
        | some o =>
          refine (exec_quiet fun hand => ?_).symm
          rw [storeStarts_eq ho hst, hc] at hstore
          cases hk : o.kind with
          | load => exact absurd ((hcalm o hc hk).symm.trans hand.1) Bool.false_ne_true
          | store => simp [hk, hand.1] at hstore
          | other => exact hand.2 hk
  | waiting o hcur hk hwb hstall hcomplete hwrites hissued =>
    rw [hcur] at ho
    have ho' : InM o s.stage := ho
    have hst := stalled_load (c := c) ho' hk (.inl hstall)
    have hstore := storeStarts_stalled hst
    have hload := loadStarts_eq (c := c) (s := s) (by rw [hcur]; exact ho)
    rw [hcur, Option.elim, hk, hwb, hcomplete] at hload
    rw [hst, if_pos rfl]
    cases hcyc : s.stage.lsu.dCyc with
    | true =>
      rw [hcyc] at hload
      obtain ⟨hiss, -, hwe⟩ := goes_on hstore hload
      refine .waiting o ((stalled_cur hst).trans hcur) hk hwb ?_ ?_
        (fun _ => hwe.trans (hwrites hcyc)) (hiss.trans hissued)
      · have hxin : (s.stage.input c).stallX = true := stallX_of_stallM hst
        have hein : (s.stage.input c).exceptionM = false := ho'.exceptionM
        have hkin : (s.stage.input c).killM = false := rfl
        rw [bus_next]
        simp only [Regs.next, hxin, hein, hkin, hload, hstall, hcyc, Bool.or_self,
          Bool.not_true, Bool.and_false, Bool.false_and, Bool.false_eq_true, if_false]
      · rw [next_complete hst, hcomplete, hwrites hcyc]
        cases s.stage.lsu.answered (s.stage.input c) <;> rfl
    | false =>
      rw [hcyc] at hload
      have hansw : s.stage.lsu.answered (s.stage.input c) = false := by
        rw [Regs.answered, hcyc, Bool.false_and]
      obtain ⟨hiss, hcyc', hwe⟩ :=
        begins (c := c) ho' hcyc (by rw [if_neg (by rw [hk]; decide)]; exact ⟨hstore, hload⟩)
      refine .asked o ((stalled_cur hst).trans hcur) hk hwb hcyc' (hwe.trans (by rw [hk]; rfl)) ?_
        (hiss.trans (by rw [hissued]))
      rw [next_complete hst, hansw, hcomplete]
      rfl
  | asked o hcur hk hwb hcyc hwe hcomplete hissued =>
    rw [hcur] at ho
    have ho' : InM o s.stage := ho
    have hst := stalled_load (c := c) ho' hk (.inr hcyc)
    have hstore := storeStarts_stalled hst
    have hload : s.stage.lsu.loadStarts (s.stage.input c) = false := by
      rw [Regs.loadStarts, hcyc]; rfl
    obtain ⟨hiss, -, hwe'⟩ := goes_on hstore hload
    rw [hst, if_pos rfl]
    cases hansw : s.stage.lsu.answered (s.stage.input c) with
    | true =>
      refine .answered o ((stalled_cur hst).trans hcur) hk hwb ?_ ?_ (hiss.trans hissued) ?_
      · rw [next_cyc, hansw, if_pos rfl]
      · rw [next_complete hst, hansw, hwe]
        rfl
      · have hgot : (s.next c).got = s.got ++ [c.dDatI] := by simp only [Sys.next, hansw, if_true]
        have hlen : s.got.length = f.reqs.length := by
          rw [hcyc, hissued, List.length_append, List.length_singleton] at hcount
          exact Nat.succ.inj hcount
        have hdata : (s.next c).stage.lsu.wbDataM = c.dDatI := by
          rw [bus_next]
          simp only [Regs.next, hansw, if_true]
          rfl
        rw [hgot] at hans
        obtain ⟨rest, hrest⟩ := hans
        rw [hdata, ← hrest, ← hlen, List.append_assoc,
          List.getD_append_right _ _ _ _ (Nat.le_refl _), Nat.sub_self]
        rfl
    | false =>
      refine .asked o ((stalled_cur hst).trans hcur) hk hwb ?_ (hwe'.trans hwe) ?_
        (hiss.trans hissued)
      · rw [next_cyc, hansw, hcyc, if_neg Bool.false_ne_true]
        rfl
      · rw [next_complete hst, hansw, hcomplete]
        rfl
  | answered o hcur hk hwb hcyc hcomplete hissued hdata =>
    rw [hcur] at ho
    have ho' : InM o s.stage := ho
    have hload := loadStarts_eq (c := c) (s := s) (by rw [hcur]; exact ho)
    rw [hcomplete, Bool.not_true, Bool.and_false] at hload
    have hansw : s.stage.lsu.answered (s.stage.input c) = false := by
      rw [Regs.answered, hcyc, Bool.false_and]
    have hstore : s.stage.lsu.storeStarts (s.stage.input c) = false := by
      rw [Regs.storeStarts,
        show (s.stage.input c).storeQM = s.stage.storeQM from rfl, ho'.storeQM, hk]
      simp
    obtain ⟨hiss, hcyc', -⟩ := goes_on hstore hload
    have hrest : (s.next c).stage.lsu.dCyc = false := Bool.eq_false_iff.mpr fun h => by
      rw [hcyc' h] at hcyc
      exact Bool.noConfusion hcyc
    cases hst : s.stage.stallM c with
    | true =>
      rw [if_pos rfl]
      refine .answered o ((stalled_cur hst).trans hcur) hk hwb hrest ?_ (hiss.trans hissued) ?_
      · rw [next_complete hst, hansw, hcomplete]
        rfl
      · rw [bus_next, ← hdata]
        simp only [Regs.next, hansw, Bool.false_eq_true, if_false]
    | false =>
      rw [if_neg Bool.false_ne_true, hcur]
      refine arrives hst (fun h => absurd (hrest.symm.trans h) Bool.false_ne_true)
        ((hiss.trans hissued).trans ?_)
      exact (exec_req hwb (by rw [hk]; decide)).symm

theorem count_next (hcount : s.got.length + s.stage.lsu.dCyc.toNat = s.issued.length) :
    (s.next c).got.length + (s.next c).stage.lsu.dCyc.toNat = (s.next c).issued.length := by
  rw [next_issued]
  cases hansw : s.stage.lsu.answered (s.stage.input c) with
  | true =>
    have hgot : (s.next c).got = s.got ++ [c.dDatI] := by simp only [Sys.next, hansw, if_true]
    have hcyc := answered_cyc hansw
    rw [next_cyc, hansw, if_pos rfl, hgot, hcyc, Bool.not_true, Bool.false_and,
      if_neg Bool.false_ne_true, ← hcount, hcyc,
      List.length_append]
    rfl
  | false =>
    have hgot : (s.next c).got = s.got := by
      simp only [Sys.next, hansw, Bool.false_eq_true, if_false]
    rw [hgot]
    cases hcyc : s.stage.lsu.dCyc with
    | true =>
      have hnext : (s.next c).stage.lsu.dCyc = true := by
        rw [next_cyc, hansw, hcyc, if_neg Bool.false_ne_true]
        rfl
      rw [hcyc] at hcount
      rw [hnext]
      exact hcount
    | false =>
      rw [hcyc] at hcount
      cases hnext : (s.next c).stage.lsu.dCyc with
      | true =>
        rw [if_pos (by rfl), List.length_append, ← hcount]
        rfl
      | false => exact hcount

theorem load_data (ho : InM o s.stage) (hcur : s.cur = some o) (hk : o.kind = .load)
    (hst : s.stage.stallM c = false) (hmem : Holds f.mem s.stage) (hbus : BusAt ans f s) :
    (f.exec ans o).loads =
      f.loads ++ [(s.stage.next c).lsu.loadDataW (s.stage.next c).operandW] := by
  have hvalue : (s.stage.next c).lsu.loadDataW (s.stage.next c).operandW =
      o.size.loadData o.signExtend (o.address.extractLsb' 0 2)
        (s.stage.lsu.dataM (s.stage.input c)) := by
    rw [Regs.loadDataW]
    simp only [Stage.next, Regs.next, ho.sizeM, ho.signExtendM, ho.operandM]
  rw [hvalue]
  cases hwb : wbSelect o.address with
  | true =>
    have hdata : s.stage.lsu.wbDataM = ans.getD f.reqs.length 0 := by
      have hstalled (h : s.stage.lsu.stallWbLoad = true ∨ s.stage.lsu.dCyc = true) : False :=
        absurd (hst.symm.trans (stalled_load ho hk h)) Bool.false_ne_true
      cases hbus with
      | calm hcalm => exact absurd ((hcalm o hcur hk).symm.trans hwb) Bool.false_ne_true
      | waiting _ _ _ _ hstall => exact (hstalled (.inl hstall)).elim
      | asked _ _ _ _ hcyc => exact (hstalled (.inr hcyc)).elim
      | answered _ _ _ _ _ _ _ hdata => exact hdata
    have hsel : s.stage.lsu.dataM (s.stage.input c) = s.stage.lsu.wbDataM := by
      rw [Regs.dataM, ho.wbSelectM, hwb, if_pos rfl]
    simp only [Flat.exec, hk, hwb]
    rw [hsel, hdata]
  | false =>
    simp only [Flat.exec, hk, hwb]
    rw [← load_eq]
    obtain ⟨hd, hi⟩ | ⟨hd, hi⟩ := select_cases hwb
    · have hsel : s.stage.lsu.dataM (s.stage.input c) =
          s.stage.lsu.dramDataM (s.stage.input c) := by
        rw [Regs.dataM, ho.wbSelectM, ho.dramSelectM, hwb, hd,
          if_neg Bool.false_ne_true, if_pos rfl]
      rw [hsel, ← index_dram hd, ← (hmem (index o.address)).1, ← ho.dram hd]
      rfl
    · have hsel : s.stage.lsu.dataM (s.stage.input c) = s.stage.iromQWr := by
        rw [Regs.dataM, ho.wbSelectM, ho.dramSelectM, hwb, hd, if_neg Bool.false_ne_true,
          if_neg Bool.false_ne_true]
        rfl
      rw [hsel, ← index_irom hi, ← (hmem (index o.address)).2, ← ho.irom hi]

theorem results_next (ho : Occupied s.cur s.stage) (hmem : Holds f.mem s.stage)
    (hbus : BusAt ans f s) (hres : s.results = f.loads) :
    (s.next c).results = (if s.stage.stallM c then f else f.leave ans s.cur).loads := by
  have hnext : (s.next c).results = if !s.stage.stallM c && s.stage.loadQM then
      s.results ++ [(s.stage.next c).lsu.loadDataW (s.stage.next c).operandW] else s.results := rfl
  rw [hnext]
  cases hst : s.stage.stallM c with
  | true => exact hres
  | false =>
    cases hcur : s.cur with
    | none =>
      rw [hcur] at ho
      rw [ho.loadQM]
      exact hres
    | some o =>
      rw [hcur] at ho
      have ho' : InM o s.stage := ho
      rw [ho'.loadQM]
      change _ = (f.exec ans o).loads
      by_cases hk : o.kind = .load
      · rw [load_data ho' hcur hk hst hmem hbus, hk, hres]
        rfl
      · have hloads : (f.exec ans o).loads = f.loads := by
          rcases o with ⟨k, z, e, a, w⟩
          cases k <;> cases hwb : wbSelect a <;> simp_all [Flat.exec]
        rw [beq_eq_false_iff_ne.mpr hk, hloads, ← hres]
        rfl

theorem got_next : s.got <+: (s.next c).got := by
  have hnext : (s.next c).got = if s.stage.lsu.answered (s.stage.input c) then
      s.got ++ [c.dDatI] else s.got := rfl
  rw [hnext]
  split
  · exact List.prefix_append _ _
  · exact List.prefix_refl _

theorem Inv.next (h : Inv ans mem s) (hans : (s.next c).got <+: ans) : Inv ans mem (s.next c) := by
  have hflat : flat ans mem (s.next c).done = _ := flat_next
  constructor
  · exact h.occupied.next
  · have hnext : Holds _ (s.next c).stage := h.holds.next (c := c) h.occupied
    rw [hflat]
    cases hst : s.stage.stallM c with
    | true => rwa [hst, if_pos rfl] at hnext
    | false =>
      rw [hst, if_neg Bool.false_ne_true] at hnext
      rwa [if_neg Bool.false_ne_true, leave_mem]
  · rw [hflat]
    exact results_next h.occupied h.holds h.bus h.results
  · rw [hflat]
    exact h.bus.next h.occupied h.count hans
  · exact count_next h.count

theorem inv_start (ans : List Word) (mem : Mem Byte) (x : Instr) :
    Inv ans mem (Sys.start mem x) where
  occupied := ⟨rfl, rfl⟩
  holds := fun _ => ⟨rfl, rfl⟩
  results := rfl
  bus :=
    .calm (fun _ h => absurd h (Option.some_ne_none _).symm) rfl
      (fun h => absurd h Bool.false_ne_true) rfl
  count := rfl

theorem inv_run (mem : Mem Byte) (x : Instr) (cs : List Clock) (ans : List Word)
    (hans : (run Sys.next (Sys.start mem x) cs).got <+: ans) :
    Inv ans mem (run Sys.next (Sys.start mem x) cs) :=
  run_invariant_all Sys.next (fun s => ∀ ans, s.got <+: ans → Inv ans mem s)
    (fun _ _ h ans hans => (h ans (got_next.trans hans)).next hans) (Sys.start mem x) cs
    (fun ans _ => inv_start ans mem x) ans hans

end bus

/-- Loads and stores work one after the other on one memory, in the order in which they leave X:
every load of RAM or ROM gives what is in it then, every access of the bus is made once, in order,
and a load of the bus gives the data of its own access. Only the load in M may have asked ahead. -/
theorem memory_sequential (mem : Mem Byte) (x : Instr) (cs : List Clock) :
    let s := run Sys.next (Sys.start mem x) cs
    let f := flat s.got mem s.done
    s.results = f.loads ∧ Holds f.mem s.stage ∧
      (s.issued = f.reqs ∨
        ∃ o, s.cur = some o ∧ o.kind = .load ∧ wbSelect o.address = true ∧
          s.issued = f.reqs ++ [o.req]) ∧
      s.got.length + s.stage.lsu.dCyc.toNat = s.issued.length := by
  have h := inv_run mem x cs _ (List.prefix_refl _)
  refine ⟨h.results, h.holds, ?_, h.count⟩
  cases h.bus with
  | calm _ _ _ hissued => exact .inl hissued
  | waiting _ _ _ _ _ _ _ hissued => exact .inl hissued
  | asked o hcur hk hwb _ _ _ hissued => exact .inr ⟨o, hcur, hk, hwb, hissued⟩
  | answered o hcur hk hwb _ _ hissued => exact .inr ⟨o, hcur, hk, hwb, hissued⟩

end HashRatio.MemStage
