import HashRatio.ShaBus
import HashRatio.ShaDriver

/-!
# Driver sequences

What the driver of sha256.c makes of the engine: RST, INIT, blocks each waited for,
the second hash if wanted, and the eight words of HASH, one sequence after another.
-/

namespace HashRatio.ShaSequence
open Bytes Sha256 ShaCore ShaRounds Sha ShaBus

/-! ### The driver -/

/-- `bs` are the blocks waited for since INIT, `ws` the words written of the next. -/
inductive Driver
  | free
  | begun
  | writing (bs : List (List Word)) (ws : List Word)
  | doubling (bs : List (List Word))
  | reading (bs : List (List Word)) (dbl : Bool) (got : List Word)

inductive Driven : Regs → Driver → Prop
  | reset (s : Regs) (b : Wires) : Driven (clock s {b with rst := true, stb := false}) .free
  | rst {s : Regs} (g : Spacing) (h : Driven s .free) :
    Driven (transfer s g (writeCmd cmdRst)) .begun
  | init {s : Regs} (g : Spacing) (h : Driven s .begun) :
    Driven (transfer s g (writeCmd cmdInit)) (.writing [] [])
  | din {s : Regs} {bs : List (List Word)} {ws : List Word} (g : Spacing) (w : Word)
      (h : Driven s (.writing bs ws)) (hfew : ws.length < 16) :
      Driven (transfer s g (writeDin w)) (.writing bs (ws ++ [w]))
  | busy {s : Regs} {bs : List (List Word)} {ws : List Word} (g : Spacing)
      (h : Driven s (.writing bs ws)) (hfull : ws.length = 16) (hpoll : donePolled s g = false) :
      Driven (transfer s g (readCmd g)) (.writing bs ws)
  | done {s : Regs} {bs : List (List Word)} {ws : List Word} (g : Spacing)
      (h : Driven s (.writing bs ws)) (hfull : ws.length = 16) (hpoll : donePolled s g = true) :
      Driven (transfer s g (readCmd g)) (.writing (bs ++ [ws]) [])
  | dbl {s : Regs} {bs : List (List Word)} (g : Spacing) (h : Driven s (.writing bs []))
      (hsome : bs ≠ []) :
      Driven (transfer s g (writeCmd cmdDbl)) (.doubling bs)
  | dblBusy {s : Regs} {bs : List (List Word)} (g : Spacing) (h : Driven s (.doubling bs))
      (hpoll : donePolled s g = false) : Driven (transfer s g (readCmd g)) (.doubling bs)
  | dblDone {s : Regs} {bs : List (List Word)} (g : Spacing) (h : Driven s (.doubling bs))
      (hpoll : donePolled s g = true) : Driven (transfer s g (readCmd g)) (.reading bs true [])
  | single {s : Regs} {bs : List (List Word)} (h : Driven s (.writing bs [])) (hsome : bs ≠ []) :
      Driven s (.reading bs false [])
  | hash {s : Regs} {bs : List (List Word)} {dbl : Bool} {got : List Word} (g : Spacing)
      (h : Driven s (.reading bs dbl got)) (hfew : got.length < 8) :
      Driven (transfer s g (readHash g)) (.reading bs dbl (got ++ [readOut s g (readHash g)]))
  | finish {s : Regs} {bs : List (List Word)} {dbl : Bool} {got : List Word}
      (h : Driven s (.reading bs dbl got))
      (hall : got.length = 8) : Driven s .free

def chain (bs : List (List Word)) : Chain := bs.foldl compress initial

/-- What the driver is to read: the chaining value, or the SHA-256 of its 32 bytes. -/
def result (bs : List (List Word)) (dbl : Bool) : Chain :=
  if dbl then digest (ofWords (chain bs).words) else chain bs

/-- The chaining value a driver that polls waits for. -/
def awaited : Driver → Option Chain
  | .writing bs ws => if ws.length = 16 then some (chain (bs ++ [ws])) else none
  | .doubling bs => some (result bs true)
  | _ => none

theorem chain_push (bs : List (List Word)) (ws : List Word) :
    chain (bs ++ [ws]) = compress (chain bs) ws := by
  rw [chain, List.foldl_append]
  rfl

theorem digest_words (v : Chain) : digest (ofWords v.words) = compress initial (second v) := by
  have hlen : (ofWords v.words).length = 32 := by rw [ofWords_length, Chain.words_length]
  have htail : [0x80] ++ List.replicate (padZeros 32) 0 ++ lengthField 32 =
      ofWords padding.words := by decide
  have hpad : pad (ofWords v.words) = ofWords (second v) := by
    have happ : ofWords (second v) = ofWords v.words ++ ofWords padding.words := List.flatMap_append
    rw [happ, ← htail, pad, hlen, List.append_assoc, List.append_assoc, List.append_assoc]
  have hblocks : blocks (ofWords (second v)) = [second v] := by
    rw [blocks_single _ rfl]
    exact congrArg (fun ws => [ws]) (toWords_ofWords (second v))
  rw [digest, hpad, hblocks]
  rfl

/-! ### What the driver's state says of the engine -/

/-- The initial value is loaded for the next `init`, and HASH starts at its first word. -/
structure Loaded (s : Regs) : Prop where
  hx : s.hx = initial
  hashCnt : s.hashCnt = 0

inductive Writing (bs : List (List Word)) (ws : List Word) (s : Regs) : Prop
  | taking {r : Chain} (hfew : ws.length < 16) (hrest : Resting (chain bs) ws r s)
      (hcaught : ws = [] → bs ≠ [] → r = chain bs)
  | waiting {n : ℕ} (hfull : ws.length = 16) (hbusy : Compressing (chain bs) ws n s)

/-- `got` are the first words of `v`, and HASH is at the next. -/
structure Reading (v : Chain) (got : List Word) (s : Regs) : Prop where
  rest : ∃ r, Resting v [] r s
  hashCnt : s.hashCnt = BitVec.ofNat 3 got.length
  got : got = v.words.take got.length

def Meaning : Driver → Regs → Prop
  | .free, s => Between s
  | .begun, s => Between s ∧ s.hx = initial
  | .writing bs ws, s => Loaded s ∧ Writing bs ws s
  | .doubling bs, s => Loaded s ∧ ∃ n, Compressing initial (second (chain bs)) n s
  | .reading bs dbl got, s => Reading (result bs dbl) got s

theorem hx_stable (c : Chain) : Stable fun s => s.hx = c := by
  intro s b hl hx hb
  rw [clock_hx hb.rst hb.hiWr, hl.rst]
  exact hx

theorem hashCnt_stable (n : BitVec 3) : Stable fun s => s.hashCnt = n := by
  intro s b hl hn hb
  rw [clock_hashCnt hb.rst, hl.init, hl.hashRd]
  exact hn

theorem loaded_stable : Stable Loaded :=
  fun s b hl h hb => ⟨hx_stable _ s b hl h.hx hb, hashCnt_stable _ s b hl h.hashCnt hb⟩

theorem between_stable : Stable Between := fun _ _ hl h hb => between_clock hl.toCalm hb.rst h

theorem resting_stable (c : Chain) (ws : List Word) (r : Chain) : Stable (Resting c ws r) :=
  fun _ _ hl h hb => resting_clock hl.toCalm hb.rst h

def Within (c : Chain) (ws : List Word) (m : ℕ) (s : Regs) : Prop := ∃ n ≤ m, Compressing c ws n s

theorem within_step {c : Chain} {ws : List Word} {m : ℕ} {s : Regs} {b : Wires} (hl : Low s)
    (h : Within c ws m s) (hb : Still s b) : Within c ws (m - 1) (clock s b) := by
  obtain ⟨n, hn, h⟩ := h
  exact ⟨n - 1, by omega, compressing_step hl hb h⟩

theorem within_stable (c : Chain) (ws : List Word) (m : ℕ) : Stable (Within c ws m) := by
  intro s b hl h hb
  obtain ⟨n, hn, h⟩ := within_step hl h hb
  exact ⟨n, by omega, h⟩

theorem compressing_within {c : Chain} {ws : List Word} {n : ℕ} {s : Regs}
    (h : Compressing c ws n s) :
    Within c ws 66 s := by
  refine ⟨n, ?_, h⟩
  cases h <;> omega

/-- DONE says that the block is through. -/
theorem within_done {c : Chain} {ws : List Word} {m : ℕ} {s : Regs} (h : Within c ws m s)
    (hdone : s.regDone = true) :
    Resting (compress c ws) [] (compress c ws) s := by
  obtain ⟨n, -, h⟩ := h
  cases h with
  | feeding _ _ _ _ _ hreg => exact absurd (hreg.symm.trans hdone) Bool.false_ne_true
  | working _ _ hreg => exact absurd (hreg.symm.trans hdone) Bool.false_ne_true
  | pulsing _ _ _ _ hreg => exact absurd (hreg.symm.trans hdone) Bool.false_ne_true
  | compressed hrest _ => exact hrest

theorem within_zero {c : Chain} {ws : List Word} {s : Regs} (h : Within c ws 0 s) :
    s.regDone = true := by
  obtain ⟨n, hn, h⟩ := h
  cases h with
  | feeding => omega
  | working _ hcore =>
    have := hcore.bound
    omega
  | pulsing => omega
  | compressed _ hreg => exact hreg

/-! ### The driver's transfers -/

section transfers
variable {s t : Regs} {g : Spacing} {c r v : Chain} {bs : List (List Word)}
  {ws got : List Word} {m : ℕ}

theorem writeCmd_strobe (h : Idle t) (d : Word) : let u := clock t (writeCmd d).wires
    u.regInit = (d.getLsbD 0 || d.getLsbD 3) ∧ u.regRst = d.getLsbD 2 ∧ u.regDbl = d.getLsbD 3 ∧
      u.vld = false ∧ u.hashRdEnR = false ∧ u.hx = t.hx ∧
      u.regDone = if t.core.done then true else if d.getLsbD 3 then false else t.regDone := by
  simp [clock, writeCmd, Request.wires, cmdWrEn, dinWrEn, hashRdEn, hiWrEn, h.ack, h.low.rst]

theorem init_held (hack : t.ack = true) (hround : t.core.round = 0) (hi : t.regInit = true)
    (hr : t.regRst = false) (hx : t.hx = initial) (b : Wires) :
    Receiving (clock t (held b)).core initial [] ∧ (clock t (held b)).core.done = false ∧
      Loaded (clock t (held b)) := by
  have hstill := held_still hack b
  have hstep := init_step (i := corePins t (held b)) hround hstill.rst hi
  have hcore : Receiving (clock t (held b)).core initial [] := hx ▸ hstep.1
  refine ⟨hcore, hstep.2, ?_, ?_⟩
  · rw [clock_hx hstill.rst hstill.hiWr, hr]
    exact hx
  · rw [clock_hashCnt hstill.rst, hi]
    rfl

theorem rst_transfer (h : Idle s) (hb : Between s) :
    Idle (transfer s g (writeCmd cmdRst)) ∧ Between (transfer s g (writeCmd cmdRst)) ∧
      (transfer s g (writeCmd cmdRst)).hx = initial := by
  refine (transfer_rule (g := g) (Q := fun t => Between t ∧ Calm t ∧ t.regRst = true)
    (R := fun t => Between t ∧ t.hx = initial) between_stable h hb ?_ ?_).2
  · intro t ht hbt
    obtain ⟨hi, hr, hd, hv, -⟩ := writeCmd_strobe ht cmdRst
    exact ⟨between_clock ht.low.toCalm rfl hbt, ⟨hi, hd, hv⟩, hr⟩
  · intro t ht hq
    obtain ⟨hbt, hcalm, hr⟩ := hq
    have hstill := held_still ht g.held
    refine ⟨between_clock hcalm hstill.rst hbt, ?_⟩
    rw [clock_hx hstill.rst hstill.hiWr, hr]
    rfl

theorem init_transfer (h : Idle s) (hb : Between s ∧ s.hx = initial) :
    Idle (transfer s g (writeCmd cmdInit)) ∧ Loaded (transfer s g (writeCmd cmdInit)) ∧
      ∃ r, Resting initial [] r (transfer s g (writeCmd cmdInit)) := by
  refine (transfer_rule (g := g)
    (Q := fun t => Between t ∧ t.hx = initial ∧ t.regInit = true ∧ t.regRst = false ∧
    t.regDbl = false) (R := fun t => Loaded t ∧ ∃ r, Resting initial [] r t)
    (between_stable.and (hx_stable initial)) h hb ?_ ?_).2
  · intro t ht hbt
    obtain ⟨hi, hr, hd, -, -, hx, -⟩ := writeCmd_strobe ht cmdInit
    exact ⟨between_clock ht.low.toCalm rfl hbt.1, hx.trans hbt.2, hi, hr, hd⟩
  · intro t ht hq
    obtain ⟨hbt, hx, hi, hr, hd⟩ := hq
    obtain ⟨hcore, hdone, hloaded⟩ := init_held ht hbt.round hi hr hx g.held
    obtain ⟨r, hdbl⟩ := hbt.dbl
    refine ⟨hloaded, r, hcore, hdone, ?_⟩
    rw [clock_dbl rfl, hd, hdbl, hbt.done, Dbl.next_rest]

theorem dbl_transfer (h : Idle s) (hl : Loaded s) (hrest : Resting c [] v s) :
    Idle (transfer s g (writeCmd cmdDbl)) ∧ Loaded (transfer s g (writeCmd cmdDbl)) ∧
      Compressing initial (second v) 66 (transfer s g (writeCmd cmdDbl)) := by
  refine (transfer_rule (g := g)
    (Q := fun t => Resting c [] v t ∧ t.hx = initial ∧ t.regInit = true ∧
    t.regRst = false ∧ t.regDbl = true ∧ t.regDone = false)
    (R := fun t => Loaded t ∧ Compressing initial (second v) 66 t)
    ((resting_stable c [] v).and (hx_stable initial)) h ⟨hrest, hl.hx⟩ ?_ ?_).2
  · intro t ht hrt
    obtain ⟨hi, hr, hd, -, -, hx, hdone⟩ := writeCmd_strobe ht cmdDbl
    rw [hrt.1.done] at hdone
    exact ⟨resting_clock ht.low.toCalm rfl hrt.1, hx.trans hrt.2, hi, hr, hd, hdone⟩
  · intro t ht hq
    obtain ⟨hrt, hx, hi, hr, hd, hreg⟩ := hq
    have hstill := held_still ht g.held
    obtain ⟨hcore, hdone, hloaded⟩ := init_held ht hrt.core.round hi hr hx g.held
    have hdbl : (clock t (held g.held)).dbl = Dbl.feed v 0 := by
      rw [clock_dbl rfl, hd, hrt.dbl, hrt.done, Dbl.next_start]
    have hreg' : (clock t (held g.held)).regDone = false := still_busy hstill hrt.done hreg
    exact ⟨hloaded, .feeding rfl (by decide) hdbl hcore hdone hreg'⟩

theorem writeDin_strobe (h : Idle t) (w : Word) : let u := clock t (writeDin w).wires
    u.vld = true ∧ u.regDin = w ∧ u.regInit = false ∧ u.regRst = false ∧ u.regDbl = false ∧
      u.hashRdEnR = false ∧
      u.hx = t.hx ∧ u.hashCnt = t.hashCnt ∧ u.regDone = t.core.done := by
  simp [clock, writeDin, Request.wires, cmdWrEn, dinWrEn, hashRdEn, hiWrEn, h.ack, h.low.rst,
    h.low.init, h.low.hashRd]

theorem din_transfer (h : Idle s) (hl : Loaded s) (hrest : Resting (chain bs) ws r s) (w : Word) :
    Idle (transfer s g (writeDin w)) ∧ Loaded (transfer s g (writeDin w)) ∧
      Writing bs (ws ++ [w]) (transfer s g (writeDin w)) := by
  have hfew := hrest.core.few
  have hlen : (ws ++ [w]).length = ws.length + 1 := by
    rw [List.length_append, List.length_singleton]
  refine (transfer_rule (g := g)
    (Q := fun t => Resting (chain bs) ws r t ∧ Loaded t ∧ t.vld = true ∧ t.regDin = w ∧
    t.regInit = false ∧ t.regRst = false ∧ t.regDbl = false ∧ t.hashRdEnR = false ∧
    t.regDone = false)
    (R := fun t => Loaded t ∧ Writing bs (ws ++ [w]) t)
    ((resting_stable (chain bs) ws r).and loaded_stable) h ⟨hrest, hl⟩ ?_ ?_).2
  · intro t ht hrt
    obtain ⟨hv, hw, hi, hr, hd, hh, hx, hn, hdone⟩ := writeDin_strobe ht w
    exact ⟨resting_clock ht.low.toCalm rfl hrt.1, ⟨hx.trans hrt.2.hx, hn.trans hrt.2.hashCnt⟩, hv,
      hw, hi, hr, hd, hh, hdone.trans hrt.1.done⟩
  · intro t ht hq
    obtain ⟨hrt, hlt, hv, hw, hi, hr, hd, hh, hreg⟩ := hq
    have hstill := held_still ht g.held
    have hp : Pins.plain (corePins t (held g.held)) := ⟨hstill.rst, hi⟩
    have hvld : (corePins t (held g.held)).vld = true := by simp only [corePins, hv, Bool.true_or]
    have hdin : (corePins t (held g.held)).din = w := by
      simp only [corePins, hrt.dbl, Dbl.rest, Bool.false_eq_true, if_false, hw]
    have hdbl : (clock t (held g.held)).dbl = Dbl.rest r := by
      rw [clock_dbl rfl, hd, hrt.dbl, hrt.done, Dbl.next_rest]
    have hloaded : Loaded (clock t (held g.held)) := by
      constructor
      · rw [clock_hx hstill.rst hstill.hiWr, hr]
        exact hlt.hx
      · rw [clock_hashCnt hstill.rst, hi, hh]
        exact hlt.hashCnt
    refine ⟨hloaded, ?_⟩
    by_cases hlast : ws.length = 15
    · have hnext := receiving_last hrt.core hp hvld hlast
      rw [hdin] at hnext
      have hreg' : (clock t (held g.held)).regDone = false := still_busy hstill hrt.done hreg
      exact .waiting (by omega) (.working hdbl hnext hreg')
    · obtain ⟨hnext, hdone⟩ := receiving_word hrt.core hp hvld (by omega)
      rw [hdin] at hnext
      refine .taking (by omega) ⟨hnext, hdone, hdbl⟩ fun hnil => ?_
      rw [hnil] at hlen
      cases hlen

theorem readHash_strobe (h : Idle t) (g : Spacing) : let u := clock t (readHash g).wires
    u.hashRdEnR = true ∧ u.hashRdEnF = true ∧ u.cmdRdEnF = false ∧ Calm u ∧
    u.hashCnt = t.hashCnt := by
  refine ⟨?_, ?_, ?_, ⟨?_, ?_, ?_⟩, ?_⟩ <;>
    simp [clock, readHash, Request.wires, cmdWrEn, dinWrEn, hashRdEn, cmdRdEn, h.ack,
      h.low.init, h.low.hashRd]

theorem readHash_transfer (h : Idle s) (hr : Reading v got s) (hfew : got.length < 8) :
    Idle (transfer s g (readHash g)) ∧
      Reading v (got ++ [readOut s g (readHash g)]) (transfer s g (readHash g)) := by
  obtain ⟨r, hrest⟩ := hr.rest
  obtain ⟨hq, hidle, hnext⟩ := transfer_rule (g := g) (q := readHash g)
    (Q := fun t => Resting v [] r t ∧ t.hashCnt = BitVec.ofNat 3 got.length ∧ Calm t ∧
      t.hashRdEnR = true ∧
      t.hashRdEnF = true ∧ t.cmdRdEnF = false)
    (R := fun t => Resting v [] r t ∧ t.hashCnt = BitVec.ofNat 3 (got.length + 1))
    ((resting_stable v [] r).and (hashCnt_stable (BitVec.ofNat 3 got.length))) h
    ⟨hrest, hr.hashCnt⟩ (by
      intro t ht hrt
      obtain ⟨hrd, hrf, hcf, hcalm, hn⟩ := readHash_strobe ht g
      exact ⟨resting_clock ht.low.toCalm rfl hrt.1, hn.trans hrt.2, hcalm, hrd, hrf, hcf⟩) (by
      intro t ht hqt
      obtain ⟨hrt, hn, hcalm, hrd, -⟩ := hqt
      refine ⟨resting_clock hcalm rfl hrt, ?_⟩
      rw [clock_hashCnt rfl, hcalm.init, hrd, hn]
      exact (BitVec.ofNat_add got.length 1).symm)
  obtain ⟨hrest', hn, -, -, hrf, hcf⟩ := hq
  have hout : readOut s g (readHash g) = v.words.getD got.length 0 := by
    have hhash : (acked s g (readHash g)).core.abc = v := hrest'.core.worked
    rw [readOut, datO, hcf, hrf, if_neg Bool.false_ne_true, if_pos rfl, regHash, hhash, hn,
      BitVec.toNat_ofNat, Nat.mod_eq_of_lt hfew]
  have hlen : (got ++ [readOut s g (readHash g)]).length = got.length + 1 := by
    rw [List.length_append, List.length_singleton]
  have hgot : got ++ [readOut s g (readHash g)] = v.words.take (got.length + 1) := by
    rw [hout, List.getD_eq_getElem _ _ (by rwa [Chain.words_length]),
      ← List.take_append_getElem, ← hr.got]
  refine ⟨hidle, ⟨⟨r, hnext.1⟩, ?_, ?_⟩⟩
  · rw [hlen]
    exact hnext.2
  · rw [hlen]
    exact hgot

/-- Each poll takes a cycle at least off the wait. -/
theorem poll_transfer {P : Regs → Prop} (hP : Stable P) (h : Idle s) (hp : P s)
    (hw : Within c ws m s) :
    donePolled s g = (acked s g (readCmd g)).regDone ∧ Low (acked s g (readCmd g)) ∧
      (P (acked s g (readCmd g)) ∧ Within c ws (m - 1) (acked s g (readCmd g))) ∧
      Idle (transfer s g (readCmd g)) ∧ P (transfer s g (readCmd g)) ∧
      Within c ws (m - 1) (transfer s g (readCmd g)) :=
  readCmd_rule (hP.and (within_stable c ws m)) (hP.and (within_stable c ws (m - 1)))
    (fun t b hl ht hb => ⟨hP t b hl ht.1 hb, within_step hl ht.2 hb⟩) h ⟨hp, hw⟩

theorem done_transfer (h : Idle s) (hl : Loaded s) (hw : Within c ws m s)
    (hpoll : donePolled s g = true) :
    Resting (compress c ws) [] (compress c ws) (acked s g (readCmd g)) ∧
      Idle (transfer s g (readCmd g)) ∧
      Loaded (transfer s g (readCmd g)) ∧
      Resting (compress c ws) [] (compress c ws) (transfer s g (readCmd g)) := by
  obtain ⟨hdone, hlow, ⟨-, hw'⟩, hidle, hl', -⟩ := poll_transfer loaded_stable h hl hw
  have hrest := within_done hw' (hdone.symm.trans hpoll)
  exact ⟨hrest, hidle, hl', resting_clock hlow.toCalm rfl hrest⟩

theorem busy_transfer (h : Idle s) (hl : Loaded s) (hw : Within c ws m s) :
    Idle (transfer s g (readCmd g)) ∧ Loaded (transfer s g (readCmd g)) ∧
      Within c ws (m - 1) (transfer s g (readCmd g)) :=
  (poll_transfer loaded_stable h hl hw).2.2.2

def polls (s : Regs) (gs : List Spacing) : Regs := gs.foldl (fun s g => transfer s g (readCmd g)) s

theorem polls_done (h : Idle s) (hl : Loaded s) (gs : List Spacing)
    (hw : Within c ws gs.length s) (g : Spacing) :
    donePolled (polls s gs) g = true := by
  induction gs generalizing s with
  | nil =>
    obtain ⟨hdone, -, ⟨-, hw'⟩, -⟩ := poll_transfer (g := g) loaded_stable h hl hw
    rw [polls, List.foldl_nil, hdone]
    exact within_zero hw'
  | cons g' gs ih =>
    obtain ⟨hidle, hl', hw'⟩ := busy_transfer (g := g') h hl hw
    exact ih hidle hl' hw'

end transfers

/-! ### Every run -/

section driven
variable {s : Regs} {d : Driver} {bs : List (List Word)} {ws got : List Word} {dbl : Bool}
  {v : Chain} {g : Spacing}

theorem Writing.few (h : Writing bs ws s) (hfew : ws.length < 16) :
    ∃ r, Resting (chain bs) ws r s ∧ (ws = [] → bs ≠ [] → r = chain bs) := by
  cases h with
  | @taking r _ hrest hcaught => exact ⟨r, hrest, hcaught⟩
  | waiting hfull _ => omega

theorem Writing.full (h : Writing bs ws s) (hfull : ws.length = 16) :
    Within (chain bs) ws 66 s := by
  cases h with
  | taking hfew _ _ => omega
  | waiting _ hbusy => exact compressing_within hbusy

theorem result_double (bs : List (List Word)) :
    result bs true = compress initial (second (chain bs)) :=
  digest_words (chain bs)

theorem reset_meaning (s : Regs) (b : Wires) : Idle (clock s {b with rst := true, stb := false}) ∧
    Between (clock s {b with rst := true, stb := false}) := by
  refine ⟨⟨⟨⟨rfl, rfl, rfl⟩, rfl, ?_⟩, rfl⟩, reset_round rfl, ?_, ⟨_, rfl⟩⟩
  · simp [clock, hashRdEn]
  · simp [clock, next, nextDone, corePins]

theorem driven_meaning (h : Driven s d) : Idle s ∧ Meaning d s := by
  induction h with
  | reset s b => exact reset_meaning s b
  | rst g _ ih =>
    obtain ⟨hidle, hb⟩ := ih
    exact rst_transfer hidle hb
  | init g _ ih =>
    obtain ⟨hidle, hb⟩ := ih
    obtain ⟨hidle', hl, r, hrest⟩ := init_transfer (g := g) hidle hb
    exact ⟨hidle', hl, .taking (by decide) hrest fun _ hne => absurd rfl hne⟩
  | din g w _ hfew ih =>
    obtain ⟨hidle, hl, hw⟩ := ih
    obtain ⟨r, hrest, -⟩ := hw.few hfew
    exact din_transfer hidle hl hrest w
  | busy g _ hfull hpoll ih =>
    obtain ⟨hidle, hl, hw⟩ := ih
    obtain ⟨hidle', hl', n, -, hbusy⟩ := busy_transfer (g := g) hidle hl (hw.full hfull)
    exact ⟨hidle', hl', .waiting hfull hbusy⟩
  | @done _ bs ws g _ hfull hpoll ih =>
    obtain ⟨hidle, hl, hw⟩ := ih
    obtain ⟨-, hidle', hl', hrest⟩ := done_transfer hidle hl (hw.full hfull) hpoll
    rw [← chain_push] at hrest
    exact ⟨hidle', hl', .taking (by decide) hrest fun _ _ => rfl⟩
  | dbl g _ hsome ih =>
    obtain ⟨hidle, hl, hw⟩ := ih
    obtain ⟨r, hrest, hcaught⟩ := hw.few (by decide)
    rw [hcaught rfl hsome] at hrest
    obtain ⟨hidle', hl', hbusy⟩ := dbl_transfer (g := g) hidle hl hrest
    exact ⟨hidle', hl', _, hbusy⟩
  | dblBusy g _ hpoll ih =>
    obtain ⟨hidle, hl, n, hbusy⟩ := ih
    obtain ⟨hidle', hl', n', -, hbusy'⟩ :=
      busy_transfer (g := g) hidle hl (compressing_within hbusy)
    exact ⟨hidle', hl', n', hbusy'⟩
  | dblDone g _ hpoll ih =>
    obtain ⟨hidle, hl, n, hbusy⟩ := ih
    obtain ⟨-, hidle', hl', hrest⟩ := done_transfer hidle hl (compressing_within hbusy) hpoll
    rw [← result_double] at hrest
    exact ⟨hidle', ⟨_, hrest⟩, hl'.hashCnt, rfl⟩
  | single _ hsome ih =>
    obtain ⟨hidle, hl, hw⟩ := ih
    obtain ⟨r, hrest, -⟩ := hw.few (by decide)
    exact ⟨hidle, ⟨r, hrest⟩, hl.hashCnt, rfl⟩
  | hash g _ hfew ih =>
    obtain ⟨hidle, hr⟩ := ih
    exact readHash_transfer hidle hr hfew
  | finish _ hall ih =>
    obtain ⟨hidle, hr⟩ := ih
    obtain ⟨r, hrest⟩ := hr.rest
    exact ⟨hidle, hrest.core.round, hrest.done, r, hrest.dbl⟩

theorem awaited_within (h : Driven s d) (ha : awaited d = some v) :
    Idle s ∧ Loaded s ∧ ∃ c ws, v = compress c ws ∧ Within c ws 66 s := by
  obtain ⟨hidle, hm⟩ := driven_meaning h
  cases d with
  | free => cases ha
  | begun => cases ha
  | reading bs dbl got => cases ha
  | writing bs ws =>
    by_cases hfull : ws.length = 16
    · rw [awaited, if_pos hfull, Option.some.injEq, chain_push] at ha
      exact ⟨hidle, hm.1, chain bs, ws, ha.symm, hm.2.full hfull⟩
    · rw [awaited, if_neg hfull] at ha
      cases ha
  | doubling bs =>
    obtain ⟨hl, n, hbusy⟩ := hm
    rw [awaited, Option.some.injEq, result_double] at ha
    exact ⟨hidle, hl, initial, second (chain bs), ha.symm, compressing_within hbusy⟩

theorem polling_ends {K : Regs → Prop} {c : Chain} {m : ℕ} (hmeans : ∀ s, K s → Idle s ∧ Loaded s)
    (hbusy : ∀ s, K s → donePolled s g = false → K (transfer s g (readCmd g))) (hs : K s)
    (hw : Within c ws m s) :
    ∃ t, K t ∧ donePolled t g = true := by
  induction m generalizing s with
  | zero => exact ⟨s, hs, polls_done (hmeans s hs).1 (hmeans s hs).2 [] hw g⟩
  | succ m ih =>
    cases hpoll : donePolled s g with
    | true => exact ⟨s, hs, hpoll⟩
    | false => exact ih (hbusy s hs hpoll) (busy_transfer (hmeans s hs).1 (hmeans s hs).2 hw).2.2

theorem words_written (g : Spacing) (h : Driven s (.writing bs ws)) (us : List Word)
    (hfew : ws.length + us.length ≤ 16) :
    ∃ t, Driven t (.writing bs (ws ++ us)) := by
  induction us generalizing s ws with
  | nil => exact ⟨s, by rwa [List.append_nil]⟩
  | cons u us ih =>
    rw [List.length_cons] at hfew
    obtain ⟨t, ht⟩ :=
      ih (.din g u h (by omega)) (by rw [List.length_append, List.length_singleton]; omega)
    exact ⟨t, by rwa [List.append_assoc] at ht⟩

theorem block_written (g : Spacing) (h : Driven s (.writing bs [])) (hfull : ws.length = 16) :
    ∃ t, Driven t (.writing (bs ++ [ws]) []) := by
  obtain ⟨t, ht⟩ := words_written g h ws (by rw [List.length_nil]; omega)
  rw [List.nil_append] at ht
  have hw := (driven_meaning ht).2.2.full hfull
  obtain ⟨u, hu, hpoll⟩ := polling_ends (g := g) (K := fun t => Driven t (.writing bs ws))
    (fun s hs => ⟨(driven_meaning hs).1, (driven_meaning hs).2.1⟩)
    (fun s hs hpoll => .busy g hs hfull hpoll) ht hw
  exact ⟨_, .done g hu hfull hpoll⟩

theorem blocks_written (g : Spacing) (h : Driven s (.writing bs [])) (cs : List (List Word))
    (hfull : ∀ ws ∈ cs, ws.length = 16) :
    ∃ t, Driven t (.writing (bs ++ cs) []) := by
  induction cs generalizing s bs with
  | nil => exact ⟨s, by rwa [List.append_nil]⟩
  | cons ws cs ih =>
    obtain ⟨t, ht⟩ := block_written g h (hfull ws (List.mem_cons_self ..))
    obtain ⟨u, hu⟩ := ih ht fun ws' hmem => hfull ws' (List.mem_cons_of_mem _ hmem)
    exact ⟨u, by rwa [List.append_assoc] at hu⟩

theorem words_read (g : Spacing) (h : Driven s (.reading bs dbl got)) (n : ℕ)
    (hfew : got.length + n ≤ 8) :
    ∃ t more, Driven t (.reading bs dbl (got ++ more)) ∧ more.length = n := by
  induction n generalizing s got with
  | zero => exact ⟨s, [], by rwa [List.append_nil], rfl⟩
  | succ n ih =>
    obtain ⟨t, more, ht, hmore⟩ :=
      ih (.hash g h (by omega)) (by rw [List.length_append, List.length_singleton]; omega)
    exact ⟨t, _ :: more, by rwa [List.append_assoc] at ht, by rw [List.length_cons, hmore]⟩

/-- Between two sequences the driver can hash any message, with every spacing. -/
theorem sequence_runs (h : Driven s .free) (g : Spacing) (hsome : bs ≠ [])
    (hfull : ∀ ws ∈ bs, ws.length = 16) (dbl : Bool) :
    ∃ t got, Driven t (.reading bs dbl got) ∧ got.length = 8 := by
  obtain ⟨t, ht⟩ := blocks_written g (.init g (.rst g h)) bs hfull
  rw [List.nil_append] at ht
  have hread : ∃ u, Driven u (.reading bs dbl []) := by
    cases dbl with
    | false => exact ⟨t, .single ht hsome⟩
    | true =>
      have hdbl : Driven (transfer t g (writeCmd cmdDbl)) (.doubling bs) := .dbl g ht hsome
      obtain ⟨n, hbusy⟩ := (driven_meaning hdbl).2.2
      obtain ⟨u, hu, hpoll⟩ := polling_ends (g := g) (K := fun t => Driven t (.doubling bs))
        (fun s hs => ⟨(driven_meaning hs).1, (driven_meaning hs).2.1⟩)
        (fun s hs hpoll => .dblBusy g hs hpoll) hdbl
        (compressing_within hbusy)
      exact ⟨_, .dblDone g hu hpoll⟩
  obtain ⟨u, hu⟩ := hread
  obtain ⟨x, got, hx, hgot⟩ := words_read g hu 8 (by decide)
  exact ⟨x, got, hx, hgot⟩

theorem hash_read (h : Driven s (.reading bs dbl got)) (hall : got.length = 8) :
    got = (result bs dbl).words := by
  have hgot := (driven_meaning h).2.got
  rwa [hall, List.take_of_length_le (Nat.le_of_eq (Chain.words_length _))] at hgot

/-- **In every run of driver sequences DONE reads 1 only when the core holds the value waited for,
it does so after 66 polls at the latest, and the eight words of HASH are the chaining value of the
blocks or its SHA-256.** -/
theorem bus_correct (h : Driven s d) :
    (∀ v, awaited d = some v →
      (∀ g, donePolled s g = true →
        (acked s g (readCmd g)).core.round = 0 ∧ (acked s g (readCmd g)).core.abc = v) ∧
      ∀ gs : List Spacing, gs.length = 66 → ∀ g, donePolled (polls s gs) g = true) ∧
    ∀ bs dbl got, d = .reading bs dbl got → got.length = 8 → got = (result bs dbl).words := by
  refine ⟨fun v ha => ?_, fun bs dbl got hd hall => ?_⟩
  · obtain ⟨hidle, hl, c, ws, rfl, hw⟩ := awaited_within h ha
    refine ⟨fun g hpoll => ?_, fun gs hgs g => polls_done hidle hl gs (by rwa [hgs]) g⟩
    obtain ⟨hrest, -⟩ := done_transfer hidle hl hw hpoll
    exact ⟨hrest.core.round, hrest.core.worked⟩
  · subst hd
    exact hash_read h hall

end driven

theorem bus_correct_abc :
    ∃ t got, Driven t (.reading (blocks (pad [0x61, 0x62, 0x63])) true got) ∧ got =
    [0x4f8b42c2, 0x2dd3729b, 0x519ba6f6, 0x8d2da7cc, 0x5b2d606d, 0x05daed5a,
      0xd5128cc0, 0x3e6c6358] := by
  have hsome : blocks (pad [0x61, 0x62, 0x63]) ≠ [] := by decide
  have hfull : ∀ ws ∈ blocks (pad [0x61, 0x62, 0x63]), ws.length = 16 := by decide
  let gap : Wires := ⟨false, false, true, 0x4, 0xffffffff⟩
  have hreset :
    Driven _ .free := .reset
      (clock ⟨true, true, true, true, true, 0, true, 0, true, initial, 0, true, true,
    true, Dbl.feed initial 3, resetCore⟩ gap) gap
  obtain ⟨s, once, hs, honce⟩ := sequence_runs hreset ⟨[], gap⟩ hsome hfull false
  obtain ⟨t, got, ht, hgot⟩ := sequence_runs (.finish hs honce) ⟨[gap, gap], gap⟩ hsome hfull true
  refine ⟨t, got, ht, ?_⟩
  rw [(bus_correct ht).2 _ _ _ rfl hgot]
  decide +kernel

end HashRatio.ShaSequence
