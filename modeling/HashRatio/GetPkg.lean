import HashRatio.MainLoop
import HashRatio.Uart

/-!
# get_pkg

The packet parser of `get_pkg` with its four static variables, and the firmware
fed through the receive ring: bytes arrive at any moment, `main` calls `get_pkg`
when it likes, and the call runs turn by turn until it returns.
-/

namespace HashRatio.GetPkg
open Bytes Protocol Drivers State Packets Results MainLoop Uart

variable {σ : Type}

/-! ### The parser -/

structure Parser where
  preLast : Byte
  last : Byte
  start : Bool
  count : ℕ
  gPkg : Pkg

def Parser.init : Parser := ⟨0, 0, false, 2, fun _ => 0⟩

/-- `g_pkg[i] = c`; `none` when `i` is no index of `g_pkg`. -/
def storeAt (g : Pkg) (i : ℕ) (c : Byte) : Option Pkg :=
  if h : i < 39 then some (fun k => if k = ⟨i, h⟩ then c else g k) else none

def Parser.detectHead (p : Parser) : Parser :=
  if p.preLast = hrtoH1 ∧ p.last = hrtoH2 ∧ p.start = false then
    {p with gPkg := pkgWrite p.gPkg 0 [p.preLast, p.last], start := true, count := 2}
  else p

/-- A turn of the loop on the byte it read, with the packet that is complete. After a packet
`pre_last` and `last` are 0, so that the test for a head fails. -/
def Parser.feedByte (p : Parser) (c : Byte) : Option (Parser × Option Pkg) :=
  let p := {p with preLast := p.last, last := c}
  let stored :=
    if p.start then (storeAt p.gPkg p.count c).map fun g => {p with gPkg := g, count := p.count + 1}
    else some p
  stored.map fun p =>
    if p.count = hrtoPCount then
      ({p with preLast := 0, last := 0, start := false, count := 2}, some p.gPkg)
    else (p.detectHead, none)

def feed : Parser → List Byte → Option (Parser × List Pkg)
  | p, [] => some (p, [])
  | p, c :: cs =>
    (p.feedByte c).bind fun r => (feed r.1 cs).map fun s => (s.1, r.2.toList ++ s.2)

theorem feed_append (p : Parser) (as bs : List Byte) :
    feed p (as ++ bs) = (feed p as).bind fun r => (feed r.1 bs).map fun s => (s.1, r.2 ++ s.2) := by
  induction as generalizing p with
  | nil => simp [feed]
  | cons a as ih =>
    simp only [List.cons_append, feed]
    cases p.feedByte a with
    | none => rfl
    | some r =>
      simp only [Option.bind_some, ih]
      cases feed r.1 as with
      | none => rfl
      | some s =>
        simp only [Option.map_some, Option.bind_some, Option.map_map, Function.comp_def,
          List.append_assoc]

structure Parser.Ok (p : Parser) : Prop where
  count_ge : 2 ≤ p.count
  count_lt : p.count < 39
  idle : p.start = false → p.count = 2

theorem init_ok : Parser.init.Ok := ⟨by decide, by decide, fun _ => rfl⟩

theorem detectHead_ok (p : Parser) (h : p.Ok) : p.detectHead.Ok := by
  unfold Parser.detectHead
  split
  · exact ⟨Nat.le_refl 2, by simp, fun hs => by cases hs⟩
  · exact h

theorem feedByte_ok (p : Parser) (h : p.Ok) (c : Byte) : ∃ r, p.feedByte c = some r ∧ r.1.Ok := by
  have h1 := h.count_ge
  have h2 := h.count_lt
  cases hs : p.start with
  | false =>
    have hcount : p.count ≠ hrtoPCount := by
      rw [h.idle hs]
      decide
    have hok : Parser.Ok {p with preLast := p.last, last := c} := ⟨h1, h2, h.idle⟩
    refine ⟨({p with preLast := p.last, last := c}.detectHead, none), ?_, detectHead_ok _ hok⟩
    simp only [Parser.feedByte, hs, Bool.false_eq_true, if_false, Option.map_some, hcount]
  | true =>
    simp only [Parser.feedByte, hs, if_true, storeAt, dif_pos h2, Option.map_some]
    split
    · exact ⟨_, rfl, ⟨Nat.le_refl 2, by simp, fun _ => rfl⟩⟩
    · rename_i hne
      unfold hrtoPCount at hne
      exact ⟨_, rfl,
        detectHead_ok _ ⟨by simp only; omega, by simp only at hne ⊢; omega, fun hf => by cases hf⟩⟩

theorem feed_ok (p : Parser) (h : p.Ok) (cs : List Byte) :
    ∃ q ps, feed p cs = some (q, ps) ∧ q.Ok := by
  induction cs generalizing p with
  | nil => exact ⟨p, [], rfl, h⟩
  | cons c cs ih =>
    obtain ⟨r, hr, hok⟩ := feedByte_ok p h c
    obtain ⟨q, ps, hq, hqok⟩ := ih r.1 hok
    refine ⟨q, r.2.toList ++ ps, ?_, hqok⟩
    rw [feed, hr]
    simp only [Option.bind_some, hq, Option.map_some]

/-! ### The firmware behind the ring -/

/-- The firmware with its receive ring. Ghosts: the bytes received, those `uart_read` returned, the
packets given to `decode_pkg`, and whether `g_pkg` was indexed outside. -/
structure Link (σ : Type) where
  ring : Ring
  parser : Parser
  inCall : Bool
  fw : Fw σ
  received : List Byte
  taken : List Byte
  handed : List Pkg
  outside : Bool

def Link.init (b : Board σ) (env : σ) : Link σ :=
  ⟨Ring.init, Parser.init, false, start b env, [], [], [], false⟩

/-- A byte arrives, `main` calls `get_pkg`, the call makes a turn, `main` does something else. -/
inductive Input where
  | isr (c : Byte)
  | call
  | turn
  | other (e : Event)

def Link.turn (b : Board σ) (l : Link σ) : Link σ :=
  if l.ring.uartReadNonblock = false ∧ l.parser.start = false then {l with inCall := false}
  else
    match l.ring.uartRead with
    | none => l
    | some (ring, c) =>
      match l.parser.feedByte c with
      | none => {l with outside := true}
      | some (parser, none) => {l with ring := ring, parser := parser, taken := l.taken ++ [c]}
      | some (parser, some p) =>
        let r := handlePkg b l.fw p
        {l with
          ring := ring
          parser := parser
          inCall := !r.2
          fw := r.1
          taken := l.taken ++ [c]
          handed := l.handed ++ [p]}

def linkStep (b : Board σ) (l : Link σ) : Input → Link σ
  | .isr c => {l with ring := l.ring.uartIsr c, received := l.received ++ [c]}
  | .call => {l with inCall := true}
  | .turn => if l.inCall then l.turn b else l
  | .other (.pkg _) => l
  | .other e => if l.inCall then l else {l with fw := step b l.fw e}

/-! ### Replies -/

def framesOf (tx : List Out) : List Pkg :=
  tx.filterMap fun
    | .frame p => some p
    | .raw _ => none

theorem framesOf_append (as bs : List Out) : framesOf (as ++ bs) = framesOf as ++ framesOf bs :=
  List.filterMap_append

/-- An accepted packet that is answered. -/
def WantsReply (p : Pkg) : Prop :=
  CrcOk p ∧ pkgType p ∈ [some .detect, some .polling, some .require]

instance (p : Pkg) : Decidable (WantsReply p) := inferInstanceAs (Decidable (_ ∧ _))

def ReplyTo (p q : Pkg) : Prop :=
  match pkgType p with
  | some .detect => pkgType q = some .ackdetect
  | some .polling => pkgType q = some .nonce ∨ pkgType q = some .status
  | some .require => pkgType q = some .status
  | _ => False

theorem putCrc_type (p : Pkg) : pkgType (putCrc p) = pkgType p := by
  rw [pkgType, pkgType, putCrc, pkgWrite_out _ _ _ _ (Or.inl (by decide))]

theorem encodePkg_type (b : Board σ) (s : Fw σ) (type : PkgType) (buf : List Byte)
    (idx cnt : Byte) :
    pkgType (encodePkg b s type.code buf idx cnt).2 = some type := by
  have hhead :
      pkgType (pkgWrite (fun _ => 0) 0 [hrtoH1, hrtoH2, type.code, idx, cnt]) = some type :=
    PkgType.ofByte_code type
  have hdata (p : Pkg) (bs : List Byte) : pkgType (pkgWrite p 5 bs) = pkgType p := by
    rw [pkgType, pkgType, pkgWrite_out _ _ _ _ (Or.inl (by decide))]
  unfold encodePkg
  split <;> simp only [putCrc_type, hdata, hhead]

theorem sendPkg_frames (b : Board σ) (s : Fw σ) (type : PkgType) (buf : List Byte)
    (idx cnt : Byte) :
    ∃ q, framesOf (sendPkg b s type buf idx cnt).tx = framesOf s.tx ++ [q] ∧
      pkgType q = some type :=
  ⟨(encodePkg b s type.code buf idx cnt).2,
    by rw [sendPkg_tx, framesOf_append]; rfl, encodePkg_type b s type buf idx cnt⟩

theorem be200Polling_frames (b : Board σ) (s : Fw σ) :
    ∃ q, framesOf (be200Polling b s).tx = framesOf s.tx ++ [q] ∧
      (pkgType q = some .nonce ∨ pkgType q = some .status) := by
  unfold be200Polling
  cases s.jobs.pop with
  | none =>
    obtain ⟨q, hq, ht⟩ := sendPkg_frames b s .status [] 1 1
    exact ⟨q, hq, Or.inr ht⟩
  | some r =>
    obtain ⟨q, hq, ht⟩ :=
      sendPkg_frames b {s with jobs := r.1} .nonce (nonceData s.jobs.works r.2) 1 1
    exact ⟨q, hq, Or.inl ht⟩

theorem acceptPkg_frames (b : Board σ) (s : Fw σ) (p : Pkg) (h : pkgType p ≠ some .polling) :
    framesOf (acceptPkg b s p).tx = framesOf s.tx := by
  have hraw (bs : List Byte) : framesOf (s.tx ++ [.raw bs]) = framesOf s.tx := by
    rw [framesOf_append]
    exact List.append_nil _
  have htask (n : ℕ) : (itpTask b s p n).tx = s.tx := by
    unfold itpTask
    split
    · rfl
    · split <;> rfl
  unfold acceptPkg
  split
  case h_7 ht => exact absurd ht h
  case h_12 => rw [htask]
  case h_13 => exact hraw _
  case h_14 => rw [htask]
  case h_15 => exact hraw _
  case h_16 => exact hraw _
  all_goals rfl

theorem reply_frames (b : Board σ) (s : Fw σ) (p : Pkg)
    (h : pkgType p = some .detect ∨ pkgType p = some .require) :
    ∃ q, framesOf (reply b s p).tx = framesOf s.tx ++ [q] ∧ ReplyTo p q := by
  rcases h with ht | ht
  · obtain ⟨q, hq, hqt⟩ := sendPkg_frames b s .ackdetect b.mmVersion 1 1
    exact ⟨q, by rw [reply, ht]; exact hq, by rw [ReplyTo, ht]; exact hqt⟩
  · obtain ⟨q, hq, hqt⟩ := sendPkg_frames b s .status [] 1 1
    exact ⟨q, by rw [reply, ht]; exact hq, by rw [ReplyTo, ht]; exact hqt⟩

theorem reply_none (b : Board σ) (s : Fw σ) (p : Pkg) (h1 : pkgType p ≠ some .detect)
    (h2 : pkgType p ≠ some .require) :
    reply b s p = s := by
  unfold reply
  split
  · rename_i ht
    exact absurd ht h1
  · rename_i ht
    exact absurd ht h2
  · rfl

/-- **A packet is answered by one frame when it is accepted and wants it, else by none.** -/
theorem handlePkg_frames (b : Board σ) (s : Fw σ) (p : Pkg) :
    (WantsReply p ∧ ∃ q, framesOf (handlePkg b s p).1.tx = framesOf s.tx ++ [q] ∧ ReplyTo p q) ∨
      (¬WantsReply p ∧ framesOf (handlePkg b s p).1.tx = framesOf s.tx) := by
  unfold handlePkg
  by_cases hcrc : CrcOk p
  · rw [decodePkg_accept b s p hcrc]
    simp only [Bool.false_eq_true, if_false, WantsReply, hcrc, true_and, List.mem_cons,
      List.not_mem_nil, or_false]
    by_cases hpoll : pkgType p = some .polling
    · -- answered within `decode_pkg`
      obtain ⟨q, hq, hqt⟩ := be200Polling_frames b s
      refine Or.inl ⟨Or.inr (Or.inl hpoll), q, ?_, ?_⟩
      · rw [reply_none b _ p (by rw [hpoll]; decide) (by rw [hpoll]; decide), acceptPkg, hpoll]
        exact hq
      · rw [ReplyTo, hpoll]
        exact hqt
    · have haccept := acceptPkg_frames b s p hpoll
      by_cases hwant : pkgType p = some .detect ∨ pkgType p = some .require
      · obtain ⟨q, hq, hqt⟩ := reply_frames b (acceptPkg b s p) p hwant
        rw [haccept] at hq
        exact Or.inl ⟨hwant.imp_right Or.inr, q, hq, hqt⟩
      · have hnone :=
          reply_none b (acceptPkg b s p) p (fun ht => hwant (Or.inl ht)) fun ht => hwant (Or.inr ht)
        rw [hnone]
        exact Or.inr ⟨fun hw => hwant (hw.imp_right fun hw => hw.resolve_left hpoll), haccept⟩
  · rw [decodePkg_reject b s p hcrc]
    exact Or.inr ⟨fun hw => hcrc hw.1, rfl⟩

theorem step_tx (b : Board σ) (s : Fw σ) (e : Event) (he : ∀ p, e ≠ .pkg p) :
    (step b s e).tx = s.tx := by
  have hcount (st : Scan σ) (idx : ℕ) (t : Jobs × Miner.NonceCheck × Option Word) :
      (countResult b st idx t).fw.tx = st.fw.tx := by
    simp only [countResult]
    split
    · rfl
    · split
      · rfl
      · simp only [countInvalid]
        split <;> rfl
  have hchip (st : Scan σ) (idx : ℕ) : (resultChip b st idx).fw.tx = st.fw.tx := by
    simp only [resultChip]
    split
    · rfl
    · rw [readyChip, hcount]
  have hfold (is : List ℕ) (st : Scan σ) : (is.foldl (resultChip b) st).fw.tx = st.fw.tx := by
    induction is generalizing st with
    | nil => rfl
    | cons i is ih => rw [List.foldl_cons, ih, hchip]
  cases e with
  | pkg p => exact absurd rfl (he p)
  | loopHead => rfl
  | loopCheck =>
    have htemp : (checkTemp b s).tx = s.tx := by
      simp only [checkTemp]
      split <;> rfl
    simp only [step, checkIdle]
    split <;> exact htemp
  | dispatch idx =>
    simp only [step, dispatch]
    split <;> rfl
  | readResult => exact hfold (List.range chipNumber) ⟨s, b.stale s.dev.env, .hw, false⟩

end HashRatio.GetPkg
