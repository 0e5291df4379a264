import HashRatio.UartDriver

/-!
# Bytes read from the line (uart_isr)

What the receiver gives goes through the FIFO into the ring of the firmware, byte by
byte, as long as the FIFO has room. The handler takes what RxRDY shows, which is what
the FIFO showed a clock before.
-/

namespace HashRatio.UartReads
open Bytes Clocked UartCore UartRecv UartDriver Serial Run
open UartTx (Lcr)

variable {F G : Type}

/-! ### Bytes out of the receive FIFO -/

/-- A word that the receiver gives finds room. -/
def Room (p : Parts F G) (s : Core F G) : Prop :=
  s.receiver.rx.offers = none ∨ p.rx.full s.rxFifo = false

def Roomy (p : Parts F G) (s : Sys F G) : Ev → Prop
  | .gap _ _ => Room p s.core
  | .access sin _ =>
    match s.pc.cycle with
    | none => True
    | some c => Room p s.core ∧ Room p (s.core.next p c sin)
  | _ => True

/-- The bytes taken so far and those in the FIFO are those the receiver gave. -/
def Kept (p : Parts F G) (u : View p.rx) (s : Core F G) (bytes : List Byte) : Prop :=
  bytes ++ u.held s.rxFifo = s.receiver.got.map UartRx.FifoWord.data

section kept
variable {p : Parts F G} {v : View p.tx} {u : View p.rx} {s : Core F G} {c : Cycle} {sin : Bool}
  {bytes : List Byte}

theorem kept_next (c : Cycle) (sin : Bool) (hroom : Room p s) (h : Kept p u s bytes) :
    Kept p u (s.next p c sin) (bytes ++ if p.rx.reads s.rxFifo (s.rbrRdStrobe p c) then
      [p.rx.dout (s.next p c sin).rxFifo] else []) := by
  have htakes : p.rx.takes s.rxFifo (s.receiver.rx.offers.map UartRx.FifoWord.data) =
      s.receiver.rx.offers.toList.map UartRx.FifoWord.data := by
    rw [Fifo.takes]
    obtain hnone | hfull := hroom
    · rw [hnone]
      exact ite_self _
    · rw [hfull, if_neg Bool.false_ne_true]
      cases s.receiver.rx.offers <;> rfl
  have hcons :=
    u.conserved s.rxFifo (s.receiver.rx.offers.map UartRx.FifoWord.data) (s.rbrRdStrobe p c)
  change _ = (s.receiver.got ++ s.receiver.rx.offers.toList).map UartRx.FifoWord.data
  rw [List.map_append, ← h, ← htakes, List.append_assoc, List.append_assoc, hcons]
  rfl

theorem kept_calm (hcalm : s.rbrRdStrobe p c = false) (hroom : Room p s) (h : Kept p u s bytes) :
    Kept p u (s.next p c sin) bytes := by
  have hnext := kept_next c sin hroom h
  rwa [hcalm, Fifo.reads, Bool.false_and, if_neg Bool.false_ne_true, List.append_nil] at hnext

theorem get_strobe (hack : s.intface.ackO = false) (hempty : p.rx.empty s.rxFifo = false) :
    s.rbrRdStrobe p (read rbrAddr) = true := by
  simp [Core.rbrRdStrobe, UartDriver.read, hack, hempty]

theorem kept_get (hack : s.intface.ackO = false) (hempty : p.rx.empty s.rxFifo = false)
    (hroom : Room p s) (h : Kept p u s bytes) :
    Kept p u (s.next p (read rbrAddr) sin)
      (bytes ++ [p.rx.dout (s.next p (read rbrAddr) sin).rxFifo]) := by
  have hnext := kept_next (read rbrAddr) sin hroom h
  rwa [get_strobe hack hempty, Fifo.reads, hempty, Bool.not_false, Bool.true_and,
    if_pos rfl] at hnext

theorem cycle_noGet {s : Sys F G} (h : PcOk p s.core s.pc)
    (hget : ∀ todo, s.pc ≠ .get todo) {c : Cycle}
    (hc : s.pc.cycle = some c) : NoGet c ∧ ∀ v, s.pc.stored v = [] := by
  cases hpc : s.pc with
  | init todo =>
    rw [hpc] at hc h
    cases todo with
    | nil => cases hc
    | cons w todo =>
      obtain rfl := Option.some.inj hc
      exact ⟨(uartInit_proper (h w (List.mem_cons_self ..))).2.2, fun _ => rfl⟩
  | rest =>
    rw [hpc] at hc
    cases hc
  | put b =>
    rw [hpc] at hc
    obtain rfl := Option.some.inj hc
    exact ⟨fun _ hwe => absurd hwe.symm Bool.false_ne_true, fun _ => rfl⟩
  | get todo => exact absurd hpc (hget todo)
  | _ =>
    rw [hpc] at hc
    obtain rfl := Option.some.inj hc
    exact ⟨lsr_noGet, fun _ => rfl⟩

theorem kept_exec {s : Sys F G} {e : Ev} (hg : Good p v s) (hroom : Roomy p s e)
    (h : Kept p u s.core s.rxBuf) :
    Kept p u (exec p s e).core (exec p s e).rxBuf := by
  cases e with
  | gap c sin => exact kept_calm (noGet_strobe fun hstb => absurd hstb Bool.false_ne_true) hroom h
  | uartWrite c => exact h
  | uartIsr => exact h
  | access sin sin' =>
    rw [exec, Sys.access]
    simp only [Roomy] at hroom
    cases hcycle : s.pc.cycle with
    | none => exact h
    | some c =>
      rw [hcycle] at hroom
      obtain ⟨hfirst, hsecond⟩ := hroom
      have hack := hg.quiet.ackO
      have hstb := (cycle_proper hg.pc hcycle).2.1
      have hcalm : (s.core.next p c sin).rbrRdStrobe p c = false := by
        have hack' : (s.core.next p c sin).intface.ackO = true := first_ack hack hstb
        simp [Core.rbrRdStrobe, hack']
      apply kept_calm hcalm hsecond
      by_cases hget : ∃ todo, s.pc = .get todo
      · obtain ⟨todo, hget⟩ := hget
        have hok := hg.pc
        rw [hget] at hcycle hok ⊢
        obtain rfl := Option.some.inj hcycle
        exact kept_get hack hok.2 hfirst h
      · obtain ⟨hnoGet, hnone⟩ := cycle_noGet hg.pc (fun todo he => hget ⟨todo, he⟩) hcycle
        change Kept p u (s.core.next p c sin) (s.rxBuf ++ s.pc.stored _)
        rw [hnone, List.append_nil]
        exact kept_calm (noGet_strobe hnoGet) hfirst h

end kept

section received
variable {p : Parts F G} {v : View p.tx} {u : View p.rx}

theorem kept_start (p : Parts F G) (u : View p.rx) (lsr : BitVec 7) :
    Kept p u (Sys.start p lsr).core (Sys.start p lsr).rxBuf := by
  change [] ++ u.held p.rx.init = _
  rw [u.init]
  rfl

theorem run_kept (p : Parts F G) (v : View p.tx) (u : View p.rx) (lsr : BitVec 7) (es : List Ev)
    (hroom : Meets (exec p) (Roomy p) (Sys.start p lsr) es) :
    Kept p u (run (exec p) (Sys.start p lsr) es).core
      (run (exec p) (Sys.start p lsr) es).rxBuf := by
  refine (run_invariant (exec p) (Roomy p) (fun s => Good p v s ∧ Kept p u s.core s.rxBuf)
    ?_ _ es hroom ?_).2
  · exact fun s e hok h => ⟨good_exec u h.1 e, kept_exec h.1 hok h.2⟩
  · exact ⟨good_start p v lsr, kept_start p u lsr⟩

/-- What the receiver gave does not change with what it hears later. -/
theorem edge_got (d : ℕ) (r : Receiver) (es : List Edge) :
    r.got <+: (run (Receiver.edge d) r es).got := by
  induction es generalizing r with
  | nil => exact List.prefix_rfl
  | cons e es ih => exact (List.prefix_append ..).trans (ih (r.edge d e))

theorem heard_got {s : Core F G} {heard : List Bool} {t : ℕ} (hbase : Base p v s heard)
    (htol : Tolerates 868 t) (fs : List (ℕ × Byte)) (tail : ℕ)
    (hheard : heard <+: true :: wave t fs tail) :
    s.receiver.got.map UartRx.FifoWord.data <+: fs.map Prod.snd := by
  obtain ⟨es, hplain, hmap, hrun⟩ := hbase.receiver
  obtain ⟨rest, hrest⟩ := hheard
  let after := rest.map fun x => Edge.mk (Lcr.ofReg UartTx.lcrDefault) ⟨x, false, false, false⟩
  have hafter : after.map Edge.sin = rest := by
    rw [List.map_map]
    exact List.map_id _
  have hplain' : ∀ e ∈ es ++ after, e.lcr.Plain := by
    refine List.forall_mem_append.mpr ⟨hplain, fun e he => ?_⟩
    obtain ⟨x, -, rfl⟩ := List.mem_map.mp he
    exact UartTx.lcrDefault_plain
  have hall : (es ++ after).map Edge.sin = true :: wave t fs tail := by
    rw [List.map_append, hmap, hafter, hrest]
  obtain ⟨late, -, -, hgot⟩ := received (d := 868) htol fs tail hplain' hall
  rw [run_append, ← hrun] at hgot
  have hprefix := (edge_got 868 s.receiver after).trans ⟨late, hgot⟩
  have hclean : (fs.map fun f => clean f.2).map UartRx.FifoWord.data = fs.map Prod.snd :=
    List.map_map ..
  rw [← hclean]
  exact hprefix.map UartRx.FifoWord.data

theorem heard_all {s : Core F G} {heard : List Bool} {t : ℕ} (hbase : Base p v s heard)
    (htol : Tolerates 868 t) (fs : List (ℕ × Byte)) (tail : ℕ)
    (hheard : heard = true :: wave t fs tail) :
    ∃ late : List Byte, late.length ≤ 1 ∧ (4 ≤ tail → late = []) ∧
      s.receiver.got.map UartRx.FifoWord.data ++ late = fs.map Prod.snd := by
  obtain ⟨es, hplain, hmap, hrun⟩ := hbase.receiver
  obtain ⟨late, hlen, htail, hgot⟩ := received (d := 868) htol fs tail hplain (hmap.trans hheard)
  refine ⟨late.map UartRx.FifoWord.data,
    by rwa [List.length_map], fun h => by rw [htail h, List.map_nil], ?_⟩
  rw [← List.map_append, hrun, hgot]
  exact List.map_map ..

end received

/-! ### Bytes in from the line -/

section looks
variable {p : Parts F G} {v : View p.tx} {u : View p.rx} {s : Sys F G}
  {todo : List (BitVec 4 × Byte)}

/-- `uart_isr` goes on while RxRDY is set, which tells of the FIFO a clock before. -/
theorem isr_access (hpc : s.pc = .isr todo) {q : Core F G} {c : Cycle} {x : Bool}
    (hcore : s.core = q.next p c x) (sin sin' : Bool) :
    (exec p s (.access sin sin')).pc = if p.rx.empty q.rxFifo then .resume todo else .get todo := by
  have hready : s.core.receiver.rx.rbrDatardy = !p.rx.empty q.rxFifo := by rw [hcore]; rfl
  have hpc' : (exec p s (.access sin sin')).pc =
      Pc.next (busAccess p s.core (read lsrAddr) sin sin').2 (.isr todo) := by
    simp [exec, Sys.access, hpc, Pc.cycle]
  have hlooks : (busAccess p s.core (read lsrAddr) sin sin').2 &&& lm32UartLsrDr ≠ 0 ↔
      s.core.receiver.rx.rbrDatardy = true := (lsr_bits _ _ _ _ _ _ _).2
  rw [hpc', Pc.next]
  cases hempty : p.rx.empty q.rxFifo with
  | true =>
    rw [hempty, Bool.not_true] at hready
    rw [if_pos rfl, if_pos]
    by_contra hset
    exact absurd (hready.symm.trans (hlooks.mp hset)) Bool.false_ne_true
  | false =>
    rw [hempty, Bool.not_false] at hready
    rw [if_neg Bool.false_ne_true, if_neg (hlooks.mpr hready)]

theorem isr_looks (h : Good p v s) (hpc : s.pc = .isr todo) : ∃ q c x, s.core = Core.next p q c x ∧
    ∀ sin sin', (exec p s (.access sin sin')).pc = if p.rx.empty q.rxFifo then .resume todo
      else .get todo := by
  obtain hinit | ⟨q, c, x, hcore⟩ := h.clocked
  · rw [hpc] at hinit
    cases hinit
  · exact ⟨q, c, x, hcore, isr_access hpc hcore⟩

end looks

/-- What `uart_isr` has put into the ring and what is in the FIFO are the bytes of the frames heard
from reset on, as long as the receiver finds room in the FIFO. `uart_isr` takes a byte only when
there is one, and returns only when the FIFO showed none a clock before its last look at LSR. -/
theorem frames_read (p : Parts F G) (v : View p.tx) (u : View p.rx) (lsr : BitVec 7) (es : List Ev)
    (hroom : Meets (exec p) (Roomy p) (Sys.start p lsr) es) {t : ℕ} (htol : Tolerates 868 t)
    (fs : List (ℕ × Byte)) (tail : ℕ)
    (hheard : (run (exec p) (Sys.start p lsr) es).heard <+: true :: wave t fs tail) :
    let s := run (exec p) (Sys.start p lsr) es
    s.rxBuf ++ u.held s.core.rxFifo <+: fs.map Prod.snd ∧
    (s.heard = true :: wave t fs tail → ∃ late : List Byte, late.length ≤ 1 ∧
      (4 ≤ tail → late = []) ∧
      s.rxBuf ++ u.held s.core.rxFifo ++ late = fs.map Prod.snd) ∧
    (∀ todo, s.pc = .get todo → p.rx.empty s.core.rxFifo = false) ∧
    ∀ todo, s.pc = .isr todo → ∃ q c x, s.core = Core.next p q c x ∧
      ∀ sin sin', (exec p s (.access sin sin')).pc = if p.rx.empty q.rxFifo then .resume todo
        else .get todo := by
  intro s
  have hgood : Good p v s := run_good p v u lsr es
  have hkept : Kept p u s.core s.rxBuf := run_kept p v u lsr es hroom
  refine ⟨?_, fun hall => ?_, fun todo hpc => ?_, fun todo hpc => isr_looks hgood hpc⟩
  · rw [hkept]
    exact heard_got hgood.base htol fs tail hheard
  · rw [hkept]
    exact heard_all hgood.base htol fs tail hall
  · have hok := hgood.pc
    rw [hpc] at hok
    exact hok.2

/-! ### The handler on a quiet line -/

section drain

/-- All of `fs` is in, and the line has been high since. -/
structure Settled (fs : List (ℕ × Byte)) (s : Core (List Byte × Byte) (List Byte × Byte))
    (bytes : List Byte) (heard : List Bool) : Prop where
  base : Base plainParts (ofDepth.view 1022 0) s heard
  kept : Kept plainParts (ofDepth.view 1022 0) s bytes
  heard : ∃ tail, 4 ≤ tail ∧ heard = true :: wave 868 fs tail

variable {fs : List (ℕ × Byte)} {s q : Core (List Byte × Byte) (List Byte × Byte)}
  {bytes : List Byte} {heard : List Bool}

theorem tolerates_868 : Tolerates 868 868 := by decide

theorem settled_held (h : Settled fs s bytes heard) : bytes ++ s.rxFifo.1 = fs.map Prod.snd := by
  obtain ⟨tail, htail, hheard⟩ := h.heard
  obtain ⟨late, -, hlate, hall⟩ := heard_all h.base tolerates_868 fs tail hheard
  rw [hlate htail, List.append_nil] at hall
  exact h.kept.trans hall

theorem length_room (h : s.rxFifo.1.length ≤ 1022) : Room plainParts s := by
  have hfull : plainParts.rx.full s.rxFifo = decide (1022 < s.rxFifo.1.length) := rfl
  rw [Room, hfull, decide_eq_false_iff_not]
  exact .inr (by omega)

theorem settled_room (h : Settled fs s bytes heard) (hfew : fs.length < 1022) :
    Room plainParts s := by
  have hlen := congrArg List.length (settled_held h)
  rw [List.length_append, List.length_map] at hlen
  exact length_room (by omega)

theorem settled_heard (h : Settled fs s bytes heard) :
    ∃ tail, 4 ≤ tail ∧ heard ++ [true] = true :: wave 868 fs tail := by
  obtain ⟨tail, htail, hheard⟩ := h.heard
  refine ⟨tail + 1, by omega, ?_⟩
  rw [hheard, List.cons_append, wave_idle]

section steps
variable (h : Settled fs s bytes heard) (hfew : fs.length < 1022)
include h hfew

theorem settled_calm {c : Cycle} (hc : Proper c) (hcalm : s.rbrRdStrobe plainParts c = false) :
    Settled fs (s.next plainParts c true) bytes (heard ++ [true]) :=
  ⟨base_next hc h.base, kept_calm hcalm (settled_room h hfew) h.kept, settled_heard h⟩

theorem settled_take (hack : s.intface.ackO = false)
    (hempty : plainParts.rx.empty s.rxFifo = false) :
    Settled fs (s.next plainParts (read rbrAddr) true)
      (bytes ++ [plainParts.rx.dout (s.next plainParts (read rbrAddr) true).rxFifo])
      (heard ++ [true]) :=
  ⟨base_next (read_proper rbrAddr).1 h.base,
    kept_get hack hempty (settled_room h hfew) h.kept, settled_heard h⟩

theorem settled_look :
    Settled fs (busAccess plainParts s (read lsrAddr) true true).1 bytes
      (heard ++ [true] ++ [true]) :=
  settled_calm (settled_calm h hfew (read_proper lsrAddr).1 (noGet_strobe lsr_noGet)) hfew
    (read_proper lsrAddr).1 (noGet_strobe lsr_noGet)

end steps

theorem exec_isr {s : Sys (List Byte × Byte) (List Byte × Byte)} {todo : List (BitVec 4 × Byte)}
    (hpc : s.pc = .isr todo) :
    (exec plainParts s (.access true true)).core =
      (busAccess plainParts s.core (read lsrAddr) true true).1 ∧
    (exec plainParts s (.access true true)).rxBuf = s.rxBuf ∧
    (exec plainParts s (.access true true)).heard = s.heard ++ [true] ++ [true] := by
  simp [exec, Sys.access, hpc, Pc.cycle, Pc.stored]

theorem exec_get {s : Sys (List Byte × Byte) (List Byte × Byte)} {todo : List (BitVec 4 × Byte)}
    (hpc : s.pc = .get todo) :
    exec plainParts s (.access true true) =
      let mid := s.core.next plainParts (read rbrAddr) true
      ⟨mid.next plainParts (read rbrAddr) true, .isr todo,
        s.rxBuf ++ [plainParts.rx.dout mid.rxFifo],
        s.heard ++ [true] ++ [true]⟩ := by
  simp [exec, Sys.access, hpc, Pc.cycle, Pc.stored, Pc.next, busAccess, Core.datO, UartDriver.read]

/-- The handler takes one byte after the other and returns when all are in the ring. -/
theorem isr_drains (hfew : fs.length < 1022) (n : ℕ) {s : Sys (List Byte × Byte) (List Byte × Byte)}
    {todo : List (BitVec 4 × Byte)} (hgood : Good plainParts (ofDepth.view 1022 0) s)
    (h : Settled fs s.core s.rxBuf s.heard) (hpc : s.pc = .isr todo) {c : Cycle} {x : Bool}
    (hcore : s.core = q.next plainParts c x) (hshown : s.rxBuf ++ q.rxFifo.1 = fs.map Prod.snd)
    (hlen : q.rxFifo.1.length = n) :
    let s' := run (exec plainParts) s (List.replicate (2 * n + 1) (.access true true))
    s'.pc = .resume todo ∧ s'.rxBuf = fs.map Prod.snd := by
  induction n generalizing s q c x with
  | zero =>
    have hnil := List.length_eq_zero_iff.mp hlen
    have hlook := isr_access hpc hcore true true
    have hempty : plainParts.rx.empty q.rxFifo = true := by
      change q.rxFifo.1.isEmpty = true
      rw [hnil]
      rfl
    rw [hempty, if_pos rfl] at hlook
    rw [hnil, List.append_nil] at hshown
    exact ⟨hlook, (exec_isr hpc).2.1.trans hshown⟩
  | succ n ih =>
    obtain ⟨hlooked, hsame, hlonger⟩ := exec_isr hpc
    have hlook := isr_access hpc hcore true true
    have hempty : plainParts.rx.empty q.rxFifo = false := by
      change q.rxFifo.1.isEmpty = false
      rw [List.isEmpty_eq_false_iff]
      exact List.ne_nil_of_length_eq_add_one hlen
    rw [hempty, if_neg Bool.false_ne_true] at hlook
    have hgood1 := good_exec (ofDepth.view 1022 0) hgood (.access true true)
    have hsettled1 : Settled fs (exec plainParts s (.access true true)).core s.rxBuf
        (exec plainParts s (.access true true)).heard := by
      rw [hlooked, hlonger]
      exact settled_look h hfew
    rw [show 2 * (n + 1) + 1 = 2 * n + 1 + 1 + 1 by omega, List.replicate_succ,
      List.replicate_succ, run_cons, run_cons]
    generalize exec plainParts s (.access true true) = s1 at *
    -- the second access takes the oldest byte
    have hgood2 := good_exec (ofDepth.view 1022 0) hgood1 (.access true true)
    have hok := hgood1.pc
    rw [hlook] at hok
    have hmid := settled_take hsettled1 hfew hgood1.quiet.ackO hok.2
    have hack : (s1.core.next plainParts (read rbrAddr) true).intface.ackO = true :=
      first_ack hgood1.quiet.ackO rfl
    have hcalm :
        (s1.core.next plainParts (read rbrAddr) true).rbrRdStrobe plainParts (read rbrAddr) =
          false := by
      simp [Core.rbrRdStrobe, hack]
    have hsettled2 := settled_calm hmid hfew (read_proper rbrAddr).1 hcalm
    have hheld := settled_held hmid
    have hone := congrArg List.length (hheld.trans hshown.symm)
    simp only [List.length_append, List.length_singleton] at hone
    rw [exec_get hlook, hsame] at hgood2 ⊢
    exact ih hgood2 hsettled2 rfl rfl hheld (by omega)

theorem next_length (s : Core (List Byte × Byte) (List Byte × Byte)) (c : Cycle) (sin : Bool) :
    (s.next plainParts c sin).rxFifo.1.length ≤ s.rxFifo.1.length + 1 := by
  have hfifo : (s.next plainParts c sin).rxFifo.1 =
      (if s.rbrRdStrobe plainParts c then s.rxFifo.1.tail else s.rxFifo.1) ++
        if 1022 < s.rxFifo.1.length then []
          else (s.receiver.rx.offers.map UartRx.FifoWord.data).toList := rfl
  have hin : (if 1022 < s.rxFifo.1.length then []
      else (s.receiver.rx.offers.map UartRx.FifoWord.data).toList).length ≤ 1 := by
    split
    · exact Nat.zero_le 1
    · exact Option.length_toList_le
  have hout : (if s.rbrRdStrobe plainParts c then s.rxFifo.1.tail else s.rxFifo.1).length ≤
      s.rxFifo.1.length := by
    split
    · rw [List.length_tail]
      exact Nat.sub_le ..
    · exact Nat.le_refl _
  rw [hfifo, List.length_append]
  exact Nat.add_le_add hout hin

theorem exec_heard (s : Sys F G) (p : Parts F G) (e : Ev) : s.heard <+: (exec p s e).heard := by
  cases e with
  | access sin sin' =>
    rw [exec, Sys.access]
    cases s.pc.cycle with
    | none => exact List.prefix_rfl
    | some c => exact List.prefix_append ..
  | gap c sin => exact List.prefix_append ..
  | _ => exact List.prefix_rfl

theorem run_heard (p : Parts F G) (s : Sys F G) (es : List Ev) :
    s.heard <+: (run (exec p) s es).heard := by
  induction es generalizing s with
  | nil => exact List.prefix_rfl
  | cons e es ih => exact (exec_heard s p e).trans (ih _)

theorem few_room {s : Sys (List Byte × Byte) (List Byte × Byte)}
    (hfew : s.core.rxFifo.1.length < 1022) (e : Ev) :
    Roomy plainParts s e := by
  cases e with
  | gap c sin => exact length_room (by omega)
  | access sin sin' =>
    simp only [Roomy]
    cases s.pc.cycle with
    | none => trivial
    | some c =>
      have hnext := next_length s.core c sin
      exact ⟨length_room (by omega), length_room (by omega)⟩
  | _ => trivial

/-- Fewer frames than the FIFO has places always find room. -/
theorem few_roomy {t : ℕ} (htol : Tolerates 868 t) (hfew : fs.length < 1022)
    (tail : ℕ) (es : List Ev) {s : Sys (List Byte × Byte) (List Byte × Byte)}
    (hgood : Good plainParts (ofDepth.view 1022 0) s)
    (hkept : Kept plainParts (ofDepth.view 1022 0) s.core s.rxBuf)
    (hheard : (run (exec plainParts) s es).heard <+: true :: wave t fs tail) :
    Meets (exec plainParts) (Roomy plainParts) s es := by
  induction es generalizing s with
  | nil => trivial
  | cons e es ih =>
    have hgot :=
      (heard_got hgood.base htol fs tail
        ((run_heard plainParts s (e :: es)).trans hheard)).length_le
    rw [← hkept, List.length_append, List.length_map] at hgot
    have hheld : s.core.rxFifo.1.length ≤ fs.length := le_trans (Nat.le_add_left _ _) hgot
    have hroom := few_room (lt_of_le_of_lt hheld hfew) e
    exact ⟨hroom, ih (good_exec (ofDepth.view 1022 0) hgood e) (kept_exec hgood hroom hkept) hheard⟩

/-- The handler comes when all of `fs` is in the FIFO. -/
theorem isr_called (hfew : fs.length < 1022) {s : Sys (List Byte × Byte) (List Byte × Byte)}
    (hgood : Good plainParts (ofDepth.view 1022 0) s) (h : Settled fs s.core s.rxBuf s.heard)
    (hpc : s.pc = .rest)
    (hbuf : s.rxBuf = []) {c : Cycle} {x : Bool} (hcore : s.core = q.next plainParts c x)
    (hheld : q.rxFifo.1 = fs.map Prod.snd) :
    let s' :=
      run (exec plainParts) (exec plainParts s .uartIsr)
        (List.replicate (2 * fs.length + 1) (.access true true))
    s'.pc = .rest ∧ s'.rxBuf = fs.map Prod.snd := by
  have hisr : (exec plainParts s .uartIsr).pc = .isr [] := by
    change s.pc.interrupt = _
    rw [hpc]
    rfl
  have hshown : s.rxBuf ++ q.rxFifo.1 = fs.map Prod.snd := by rw [hbuf, List.nil_append, hheld]
  have hlen : q.rxFifo.1.length = fs.length := by rw [hheld, List.length_map]
  exact isr_drains hfew fs.length (good_exec (ofDepth.view 1022 0) hgood .uartIsr) h
    hisr hcore hshown hlen

end drain

/-! ### Two frames -/

def lineGaps (xs : List Bool) : List Ev := xs.map (.gap (read rbrAddr))

theorem gaps_run (p : Parts F G) (s : Sys F G) (xs : List Bool) :
    (run (exec p) s (lineGaps xs)).pc = s.pc ∧
    (run (exec p) s (lineGaps xs)).rxBuf = s.rxBuf ∧
    (run (exec p) s (lineGaps xs)).heard = s.heard ++ xs := by
  induction xs generalizing s with
  | nil => exact ⟨rfl, rfl, (List.append_nil _).symm⟩
  | cons x xs ih =>
    obtain ⟨hpc, hbuf, hheard⟩ := ih (exec p s (.gap (read rbrAddr) x))
    exact ⟨hpc, hbuf, hheard.trans (List.append_assoc ..)⟩

theorem highs_heard (p : Parts F G) (s : Sys F G) (n : ℕ) : ∃ k ≤ 2 * n,
    (run (exec p) s (List.replicate n (.access true true))).heard =
      s.heard ++ List.replicate k true := by
  induction n generalizing s with
  | zero => exact ⟨0, Nat.le_refl 0, (List.append_nil _).symm⟩
  | succ n ih =>
    obtain ⟨k, hk, hheard⟩ := ih (exec p s (.access true true))
    have hone : (exec p s (.access true true)).heard = s.heard ∨
        (exec p s (.access true true)).heard = s.heard ++ List.replicate 2 true := by
      rw [exec, Sys.access]
      cases s.pc.cycle with
      | none => exact .inl rfl
      | some c => exact .inr rfl
    rw [List.replicate_succ, run_cons, hheard]
    obtain hone | hone := hone
    · exact ⟨k, by omega, by rw [hone]⟩
    · exact ⟨2 + k, by omega, by rw [hone, List.append_assoc, List.replicate_append_replicate]⟩

def started : Sys (List Byte × Byte) (List Byte × Byte) :=
  run (exec plainParts) (Sys.start plainParts 0) (List.replicate 5 (.access true true))

theorem started_rest :
    started.pc = .rest ∧ started.rxBuf = [] ∧ started.heard = List.replicate 10 true := by
  decide +kernel

/-- Two bytes that come in after `uart_init`. -/
def twoFrames : List (ℕ × Byte) := [(9, 0x41), (0, 0x42)]

theorem twoFrames_few : twoFrames.length < 1022 := by decide

/-- The line after `uart_init`. -/
def twoLine (tail : ℕ) : List Bool := frame 868 0x41 ++ frame 868 0x42 ++ List.replicate tail true

/-- The frames come in, then the handler looks. -/
def twoReads : List Ev :=
  List.replicate 5 (.access true true) ++ lineGaps (twoLine 5) ++
    (.uartIsr :: List.replicate 5 (.access true true))

theorem twoLine_wave (tail : ℕ) :
    List.replicate 10 true ++ twoLine tail = true :: wave 868 twoFrames tail := by
  rw [wave, twoFrames, twoLine, List.flatMap_cons, List.flatMap_singleton, List.replicate_succ,
    List.replicate_zero, List.nil_append, List.cons_append,
      List.append_assoc (List.replicate 9 true), List.append_assoc (List.replicate 9 true)]

def arrived (tail : ℕ) : Sys (List Byte × Byte) (List Byte × Byte) :=
  run (exec plainParts) started (lineGaps (twoLine tail))

theorem arrived_succ (tail : ℕ) :
    arrived (tail + 1) = exec plainParts (arrived tail) (.gap (read rbrAddr) true) := by
  rw [arrived, twoLine, List.replicate_succ', ← List.append_assoc, ← twoLine, lineGaps,
    List.map_append, run_append]
  rfl

theorem arrived_sees (tail : ℕ) : (arrived tail).pc = .rest ∧ (arrived tail).rxBuf = [] ∧
    (arrived tail).heard = true :: wave 868 twoFrames tail := by
  obtain ⟨hpc, hbuf, hheard⟩ := gaps_run plainParts started (twoLine tail)
  obtain ⟨hrest, hnil, hten⟩ := started_rest
  exact ⟨hpc.trans hrest, hbuf.trans hnil, by rw [arrived, hheard, hten, twoLine_wave]⟩

theorem arrived_run (tail : ℕ) : run (exec plainParts) (Sys.start plainParts 0)
    (List.replicate 5 (.access true true) ++ lineGaps (twoLine tail)) = arrived tail :=
  run_append ..

theorem arrived_settled {tail : ℕ} (htail : 4 ≤ tail) :
    Good plainParts (ofDepth.view 1022 0) (arrived tail) ∧
      Settled twoFrames (arrived tail).core [] (arrived tail).heard := by
  obtain ⟨-, hbuf, hheard⟩ := arrived_sees tail
  have hgood := run_good plainParts (ofDepth.view 1022 0) (ofDepth.view 1022 0) 0
    (List.replicate 5 (.access true true) ++ lineGaps (twoLine tail))
  have hroom := few_roomy tolerates_868 twoFrames_few tail
    (List.replicate 5 (.access true true) ++ lineGaps (twoLine tail))
    (good_start plainParts (ofDepth.view 1022 0) 0)
    (kept_start plainParts (ofDepth.view 1022 0) 0)
    ⟨[], by rw [arrived_run, hheard, List.append_nil]⟩
  have hkept := run_kept plainParts (ofDepth.view 1022 0) (ofDepth.view 1022 0) 0 _ hroom
  rw [arrived_run] at hgood hkept
  rw [hbuf] at hkept
  exact ⟨hgood, hgood.base, hkept, tail, htail, hheard⟩

theorem twoReads_run : run (exec plainParts) (Sys.start plainParts 0) twoReads =
    run (exec plainParts) (exec plainParts (arrived 5) .uartIsr)
      (List.replicate 5 (.access true true)) := by
  rw [twoReads, run_append, arrived_run, run_cons]

theorem arrived_drained {tail : ℕ} (htail : 4 ≤ tail) :
    let s := run (exec plainParts) (exec plainParts (arrived (tail + 1)) .uartIsr)
      (List.replicate (2 * twoFrames.length + 1) (.access true true))
    s.pc = .rest ∧ s.rxBuf = twoFrames.map Prod.snd := by
  obtain ⟨hpc, hbuf, -⟩ := arrived_sees (tail + 1)
  obtain ⟨hgood, hsettled⟩ := arrived_settled (Nat.le_succ_of_le htail : 4 ≤ tail + 1)
  have hbefore := settled_held (arrived_settled htail).2
  rw [List.nil_append] at hbefore
  rw [← hbuf] at hsettled
  exact isr_called twoFrames_few hgood hsettled hpc hbuf
    (congrArg Sys.core (arrived_succ tail)) hbefore

theorem isr_heard (p : Parts F G) (s : Sys F G) : (exec p s .uartIsr).heard = s.heard := rfl

theorem twoReads_heard : ∃ tail,
    (run (exec plainParts) (Sys.start plainParts 0) twoReads).heard <+:
      true :: wave 868 twoFrames tail := by
  obtain ⟨-, -, hheard⟩ := arrived_sees 5
  obtain ⟨k, -, hhighs⟩ := highs_heard plainParts (exec plainParts (arrived 5) .uartIsr) 5
  refine ⟨5 + k, [], ?_⟩
  rw [List.append_nil, twoReads_run, hhighs, isr_heard, hheard, wave, wave, List.cons_append,
    List.append_assoc, List.replicate_append_replicate]

/-- Both bytes go through the handler into the ring. -/
theorem frames_read_two :
    let s := run (exec plainParts) (Sys.start plainParts 0) twoReads
    s.pc = .rest ∧ s.rxBuf = [0x41, 0x42] ∧
      s.rxBuf ++ (ofDepth.view 1022 0).held s.core.rxFifo <+: twoFrames.map Prod.snd := by
  obtain ⟨tail, hheard⟩ := twoReads_heard
  have hroom := few_roomy tolerates_868 twoFrames_few tail twoReads
    (good_start plainParts (ofDepth.view 1022 0) 0)
    (kept_start plainParts (ofDepth.view 1022 0) 0) hheard
  have hread := frames_read plainParts (ofDepth.view 1022 0) (ofDepth.view 1022 0) 0 twoReads
    hroom tolerates_868 twoFrames tail hheard
  have hdrained := arrived_drained (Nat.le_refl 4)
  rw [show 2 * twoFrames.length + 1 = 5 from rfl, ← twoReads_run] at hdrained
  exact ⟨hdrained.1, hdrained.2, hread.1⟩

end HashRatio.UartReads
