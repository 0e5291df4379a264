import HashRatio.Lib.Ring
import HashRatio.Lib.Run
import HashRatio.Uart

/-!
# The receive ring under interrupts

The handler may come between any two accesses of `uart_read`, with any number of
bytes, and never looks at `rx_consume`. Whatever it overwrites, the bytes read are
a subsequence of the bytes received; without an overrun they are all of them.
-/

namespace HashRatio.Interrupts
open Bytes Uart

/-! ### uart_read, one access after the other -/

/-- Where `uart_read` is: not called, in its loop, past it, with the byte in `c`. -/
inductive Reader where
  | idle
  | polling
  | ready
  | loaded (c : Byte)
  deriving DecidableEq, Repr

def Reader.held : Reader → List Byte
  | .loaded c => [c]
  | _ => []

/-- The ring with its reader. Ghost: `received`, what the handler took from the UART, and
`returned`, what `uart_read` gave back. -/
structure Rx where
  ring : Ring
  reader : Reader
  received : List Byte
  returned : List Byte

def Rx.init : Rx := ⟨Ring.init, .idle, [], []⟩

/-- `step` is the next access of the `uart_read` under way. -/
inductive Event where
  | isr (burst : List Byte)
  | call
  | step
  deriving DecidableEq, Repr

def readStep (s : Rx) : Rx :=
  match s.reader with
  | .idle => s
  | .polling => if s.ring.rxConsume = s.ring.rxProduce then s else {s with reader := .ready}
  | .ready => {s with reader := .loaded (s.ring.rxBuf s.ring.rxConsume)}
  | .loaded c =>
    { s with
      ring := {s.ring with rxConsume := rxNext s.ring.rxConsume}
      reader := .idle
      returned := s.returned ++ [c] }

def step (s : Rx) : Event → Rx
  | .isr burst => {s with ring := burst.foldl Ring.uartIsr s.ring, received := s.received ++ burst}
  | .call => if s.reader = .idle then {s with reader := .polling} else s
  | .step => readStep s

def after (es : List Event) : Rx := Run.run step Rx.init es

/-! ### What has been read -/

def Rx.read (s : Rx) : List Byte := s.returned ++ s.reader.held

def Rx.backlog (s : Rx) : ℕ := s.received.length - s.read.length

/-- The unread bytes where the reader will look for them. -/
def Rx.unread (s : Rx) : List Byte :=
  (List.range s.backlog).map fun i =>
    s.ring.rxBuf ((s.ring.rxConsume + s.reader.held.length + i) % uartRingbufferSizeRx)

/-- The first `n` received bytes are behind the reader; `n` may be ahead of what it has read. -/
structure Rx.Behind (s : Rx) (n : ℕ) : Prop where
  history : Ring.History 1024 s.ring.rxBuf s.ring.rxProduce s.received
  le : n ≤ s.received.length
  sublist : s.read.Sublist (s.received.take n)
  consume_lt : s.ring.rxConsume < 1024
  next : (s.ring.rxConsume + s.reader.held.length) % 1024 = n % 1024
  ready : s.reader = .ready → n < s.received.length

theorem init_behind : Rx.init.Behind 0 where
  history := Ring.history_nil (by decide) _
  le := Nat.le_refl 0
  sublist := List.Sublist.refl _
  consume_lt := by decide
  next := rfl
  ready := fun h => by cases h

theorem isr_history {r : Ring} {hist : List Byte} (h : Ring.History 1024 r.rxBuf r.rxProduce hist)
    (burst : List Byte) :
    Ring.History 1024 (burst.foldl Ring.uartIsr r).rxBuf
      (burst.foldl Ring.uartIsr r).rxProduce (hist ++ burst) ∧
      (burst.foldl Ring.uartIsr r).rxConsume = r.rxConsume := by
  induction burst generalizing r hist with
  | nil => exact ⟨by rw [List.append_nil]; exact h, rfl⟩
  | cons c burst ih =>
    have hput : Ring.History 1024 (r.uartIsr c).rxBuf (r.uartIsr c).rxProduce (hist ++ [c]) := by
      rw [Ring.uartIsr, rxNext_eq]
      exact h.put c
    obtain ⟨hrest, hconsume⟩ := ih hput
    rw [List.append_assoc] at hrest
    exact ⟨hrest, hconsume⟩

theorem Rx.Behind.isr {s : Rx} {n : ℕ} (h : s.Behind n) (burst : List Byte) :
    (step s (.isr burst)).Behind n := by
  obtain ⟨hhistory, hconsume⟩ := isr_history h.history burst
  have htake : (s.received ++ burst).take n = s.received.take n :=
    List.take_append_of_le_length h.le
  have hle := h.le
  constructor
  · exact hhistory
  · simp only [step, List.length_append]
    omega
  · simp only [step, htake]
    exact h.sublist
  · simp only [step, hconsume]
    exact h.consume_lt
  · simp only [step, hconsume]
    exact h.next
  · intro hready
    have hlt := h.ready hready
    simp only [step, List.length_append]
    omega

theorem Rx.Behind.call {s : Rx} {n : ℕ} (h : s.Behind n) : (step s .call).Behind n := by
  simp only [step]
  split
  · rename_i hidle
    obtain ⟨hhistory, hle, hsublist, hlt, hnext, _⟩ := h
    rw [Rx.read, hidle] at hsublist
    rw [hidle] at hnext
    exact ⟨hhistory, hle, hsublist, hlt, hnext, fun hready => by cases hready⟩
  · exact h

/-- The loop ends when the indices differ, so a received byte has not been passed. -/
theorem Rx.Behind.poll {s : Rx} {n : ℕ} (h : s.Behind n) (hr : s.reader = .polling)
    (hne : s.ring.rxConsume ≠ s.ring.rxProduce) : ({s with reader := .ready} : Rx).Behind n := by
  obtain ⟨hhistory, hle, hsublist, hlt, hnext, _⟩ := h
  rw [Rx.read, hr] at hsublist
  rw [hr] at hnext
  refine ⟨hhistory, hle, hsublist, hlt, hnext, fun _ => ?_⟩
  have hproduce := hhistory.produce_eq
  simp only [Reader.held, List.length_nil, Nat.add_zero] at hnext
  rcases Nat.lt_or_eq_of_le hle with hlt' | heq
  · exact hlt'
  · rw [Nat.mod_eq_of_lt hlt, heq] at hnext
    exact absurd (hnext.trans hproduce.symm) hne

/-- The byte loaded is the latest in its place: not before `n`, and the `n`-th without an
overrun. -/
theorem Rx.Behind.load {s : Rx} {n : ℕ} (h : s.Behind n) (hr : s.reader = .ready) :
    ∃ k, n ≤ k ∧ s.received.length ≤ k + 1024 ∧ k % 1024 = n % 1024 ∧
      ∃ hk : k < s.received.length, (readStep s).read = s.returned ++ [s.received[k]] ∧
        (readStep s).Behind (k + 1) := by
  have hn := h.ready hr
  obtain ⟨k, hle, hmod, hlast, hk, hbuf⟩ := h.history.latest hn
  have hnext := h.next
  have hsublist := h.sublist
  rw [hr] at hnext
  simp only [Rx.read, hr, Reader.held, List.append_nil] at hsublist
  have hplace : s.ring.rxConsume = n % 1024 := by
    rw [← hnext]
    exact (Nat.mod_eq_of_lt h.consume_lt).symm
  have hstep : readStep s = {s with reader := .loaded s.received[k]} := by
    rw [readStep, hr, hplace, hbuf]
  refine ⟨k, hle, hlast, hmod, hk, by rw [hstep]; rfl, ?_⟩
  rw [hstep]
  refine ⟨h.history, hk, ?_, h.consume_lt, ?_, fun hready => by cases hready⟩
  · have hprefix : (s.received.take n).Sublist (s.received.take k) :=
      (List.take_prefix_take_left hle).sublist
    rw [List.take_succ_eq_append_getElem hk]
    exact (hsublist.trans hprefix).append (List.Sublist.refl _)
  · simp only [Reader.held, List.length_singleton]
    omega

theorem Rx.Behind.advance {s : Rx} {n : ℕ} {c : Byte} (h : s.Behind n) (hr : s.reader = .loaded c) :
    (readStep s).read = s.read ∧ (readStep s).Behind n := by
  have hstep : readStep s =
      { s with
        ring := {s.ring with rxConsume := rxNext s.ring.rxConsume}
        reader := .idle
        returned := s.returned ++ [c] } := by
    rw [readStep, hr]
  have hread : (readStep s).read = s.read := by
    rw [hstep, Rx.read, Rx.read, hr]
    exact List.append_nil _
  have hnext := h.next
  have hlt := h.consume_lt
  rw [hr] at hnext
  simp only [Reader.held, List.length_singleton] at hnext
  refine ⟨hread, ?_⟩
  have hsublist := h.sublist
  rw [← hread] at hsublist
  rw [hstep] at hsublist ⊢
  refine ⟨h.history, h.le, hsublist, ?_, ?_, fun hready => by cases hready⟩
  · simp only [rxNext_eq]
    omega
  · simp only [Reader.held, List.length_nil, rxNext_eq]
    omega

theorem Rx.Behind.readStep {s : Rx} {n : ℕ} (h : s.Behind n) :
    ∃ k, (Interrupts.readStep s).Behind k := by
  cases hr : s.reader with
  | idle =>
    rw [Interrupts.readStep, hr]
    exact ⟨n, h⟩
  | polling =>
    rw [Interrupts.readStep, hr]
    by_cases hempty : s.ring.rxConsume = s.ring.rxProduce
    · exact ⟨n, by rw [if_pos hempty]; exact h⟩
    · exact ⟨n, by rw [if_neg hempty]; exact h.poll hr hempty⟩
  | ready =>
    obtain ⟨k, _, _, _, _, _, hbehind⟩ := h.load hr
    exact ⟨k + 1, hbehind⟩
  | loaded c => exact ⟨n, (h.advance hr).2⟩

theorem step_behind (s : Rx) (e : Event) (h : ∃ n, s.Behind n) : ∃ n, (step s e).Behind n := by
  obtain ⟨n, hn⟩ := h
  cases e with
  | isr burst => exact ⟨n, hn.isr burst⟩
  | call => exact ⟨n, hn.call⟩
  | step => exact hn.readStep

theorem after_behind (es : List Event) : ∃ n, (after es).Behind n :=
  Run.run_invariant_all step (fun s => ∃ n, s.Behind n) step_behind Rx.init es ⟨0, init_behind⟩

/-! ### Without an overrun -/

/-- The reader is where it has read to, and has room behind it. -/
def Rx.Kept (s : Rx) : Prop := s.Behind s.read.length ∧ s.backlog < 1024

theorem Rx.Kept.read_eq {s : Rx} (h : s.Kept) : s.received.take s.read.length = s.read := by
  have hlength : (s.received.take s.read.length).length = s.read.length :=
    List.length_take_of_le h.1.le
  exact (h.1.sublist.eq_of_length hlength.symm).symm

theorem step_kept (s : Rx) (e : Event) (hroom : (step s e).backlog < 1024) (h : s.Kept) :
    (step s e).Kept := by
  refine ⟨?_, hroom⟩
  have hbehind := h.1
  cases e with
  | isr burst => exact hbehind.isr burst
  | call =>
    have hread : (step s .call).read = s.read := by
      simp only [step]
      split
      · rename_i hidle
        simp only [Rx.read, hidle, Reader.held]
      · rfl
    rw [hread]
    exact hbehind.call
  | step =>
    rw [step]
    cases hr : s.reader with
    | idle =>
      rw [readStep, hr]
      exact hbehind
    | polling =>
      rw [readStep, hr]
      by_cases hempty : s.ring.rxConsume = s.ring.rxProduce
      · rw [if_pos hempty]
        exact hbehind
      · rw [if_neg hempty]
        have hread : ({s with reader := .ready} : Rx).read = s.read := by
          simp only [Rx.read, hr, Reader.held]
        rw [hread]
        exact hbehind.poll hr hempty
    | ready =>
      obtain ⟨k, hle, hlast, hmod, hk, hread, hnext⟩ := hbehind.load hr
      have hreturned : s.read = s.returned := by
        simp only [Rx.read, hr, Reader.held, List.append_nil]
      have hbacklog := h.2
      rw [Rx.backlog, hreturned] at hbacklog
      rw [hreturned] at hle hmod
      have hsame : k = s.returned.length := by omega
      rw [hread, List.length_append, List.length_singleton, ← hsame]
      exact hnext
    | loaded c =>
      obtain ⟨hread, hnext⟩ := hbehind.advance hr
      rw [hread]
      exact hnext

theorem Rx.Kept.unread_eq {s : Rx} (h : s.Kept) : s.unread = s.received.drop s.read.length := by
  have hle := h.1.le
  have hroom := h.2
  rw [Rx.backlog] at hroom
  apply List.ext_getElem
  · rw [Rx.unread, List.length_map, List.length_range, List.length_drop, Rx.backlog]
  · intro i h1 h2
    rw [List.length_drop] at h2
    have hnext := h.1.next
    have hplace : (s.ring.rxConsume + s.reader.held.length + i) % 1024 =
        (s.read.length + i) % 1024 := by omega
    simp only [Rx.unread, List.getElem_map, List.getElem_range, List.getElem_drop,
      uartRingbufferSizeRx, hplace]
    exact h.1.history.get (s.read.length + i) (by omega) (by omega)

theorem Rx.Kept.nonblock_iff {s : Rx} (h : s.Kept) (hheld : s.reader.held = []) :
    s.ring.uartReadNonblock = true ↔ s.unread ≠ [] := by
  have hproduce := h.1.history.produce_eq
  have hnext := h.1.next
  have hlt := h.1.consume_lt
  have hle := h.1.le
  have hroom := h.2
  rw [Rx.backlog] at hroom
  rw [hheld, List.length_nil, Nat.add_zero, Nat.mod_eq_of_lt hlt] at hnext
  have hempty : s.unread = [] ↔ s.received.length ≤ s.read.length := by
    rw [h.unread_eq]
    exact List.drop_eq_nil_iff
  rw [Ring.uartReadNonblock, decide_eq_true_eq, ne_eq, ne_eq, hempty]
  omega

/-- Without an interrupt in between the accesses make up `uart_read`. -/
theorem read_uninterrupted (s : Rx) (h : s.reader = .idle) :
    Run.run step s [.call, .step, .step, .step] =
      match s.ring.uartRead with
      | none => {s with reader := .polling}
      | some (ring, c) => {s with ring := ring, returned := s.returned ++ [c]} := by
  obtain ⟨ring, reader, received, returned⟩ := s
  simp only at h
  subst h
  by_cases he : ring.rxConsume = ring.rxProduce
  · simp only [Run.run_cons, Run.run_nil, step, readStep, Ring.uartRead, he, if_true]
  · simp only [Run.run_cons, Run.run_nil, step, readStep, Ring.uartRead, he, if_true, if_false]

/-- **In every run, with interrupts anywhere, the bytes read are a subsequence of the bytes
received; while fewer than 1024 bytes wait, the bytes read and the bytes waiting are all bytes
received, and `uart_read_nonblock` tells whether one waits; and a call that is not interrupted is
`uart_read`.** -/
theorem receive_ring (es : List Event) :
    (after es).returned.Sublist (after es).received ∧
      (Run.Meets step (fun s e => (step s e).backlog < 1024) Rx.init es →
        (after es).read ++ (after es).unread = (after es).received ∧
          ((after es).reader = .idle →
            ((after es).ring.uartReadNonblock = true ↔ (after es).unread ≠ []))) ∧
      ((after es).reader = .idle → after (es ++ [.call, .step, .step, .step]) =
        match (after es).ring.uartRead with
        | none => {after es with reader := .polling}
        | some (ring, c) =>
          {after es with ring := ring, returned := (after es).returned ++ [c]}) := by
  refine ⟨?_, fun hroom => ?_, fun hidle => ?_⟩
  · obtain ⟨n, hn⟩ := after_behind es
    have hread : (after es).read.Sublist (after es).received :=
      hn.sublist.trans (List.take_sublist n _)
    exact (List.sublist_append_left _ _).trans hread
  · have hkept : (after es).Kept :=
      Run.run_invariant step (fun s e => (step s e).backlog < 1024) Rx.Kept
        step_kept Rx.init es hroom ⟨init_behind, by decide⟩
    constructor
    · have hsplit := List.take_append_drop (after es).read.length (after es).received
      rw [hkept.read_eq, ← hkept.unread_eq] at hsplit
      exact hsplit
    · intro hidle
      exact hkept.nonblock_iff (by rw [hidle]; rfl)
  · rw [after, Run.run_append]
    exact read_uninterrupted (after es) hidle

/-- Two calls, with bytes coming in before, inside and between them. -/
def bursts : List Event :=
  [.isr [0x41, 0x42], .call, .step, .isr [0x43], .step, .step, .call, .step, .step,
    .isr [0x44, 0x45], .step]

theorem receive_ring_bursts :
    (after bursts).returned = [0x41, 0x42] ∧
      (after bursts).read ++ (after bursts).unread = [0x41, 0x42, 0x43, 0x44, 0x45] ∧
      (after bursts).ring.uartReadNonblock = true := by
  obtain ⟨-, hkept, -⟩ := receive_ring bursts
  obtain ⟨hall, hnonblock⟩ := hkept (by decide)
  exact ⟨by decide, hall.trans (by decide), (hnonblock (by decide)).mpr (by decide)⟩

end HashRatio.Interrupts
