import HashRatio.Lib.Bytes
import Mathlib.Data.List.Basic

/-!
# The receive ring (uart.c)

The interrupt handler puts bytes into a ring of 1024 and the main program takes
them out. As long as the handler finds room, the ring is a queue; when 1023
bytes are unread, the next one makes the ring look empty.
-/

namespace HashRatio.Uart
open Bytes

def uartRingbufferSizeRx : ℕ := 1024

structure Ring where
  rxBuf : ℕ → Byte
  rxProduce : ℕ
  rxConsume : ℕ

def Ring.init : Ring := ⟨fun _ => 0, 0, 0⟩

def rxNext (k : ℕ) : ℕ := (k + 1) &&& (uartRingbufferSizeRx - 1)

def Ring.uartIsr (r : Ring) (c : Byte) : Ring :=
  { r with
    rxBuf := fun k => if k = r.rxProduce then c else r.rxBuf k
    rxProduce := rxNext r.rxProduce }

/-- `uart_read`; `none` while it waits. -/
def Ring.uartRead (r : Ring) : Option (Ring × Byte) :=
  if r.rxConsume = r.rxProduce then none
  else some ({r with rxConsume := rxNext r.rxConsume}, r.rxBuf r.rxConsume)

def Ring.uartReadNonblock (r : Ring) : Bool := r.rxConsume ≠ r.rxProduce

/-! ### The ring as a queue -/

structure Ring.Valid (r : Ring) : Prop where
  produce_lt : r.rxProduce < 1024
  consume_lt : r.rxConsume < 1024

def Ring.unread (r : Ring) : ℕ := (r.rxProduce + 1024 - r.rxConsume) % 1024

/-- The unread bytes, oldest first. -/
def Ring.queue (r : Ring) : List Byte :=
  (List.range r.unread).map fun i => r.rxBuf ((r.rxConsume + i) % 1024)

theorem rxNext_eq (k : ℕ) : rxNext k = (k + 1) % 1024 := Nat.and_two_pow_sub_one_eq_mod (k + 1) 10

theorem init_valid : Ring.init.Valid := ⟨by decide, by decide⟩

theorem init_queue : Ring.init.queue = [] := by decide

theorem isr_valid (r : Ring) (h : r.Valid) (c : Byte) : (r.uartIsr c).Valid := by
  refine ⟨?_, h.consume_lt⟩
  have hnext := rxNext_eq r.rxProduce
  simp only [Ring.uartIsr]
  omega

theorem isr_queue (r : Ring) (h : r.Valid) (hroom : r.unread < 1023) (c : Byte) :
    (r.uartIsr c).queue = r.queue ++ [c] := by
  have h1 := h.produce_lt
  have h2 := h.consume_lt
  have hunread : (r.uartIsr c).unread = r.unread + 1 := by
    simp only [Ring.unread, Ring.uartIsr, rxNext_eq] at hroom ⊢
    omega
  have hlast : (r.rxConsume + r.unread) % 1024 = r.rxProduce := by
    unfold Ring.unread
    omega
  rw [Ring.queue, hunread, List.range_succ, List.map_append, List.map_singleton, Ring.queue]
  simp only [Ring.uartIsr, hlast, if_true]
  congr 1
  apply List.map_congr_left
  intro i hi
  have hlt := List.mem_range.mp hi
  unfold Ring.unread at hlt hroom
  rw [if_neg (by omega)]

theorem read_queue (r : Ring) (h : r.Valid) :
    r.queue = [] ∧ r.uartReadNonblock = false ∧ r.uartRead = none ∨
      ∃ c r', r.uartReadNonblock = true ∧ r.uartRead = some (r', c) ∧
        r.queue = c :: r'.queue ∧ r'.Valid := by
  have h1 := h.produce_lt
  have h2 := h.consume_lt
  by_cases he : r.rxConsume = r.rxProduce
  · left
    have hunread : r.unread = 0 := by
      unfold Ring.unread
      omega
    exact ⟨by rw [Ring.queue, hunread]; rfl, by simp [Ring.uartReadNonblock, he], if_pos he⟩
  · right
    refine ⟨r.rxBuf r.rxConsume, {r with rxConsume := rxNext r.rxConsume},
      by simp [Ring.uartReadNonblock, he],
      if_neg he, ?_, ⟨h1, ?_⟩⟩
    · obtain ⟨n, hn⟩ : ∃ n, r.unread = n + 1 := ⟨r.unread - 1, by unfold Ring.unread; omega⟩
      have hrest : ({r with rxConsume := rxNext r.rxConsume} : Ring).unread = n := by
        simp only [Ring.unread, rxNext_eq] at hn ⊢
        omega
      rw [Ring.queue, hn, List.range_succ_eq_map, List.map_cons, List.map_map, Ring.queue,
        hrest, Nat.add_zero, Nat.mod_eq_of_lt h2]
      congr 1
      apply List.map_congr_left
      intro i _
      simp only [Function.comp_apply, rxNext_eq]
      congr 1
      omega
    · have hnext := rxNext_eq r.rxConsume
      simp only
      omega

end HashRatio.Uart
