import Mathlib.Data.List.Basic

/-!
# Clocked FIFOs

A FIFO with registered output as a user of it sees it: at each clock edge a word may
be offered and a read asked for. A `View` is what its user relies on; `ofDepth` is the
plain list that keeps these laws.
-/

namespace HashRatio.Clocked

structure Fifo (F α : Type) where
  init : F
  step : F → Option α → Bool → F
  empty : F → Bool
  full : F → Bool
  dout : F → α

section laws
variable {F α : Type} (f : Fifo F α)

def Fifo.reads (s : F) (rd : Bool) : Bool := rd && !f.empty s

/-- The word taken in. -/
def Fifo.takes (s : F) (w : Option α) : List α := if f.full s then [] else w.toList

/-- `held`: the words inside, the oldest first. `empty` falls late, by at most `late` edges, and
rises at reads only, as `full` does at writes. -/
structure View where
  held : F → List α
  late : F → ℕ
  lag : ℕ
  init : held f.init = []
  nonempty : ∀ s, f.empty s = false → held s ≠ []
  stays : ∀ s w, f.empty s = false → f.empty (f.step s w false) = false
  step : ∀ s w rd,
    held (f.step s w rd) = (if f.reads s rd then (held s).tail else held s) ++ f.takes s w
  read : ∀ s w rd, f.reads s rd = true → (held s).head? = some (f.dout (f.step s w rd))
  keep : ∀ s w rd, f.reads s rd = false → f.dout (f.step s w rd) = f.dout s
  full_stays : ∀ s rd, f.full s = false → f.full (f.step s none rd) = false
  room : ∀ s, f.empty s = true → f.full s = false
  late_le : ∀ s, late s ≤ lag
  late_lt : ∀ s w, held s ≠ [] → f.empty s = true → late (f.step s w false) < late s

variable {f}

/-- What was taken in is what was read and what is inside. -/
theorem View.conserved (v : View f) (s : F) (w : Option α) (rd : Bool) :
    v.held s ++ f.takes s w =
      (if f.reads s rd then [f.dout (f.step s w rd)] else []) ++ v.held (f.step s w rd) := by
  rw [v.step]
  by_cases hrd : f.reads s rd = true
  · obtain ⟨xs, hcons⟩ := List.head?_eq_some_iff.mp (v.read s w rd hrd)
    rw [if_pos hrd, if_pos hrd, hcons, List.tail_cons, List.cons_append, List.singleton_append]
  · rw [if_neg hrd, if_neg hrd, List.nil_append]

theorem View.unread (v : View f) (s : F) (w : Option α) :
    v.held (f.step s w false) = v.held s ++ f.takes s w := by
  rw [v.step, Fifo.reads, Bool.false_and, if_neg Bool.false_ne_true]

theorem View.kept (v : View f) (s : F) (w : Option α) : f.dout (f.step s w false) = f.dout s :=
  v.keep s w false (Bool.false_and _)

/-- A read of a FIFO that shows a word. -/
theorem View.taken (v : View f) (s : F) (w : Option α) (h : f.empty s = false) :
    v.held s ++ f.takes s w = f.dout (f.step s w true) :: v.held (f.step s w true) := by
  have hreads : f.reads s true = true := by rw [Fifo.reads, h, Bool.true_and, Bool.not_false]
  rw [v.conserved s w true, if_pos hreads, List.singleton_append]

end laws

/-- A list of at most `depth + 1` words behind an output register. -/
def ofDepth {α : Type} (depth : ℕ) (zero : α) : Fifo (List α × α) α where
  init := ([], zero)
  step s w rd :=
    let out := if rd then s.1.head?.getD s.2 else s.2
    ((if rd then s.1.tail else s.1) ++ (if depth < s.1.length then [] else w.toList), out)
  empty s := s.1.isEmpty
  full s := decide (depth < s.1.length)
  dout s := s.2

def ofDepth.view {α : Type} (depth : ℕ) (zero : α) : View (ofDepth depth zero) where
  held := Prod.fst
  late _ := 0
  lag := 0
  init := rfl
  nonempty s h := by
    obtain ⟨xs, out⟩ := s
    cases xs with
    | nil => cases h
    | cons x xs => exact List.cons_ne_nil x xs
  stays s w h := by
    obtain ⟨xs, out⟩ := s
    cases xs with
    | nil => cases h
    | cons x xs => rfl
  step s w rd := by
    obtain ⟨xs, out⟩ := s
    cases xs <;> cases rd <;> simp [ofDepth, Fifo.reads, Fifo.takes]
  read s w rd h := by
    obtain ⟨xs, out⟩ := s
    cases xs <;> cases rd <;> simp_all [ofDepth, Fifo.reads]
  keep s w rd h := by
    obtain ⟨xs, out⟩ := s
    cases xs <;> cases rd <;> simp_all [ofDepth, Fifo.reads]
  full_stays s rd h := by
    obtain ⟨xs, out⟩ := s
    cases rd <;> simp only [ofDepth, decide_eq_false_iff_not] at h ⊢ <;> simp <;> omega
  room s h := by
    obtain ⟨xs, out⟩ := s
    cases xs with
    | nil => rfl
    | cons x xs => cases h
  late_le s := Nat.le_refl 0
  late_lt s w h he := absurd (List.isEmpty_iff.mp he) h

end HashRatio.Clocked
