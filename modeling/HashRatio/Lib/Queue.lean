import HashRatio.Lib.Run

/-!
# Polled queues

Elements are put into a queue; a poll is answered by the oldest one, or by the
notice that there is none; a reset drops them all. `Serves` says of what was seen
at a queue that it is first in, first out.
-/

namespace HashRatio.Queue
open Run

inductive Act (α : Type) where
  | put (x : α)
  | poll
  | give (x : α)
  | empty
  | reset

variable {α : Type}

/-- What was seen takes a queue from one content to another. -/
inductive Serves : List α → List (Act α) → List α → Prop
  | done (q : List α) : Serves q [] q
  | put {q q' : List α} {x : α} {as : List (Act α)} : Serves (q ++ [x]) as q' →
    Serves q (.put x :: as) q'
  | give {q q' : List α} {x : α} {as : List (Act α)} : Serves q as q' →
    Serves (x :: q) (.poll :: .give x :: as) q'
  | empty {q' : List α} {as : List (Act α)} : Serves [] as q' → Serves [] (.poll :: .empty :: as) q'
  | reset {q q' : List α} {as : List (Act α)} : Serves [] as q' → Serves q (.reset :: as) q'

def puts (as : List (Act α)) : List α :=
  as.filterMap fun
    | .put x => some x
    | _ => none

def gives (as : List (Act α)) : List α :=
  as.filterMap fun
    | .give x => some x
    | _ => none

section serves
variable {q q' q'' : List α} {as bs : List (Act α)}

theorem Serves.append (h : Serves q as q') (h' : Serves q' bs q'') : Serves q (as ++ bs) q'' := by
  induction h with
  | done q => exact h'
  | put _ ih => exact .put (ih h')
  | give _ ih => exact .give (ih h')
  | empty _ ih => exact .empty (ih h')
  | reset _ ih => exact .reset (ih h')

theorem serves_puts (xs : List α) : Serves q (xs.map .put ++ as) q' ↔ Serves (q ++ xs) as q' := by
  induction xs generalizing q with
  | nil => rw [List.map_nil, List.nil_append, List.append_nil]
  | cons x xs ih =>
    rw [← List.singleton_append (l := xs), ← List.append_assoc, ← ih]
    constructor
    · intro h
      cases h with
      | put h => exact h
    · exact .put

/-- The notice is given only when nothing is left. -/
theorem Serves.nil_of_empty (h : Serves q (.poll :: .empty :: as) q') : q = [] := by
  cases h
  rfl

/-- Without a reset every element put in is given once, in order, or still there. -/
theorem Serves.conserved (h : Serves q as q') (hreset : .reset ∉ as) :
    q ++ puts as = gives as ++ q' := by
  induction h with
  | done q => exact List.append_nil q
  | put _ ih =>
    rw [List.mem_cons, not_or] at hreset
    have hrest := ih hreset.2
    rw [List.append_assoc] at hrest
    exact hrest
  | give _ ih =>
    rw [List.mem_cons, List.mem_cons, not_or, not_or] at hreset
    exact congrArg (List.cons _) (ih hreset.2.2)
  | empty _ ih =>
    rw [List.mem_cons, List.mem_cons, not_or, not_or] at hreset
    exact ih hreset.2.2
  | reset _ _ => exact absurd (List.mem_cons_self ..) hreset

end serves

/-! ### Runs -/

variable {S E : Type}

/-- What is seen during a run. -/
def trace (step : S → E → S) (acts : S → E → List (Act α)) : S → List E → List (Act α)
  | _, [] => []
  | s, e :: es => acts s e ++ trace step acts (step s e) es

/-- Steps that serve the queue a state stands for make runs that do. -/
theorem run_serves {step : S → E → S} {acts : S → E → List (Act α)} {ok : S → E → Prop}
    {R : S → List α → Prop} (hstep : ∀ s e q, ok s e → R s q → ∃ q', R (step s e) q' ∧
      Serves q (acts s e) q') (s : S) (es : List E)
    (q : List α) (hok : Meets step ok s es) (h : R s q) :
    ∃ q', R (run step s es) q' ∧ Serves q (trace step acts s es) q' := by
  induction es generalizing s q with
  | nil => exact ⟨q, h, .done q⟩
  | cons e es ih =>
    obtain ⟨q1, hq1, hserves⟩ := hstep s e q hok.1 h
    obtain ⟨q2, hq2, hrest⟩ := ih (step s e) q1 hok.2 hq1
    exact ⟨q2, hq2, hserves.append hrest⟩

theorem trace_append (step : S → E → S) (acts : S → E → List (Act α)) (s : S) (es fs : List E) :
    trace step acts s (es ++ fs) = trace step acts s es ++ trace step acts (run step s es) fs := by
  induction es generalizing s with
  | nil => rfl
  | cons e es ih => rw [List.cons_append, trace, ih, trace, List.append_assoc, run_cons]

end HashRatio.Queue
