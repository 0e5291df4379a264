import Mathlib.Data.List.Basic

/-!
# Runs of a deterministic event system

`run` feeds a list of events to a step function; `Meets` says that every step of
a run meets a condition on the event and the state it finds; the invariant rules
turn what one step preserves into what a whole run preserves.
-/

namespace HashRatio.Run

variable {S E : Type}

def run (step : S → E → S) (s : S) (es : List E) : S := es.foldl step s

/-- Each event of the run meets `ok` in the state it is taken in. -/
def Meets (step : S → E → S) (ok : S → E → Prop) : S → List E → Prop
  | _, [] => True
  | s, e :: es => ok s e ∧ Meets step ok (step s e) es

instance decMeets (step : S → E → S) (ok : S → E → Prop) [∀ s e, Decidable (ok s e)] :
    (s : S) → (es : List E) → Decidable (Meets step ok s es)
  | _, [] => .isTrue trivial
  | s, e :: es =>
    have := decMeets step ok (step s e) es
    inferInstanceAs (Decidable (_ ∧ _))

@[simp] theorem run_nil (step : S → E → S) (s : S) : run step s [] = s := rfl

@[simp] theorem run_cons (step : S → E → S) (s : S) (e : E) (es : List E) :
    run step s (e :: es) = run step (step s e) es := rfl

theorem run_append (step : S → E → S) (s : S) (as bs : List E) :
    run step s (as ++ bs) = run step (run step s as) bs := List.foldl_append

theorem meets_append (step : S → E → S) (ok : S → E → Prop) (s : S) (as bs : List E) :
    Meets step ok s (as ++ bs) ↔ Meets step ok s as ∧ Meets step ok (run step s as) bs := by
  induction as generalizing s with
  | nil => simp [Meets]
  | cons a as ih => simp only [List.cons_append, Meets, ih, run_cons, and_assoc]

theorem meets_of_forall (step : S → E → S) (ok : S → E → Prop) (s : S) (es : List E)
    (h : ∀ e ∈ es, ∀ s, ok s e) : Meets step ok s es := by
  induction es generalizing s with
  | nil => trivial
  | cons e es ih =>
    exact ⟨h e (List.mem_cons_self ..) s, ih _ fun e' he' => h e' (List.mem_cons_of_mem _ he')⟩

/-- What every admissible step preserves, every admissible run preserves. -/
theorem run_invariant (step : S → E → S) (ok : S → E → Prop) (P : S → Prop)
    (hstep : ∀ s e, ok s e → P s → P (step s e)) (s : S) (es : List E)
    (hok : Meets step ok s es) (h : P s) : P (run step s es) := by
  induction es generalizing s with
  | nil => exact h
  | cons e es ih => exact ih _ hok.2 (hstep s e hok.1 h)

/-- What every step preserves holds of everything reachable. -/
theorem run_invariant_all (step : S → E → S) (P : S → Prop) (hstep : ∀ s e, P s → P (step s e))
    (s : S) (es : List E) (h : P s) : P (run step s es) :=
  run_invariant step (fun _ _ => True) P (fun s e _ => hstep s e) s es
    (meets_of_forall step _ s es fun _ _ _ => trivial) h

/-- A run whose steps meet `ok` meets what `ok` and an invariant give. -/
theorem meets_imp (step : S → E → S) {ok ok' : S → E → Prop} (P : S → Prop)
    (hstep : ∀ s e, ok s e → P s → P (step s e)) (hok : ∀ s e, ok s e → P s → ok' s e) (s : S)
    (es : List E) (h : Meets step ok s es) (hs : P s) : Meets step ok' s es := by
  induction es generalizing s with
  | nil => trivial
  | cons e es ih => exact ⟨hok s e h.1 hs, ih _ h.2 (hstep s e h.1 hs)⟩

section repeated
variable {step : S → E → S} {e : E} {P : ℕ → S → Prop}

/-- One event over and over, counted. -/
theorem run_replicate (hstep : ∀ n s, P n s → P (n + 1) (step s e)) (k : ℕ) {n : ℕ}
    {s : S} (h : P n s) :
    P (n + k) (run step s (List.replicate k e)) := by
  induction k generalizing n s with
  | zero => exact h
  | succ k ih =>
    rw [Nat.add_succ, ← Nat.succ_add]
    exact ih (hstep n s h)

theorem meets_replicate {ok : S → E → Prop} (hstep : ∀ n s, P n s → P (n + 1) (step s e))
    (hok : ∀ n s, P n s → ok s e) (k : ℕ) {n : ℕ} {s : S} (h : P n s) :
    Meets step ok s (List.replicate k e) := by
  induction k generalizing n s with
  | zero => trivial
  | succ k ih => exact ⟨hok n s h, ih (hstep n s h)⟩

end repeated

/-- One event after the other, counted. -/
theorem run_indexed (step : S → E → S) (P : ℕ → S → Prop) (es : List E) {s : S}
    (hstep : ∀ n (hn : n < es.length) s, P n s → P (n + 1) (step s es[n])) (h : P 0 s) :
    P es.length (run step s es) := by
  induction es generalizing s P with
  | nil => exact h
  | cons e es ih =>
    refine ih (fun n s => P (n + 1) s) (fun n hn s hp => ?_) (hstep 0 (Nat.succ_pos _) s h)
    exact hstep (n + 1) (Nat.succ_lt_succ hn) s hp

/-- Where every step but the awaited one brings it nearer, a run as long as `rank` has it. -/
theorem run_ranked (step : S → E → S) (P : S → Prop) (rank : S → ℕ) (done : S → Prop)
    (hpos : ∀ s, P s → 0 < rank s) (hstep : ∀ s e, P s → ¬done s → P (step s e) ∧
      rank (step s e) < rank s)
    (es : List E) {s : S} (h : P s) (hlen : rank s ≤ es.length) :
    ∃ pre e post, es = pre ++ e :: post ∧ P (run step s pre) ∧ done (run step s pre) := by
  induction es generalizing s with
  | nil => exact absurd hlen (Nat.not_le.mpr (hpos s h))
  | cons e es ih =>
    by_cases hdone : done s
    · exact ⟨[], e, es, rfl, h, hdone⟩
    · obtain ⟨hp, hrank⟩ := hstep s e h hdone
      rw [List.length_cons] at hlen
      obtain ⟨pre, e', post, rfl, hp, hdone⟩ := ih hp (by omega)
      exact ⟨e :: pre, e', post, rfl, hp, hdone⟩

/-- Two conditions that agree wherever an invariant holds are met by the same runs. -/
theorem meets_congr (step : S → E → S) (P : S → Prop) {ok ok' : S → E → Prop}
    (hstep : ∀ s e, P s → P (step s e)) (hok : ∀ s e, P s → (ok s e ↔ ok' s e)) (s : S)
    (es : List E) (h : P s) :
    Meets step ok s es ↔ Meets step ok' s es := by
  induction es generalizing s with
  | nil => exact Iff.rfl
  | cons e es ih => rw [Meets, Meets, hok s e h, ih (step s e) (hstep s e h)]

/-! ### What a run gives out -/

variable {O : Type}

/-- `out` of every state the run comes to. -/
def output (step : S → E → S) (out : S → List O) : S → List E → List O
  | _, [] => []
  | s, e :: es => out (step s e) ++ output step out (step s e) es

/-- The run gives out `os` and ends where `P` holds. -/
def Yields (step : S → E → S) (out : S → List O) (s : S) (es : List E) (os : List O)
    (P : S → Prop) : Prop :=
  output step out s es = os ∧ P (run step s es)

section yields
variable {step : S → E → S} {out : S → List O} {s : S} {P Q : S → Prop}
  {a b es : List E} {o p : List O}

theorem Yields.nil (h : P s) : Yields step out s [] [] P := ⟨rfl, h⟩

theorem Yields.cons {e : E} (h : Yields step out (step s e) es o P) :
    Yields step out s (e :: es) (out (step s e) ++ o) P := ⟨by rw [output, h.1], h.2⟩

theorem Yields.silent {e : E} (hout : out (step s e) = []) (h : Yields step out (step s e) es o P) :
    Yields step out s (e :: es) o P := by
  have hcons := h.cons
  rwa [hout, List.nil_append] at hcons

theorem Yields.append (h : Yields step out s a o P) (h' : ∀ t, P t → Yields step out t b p Q) :
    Yields step out s (a ++ b) (o ++ p) Q := by
  induction a generalizing s o with
  | nil =>
    obtain ⟨rfl, hp⟩ := h
    exact h' s hp
  | cons e a ih =>
    obtain ⟨rfl, hp⟩ := h
    rw [output, List.append_assoc]
    exact (ih ⟨rfl, hp⟩).cons

end yields

end HashRatio.Run
