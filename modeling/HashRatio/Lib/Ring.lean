import Mathlib.Data.List.Basic

/-!
# Ring buffers

An array of `n` places with a produce and a consume index, both taken modulo `n`.
The queue lies between them; equal indices mean that it is empty, so at most
`n - 1` places are used. A ring holds a queue, putting appends to it, taking
removes its head. A writer that never asks for room leaves the array with the
last `n` elements of its history.
-/

namespace HashRatio.Ring

variable {α : Type}

/-- Indices of a ring are sums below twice its size. -/
theorem wrap {n a i : ℕ} (ha : a < n) (hi : i ≤ n) :
    (a + i) % n = if a + i < n then a + i else a + i - n := by
  split
  · rename_i h
    exact Nat.mod_eq_of_lt h
  · rename_i h
    rw [Nat.mod_eq_sub_mod (by omega), Nat.mod_eq_of_lt (by omega)]

/-- The places from `consume` up to `produce` hold the queue `q`. -/
structure Holds (n : ℕ) (buff : ℕ → α) (produce consume : ℕ) (q : List α) : Prop where
  consume_lt : consume < n
  room : q.length < n
  produce_eq : produce = (consume + q.length) % n
  get : ∀ i (h : i < q.length), buff ((consume + i) % n) = q[i]

section holds
variable {n : ℕ} {buff : ℕ → α} {produce consume : ℕ} {q : List α}

theorem holds_nil (buff : ℕ → α) {k : ℕ} (hk : k < n) : Holds n buff k k [] where
  consume_lt := hk
  room := Nat.zero_lt_of_lt hk
  produce_eq := (Nat.mod_eq_of_lt hk).symm
  get := fun _ h => absurd h (Nat.not_lt_zero _)

theorem Holds.produce_lt (h : Holds n buff produce consume q) : produce < n := by
  rw [h.produce_eq]
  exact Nat.mod_lt _ (Nat.zero_lt_of_lt h.consume_lt)

/-- The number of results is the distance of the indices. -/
theorem Holds.length_eq (h : Holds n buff produce consume q) :
    (produce + n - consume) % n = q.length := by
  have hc := h.consume_lt
  have hr := h.room
  have hp := h.produce_eq
  rw [wrap hc (by omega)] at hp
  by_cases hw : consume + q.length < n
  · rw [if_pos hw] at hp
    rw [show produce + n - consume = q.length + n by omega, Nat.add_mod_right, Nat.mod_eq_of_lt hr]
  · rw [if_neg hw] at hp
    rw [show produce + n - consume = q.length by omega, Nat.mod_eq_of_lt hr]

theorem Holds.empty_iff (h : Holds n buff produce consume q) : consume = produce ↔ q = [] := by
  have hc := h.consume_lt
  have hr := h.room
  have hp := h.produce_eq
  rw [wrap hc (by omega)] at hp
  rw [← List.length_eq_zero_iff]
  split at hp <;> omega

theorem Holds.put (h : Holds n buff produce consume q) (hroom : q.length + 1 < n) (x : α) :
    Holds n (fun k => if k = produce then x else buff k)
      ((produce + 1) % n) consume (q ++ [x]) := by
  have hc := h.consume_lt
  have hp := h.produce_eq
  refine ⟨hc, by rw [List.length_append, List.length_singleton]; exact hroom, ?_, fun i hi => ?_⟩
  · rw [hp, List.length_append, List.length_singleton, Nat.mod_add_mod, Nat.add_assoc]
  · rw [List.length_append, List.length_singleton] at hi
    by_cases hlast : i = q.length
    · subst hlast
      simp only [← hp, if_true, List.getElem_concat_length]
    · -- a place of the queue is not the one written
      have hne : (consume + i) % n ≠ produce := by
        rw [hp, wrap hc (by omega), wrap hc (by omega)]
        split <;> split <;> omega
      simp only [if_neg hne]
      rw [h.get i (by omega), List.getElem_append_left]

/-- Putting an element, on the array and the produce index. -/
def putAt (n : ℕ) (r : (ℕ → α) × ℕ) (x : α) : (ℕ → α) × ℕ :=
  (fun k => if k = r.2 then x else r.1 k, (r.2 + 1) % n)

theorem Holds.puts {r : (ℕ → α) × ℕ} (h : Holds n r.1 r.2 consume q) (xs : List α)
    (hroom : q.length + xs.length < n) :
    Holds n (xs.foldl (putAt n) r).1 (xs.foldl (putAt n) r).2 consume (q ++ xs) := by
  induction xs generalizing r q with
  | nil => rwa [List.append_nil]
  | cons x xs ih =>
    rw [List.length_cons] at hroom
    have hput : Holds n (putAt n r x).1 (putAt n r x).2 consume (q ++ [x]) := h.put (by omega) x
    have hrest := ih hput (by rw [List.length_append, List.length_singleton]; omega)
    rwa [List.append_assoc] at hrest

theorem Holds.take {x : α} (h : Holds n buff produce consume (x :: q)) :
    buff consume = x ∧ Holds n buff produce ((consume + 1) % n) q := by
  have hc := h.consume_lt
  have hr := h.room
  have hp := h.produce_eq
  rw [List.length_cons] at hr hp
  have hmod (i : ℕ) : ((consume + 1) % n + i) % n = (consume + (i + 1)) % n := by
    rw [Nat.mod_add_mod, Nat.add_assoc, Nat.add_comm 1]
  constructor
  · have hget := h.get 0 (Nat.succ_pos _)
    rwa [Nat.add_zero, Nat.mod_eq_of_lt hc] at hget
  · refine ⟨Nat.mod_lt _ (by omega), by omega, by rw [hmod, hp], fun i hi => ?_⟩
    rw [hmod, h.get (i + 1) (Nat.succ_lt_succ hi), List.getElem_cons_succ]

end holds

/-! ### Without asking for room -/

/-- The array holds the last `n` elements of what was put into it. -/
structure History (n : ℕ) (buff : ℕ → α) (produce : ℕ) (hist : List α) : Prop where
  pos : 0 < n
  produce_eq : produce = hist.length % n
  get : ∀ i (h : i < hist.length), hist.length ≤ i + n → buff (i % n) = hist[i]

section history
variable {n : ℕ} {buff : ℕ → α} {produce : ℕ} {hist : List α}

theorem history_nil (hn : 0 < n) (buff : ℕ → α) : History n buff 0 [] where
  pos := hn
  produce_eq := (Nat.zero_mod n).symm
  get := fun _ h => absurd h (Nat.not_lt_zero _)

/-- Places less than `n` apart are different. -/
theorem mod_ne {i j : ℕ} (hij : i < j) (hn : j < i + n) : i % n ≠ j % n := by
  intro h
  have hzero : (j - i) % n = 0 := Nat.sub_mod_eq_zero_of_mod_eq h.symm
  rw [Nat.mod_eq_of_lt (by omega)] at hzero
  omega

theorem History.put (h : History n buff produce hist) (x : α) :
    History n (fun k => if k = produce then x else buff k) ((produce + 1) % n) (hist ++ [x]) := by
  refine ⟨h.pos, ?_, fun i hi hlast => ?_⟩
  · rw [h.produce_eq, List.length_append, List.length_singleton, Nat.mod_add_mod]
  · rw [List.length_append, List.length_singleton] at hi hlast
    by_cases hi' : i = hist.length
    · subst hi'
      simp only [← h.produce_eq, if_true, List.getElem_concat_length]
    · have hne : i % n ≠ produce := by
        rw [h.produce_eq]
        exact mod_ne (by omega) (by omega)
      simp only [if_neg hne]
      rw [h.get i (by omega) (by omega), List.getElem_append_left]

/-- A place that was passed holds the latest element put there. -/
theorem History.latest (h : History n buff produce hist) {k : ℕ} (hk : k < hist.length) :
    ∃ i, k ≤ i ∧ i % n = k % n ∧ hist.length ≤ i + n ∧
      ∃ hi : i < hist.length, buff (k % n) = hist[i] := by
  have hpos := h.pos
  have hrest := Nat.div_add_mod (hist.length - 1 - k) n
  have hlt := Nat.mod_lt (hist.length - 1 - k) hpos
  have hmod : (k + n * ((hist.length - 1 - k) / n)) % n = k % n := Nat.add_mul_mod_self_left ..
  refine ⟨k + n * ((hist.length - 1 - k) / n), Nat.le_add_right .., hmod, by omega, by omega, ?_⟩
  rw [← hmod]
  exact h.get _ (by omega) (by omega)

end history

end HashRatio.Ring
