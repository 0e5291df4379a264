import Mathlib.Data.Int.Notation
import Mathlib.Data.List.GetD

/-!
# Flat memory

A region of byte-addressed memory as a total function of the offset from a base
object. Negative offsets and offsets past the object are the memory around it,
so a write through an unchecked index lands where the address arithmetic sends
it. `α` is the cell type.
-/

namespace HashRatio.Memory

variable {α : Type}

abbrev Mem (α : Type) := ℤ → α

/-- Store the list `bs` at `a`, `a + 1`, .... -/
def write (m : Mem α) (a : ℤ) (bs : List α) : Mem α :=
  fun x => if a ≤ x then bs.getD (x - a).toNat (m x) else m x

def fill (m : Mem α) (a : ℤ) (n : ℕ) (v : α) : Mem α :=
  fun x => if a ≤ x ∧ x < a + n then v else m x

def read (m : Mem α) (a : ℤ) (n : ℕ) : List α := (List.range n).map fun i => m (a + (i : ℕ))

@[simp] theorem read_length (m : Mem α) (a : ℤ) (n : ℕ) : (read m a n).length = n := by
  simp [read]

theorem read_getElem? (m : Mem α) (a : ℤ) (n i : ℕ) (h : i < n) :
    (read m a n)[i]? = some (m (a + i)) := by
  simp [read, h]

theorem read_getElem (m : Mem α) (a : ℤ) (n i : ℕ) (h : i < (read m a n).length) :
    (read m a n)[i] = m (a + i) := by
  simp [read]

theorem write_out (m : Mem α) (a x : ℤ) (bs : List α) (h : x < a ∨ a + bs.length ≤ x) :
    write m a bs x = m x := by
  unfold write
  split
  · exact List.getD_eq_default _ _ (by omega)
  · rfl

theorem write_in (m : Mem α) (a : ℤ) (bs : List α) (i : ℕ) (h : i < bs.length) :
    write m a bs (a + i) = bs[i] := by
  have hle : a ≤ a + i := by omega
  have hidx : (a + i - a).toNat = i := by omega
  simp only [write, if_pos hle, hidx]
  exact List.getD_eq_getElem _ _ h

theorem write_in' (m : Mem α) (a x : ℤ) (bs : List α) (d : α) (h1 : a ≤ x)
    (h2 : x < a + bs.length) :
    write m a bs x = bs.getD (x - a).toNat d := by
  simp only [write, if_pos h1]
  rw [List.getD_eq_getElem _ _ (by omega), List.getD_eq_getElem _ _ (by omega)]

theorem fill_out (m : Mem α) (a x : ℤ) (n : ℕ) (v : α) (h : x < a ∨ a + n ≤ x) :
    fill m a n v x = m x := by
  unfold fill
  rw [if_neg (by omega)]

theorem fill_in (m : Mem α) (a x : ℤ) (n : ℕ) (v : α) (h : a ≤ x ∧ x < a + n) :
    fill m a n v x = v := by
  unfold fill
  rw [if_pos h]

theorem fill_eq_write (m : Mem α) (a : ℤ) (n : ℕ) (v : α) :
    fill m a n v = write m a (List.replicate n v) := by
  funext x
  by_cases h : a ≤ x ∧ x < a + n
  · rw [fill_in m a x n v h, write_in' m a x _ v h.1 (by rw [List.length_replicate]; exact h.2)]
    exact (List.getD_replicate v (by omega)).symm
  · rw [fill_out m a x n v (by omega), write_out m a x _ (by rw [List.length_replicate]; omega)]

theorem read_congr (m m' : Mem α) (a : ℤ) (n : ℕ) (h : ∀ x, a ≤ x → x < a + n → m x = m' x) :
    read m a n = read m' a n := by
  apply List.map_congr_left
  intro i hi
  have hlt := List.mem_range.mp hi
  exact h _ (by omega) (by omega)

theorem read_eq (m : Mem α) (a : ℤ) (n : ℕ) (bs : List α) (d : α) (hlen : bs.length = n)
    (h : ∀ x < n, m (a + (x : ℕ)) = bs.getD x d) : read m a n = bs := by
  apply List.ext_getElem (by rw [read_length, hlen])
  intro x h1 h2
  rw [read_getElem, h x (by omega), List.getD_eq_getElem _ _ h2]

theorem read_write_same (m : Mem α) (a : ℤ) (bs : List α) :
    read (write m a bs) a bs.length = bs := by
  apply List.ext_getElem (by simp)
  intro i h1 h2
  rw [read_getElem, write_in m a bs i h2]

theorem read_write_out (m : Mem α) (a b : ℤ) (n : ℕ) (bs : List α)
    (h : a + n ≤ b ∨ b + bs.length ≤ a) : read (write m b bs) a n = read m a n :=
  read_congr _ _ a n fun x h1 h2 => write_out m b x bs (by omega)

theorem write_congr (m m' : Mem α) (a x : ℤ) (bs : List α)
    (h : x < a ∨ a + bs.length ≤ x → m x = m' x) :
    write m a bs x = write m' a bs x := by
  by_cases hx : x < a ∨ a + bs.length ≤ x
  · rw [write_out m a x bs hx, write_out m' a x bs hx, h hx]
  · rw [write_in' m a x bs (m x) (by omega) (by omega),
      write_in' m' a x bs (m x) (by omega) (by omega)]

theorem write_append (m : Mem α) (a : ℤ) (xs ys : List α) :
    write (write m a xs) (a + xs.length) ys = write m a (xs ++ ys) := by
  funext x
  by_cases hx : a + xs.length ≤ x
  · by_cases hy : x < a + xs.length + ys.length
    · rw [write_in' _ _ x ys (m x) hx hy,
        write_in' m a x (xs ++ ys) (m x) (by omega) (by rw [List.length_append]; omega),
        List.getD_append_right _ _ _ _ (by omega)]
      congr 1
      omega
    · rw [write_out _ _ x ys (by omega), write_out m a x xs (by omega),
        write_out m a x (xs ++ ys) (by rw [List.length_append]; omega)]
  · rw [write_out _ _ x ys (by omega)]
    by_cases ha : a ≤ x
    · rw [write_in' m a x xs (m x) ha (by omega),
        write_in' m a x (xs ++ ys) (m x) ha (by rw [List.length_append]; omega),
        List.getD_append _ _ _ _ (by omega)]
    · rw [write_out m a x xs (by omega), write_out m a x (xs ++ ys) (by omega)]

/-- Under a fill only the cells outside it matter. -/
theorem read_fill_congr (m m' : Mem α) (a b : ℤ) (n k : ℕ) (v : α)
    (h : ∀ x, a ≤ x → x < a + n → ¬(b ≤ x ∧ x < b + k) → m x = m' x) :
    read (fill m b k v) a n = read (fill m' b k v) a n := by
  refine read_congr _ _ a n fun x h1 h2 => ?_
  by_cases hx : b ≤ x ∧ x < b + k
  · rw [fill_in m b x k v hx, fill_in m' b x k v hx]
  · rw [fill_out m b x k v (by omega), fill_out m' b x k v (by omega)]
    exact h x h1 h2 hx

theorem read_add (m : Mem α) (a : ℤ) (n k : ℕ) :
    read m a (n + k) = read m a n ++ read m (a + n) k := by
  simp only [read, List.range_add, List.map_append, List.map_map]
  congr 1
  apply List.map_congr_left
  intro i _
  simp only [Function.comp_apply]
  congr 1
  omega

/-- Replace the cells of a list from position `k` on. -/
def splice (xs : List α) (k : ℕ) (bs : List α) : List α :=
  xs.take k ++ bs ++ xs.drop (k + bs.length)

theorem splice_splice (xs : List α) (k : ℕ) (bs cs : List α) (h : k + bs.length ≤ xs.length)
    (hlen : bs.length = cs.length) : splice (splice xs k bs) k cs = splice xs k cs := by
  have htake : (xs.take k).length = k := by
    rw [List.length_take]
    omega
  have hpre : (xs.take k ++ bs).length = k + bs.length := by
    rw [List.length_append, htake]
  unfold splice
  rw [← hlen, List.drop_left' hpre, List.append_assoc (xs.take k) bs, List.take_left' htake]

theorem splice_congr (xs ys : List α) (k : ℕ) (bs : List α)
    (h : ∀ x, x < k ∨ k + bs.length ≤ x → xs[x]? = ys[x]?) : splice xs k bs = splice ys k bs := by
  have htake : xs.take k = ys.take k := by
    apply List.ext_getElem?
    intro x
    rw [List.getElem?_take, List.getElem?_take]
    split
    · exact h x (by omega)
    · rfl
  have hdrop : xs.drop (k + bs.length) = ys.drop (k + bs.length) := by
    apply List.ext_getElem?
    intro x
    rw [List.getElem?_drop, List.getElem?_drop]
    exact h _ (by omega)
  rw [splice, splice, htake, hdrop]

/-- A load that covers a store is the old load with the stored part replaced. -/
theorem read_write_inside (m : Mem α) (a b : ℤ) (n : ℕ) (bs : List α)
    (h1 : a ≤ b) (h2 : b + bs.length ≤ a + n) :
    read (write m b bs) a n = splice (read m a n) (b - a).toNat bs := by
  obtain ⟨k, rfl⟩ : ∃ k : ℕ, b = a + k := ⟨(b - a).toNat, by omega⟩
  obtain ⟨r, rfl⟩ : ∃ r : ℕ, n = k + bs.length + r := ⟨n - k - bs.length, by omega⟩
  have hk : (a + (k : ℤ) - a).toNat = k := by omega
  have hlen : a + ((k + bs.length : ℕ) : ℤ) = a + k + bs.length := by omega
  rw [hk, read_add, read_add, read_add _ _ (k + bs.length), read_add _ _ k, read_write_same]
  rw [read_write_out m a (a + k) k bs (by omega), read_write_out m _ (a + k) r bs (by omega)]
  have hpre : (read m a k).length = k := read_length m a k
  have hmid : (read m a k ++ read m (a + k) bs.length).length = k + bs.length := by simp
  rw [splice, List.drop_left' hmid, List.append_assoc (read m a k) (read m (a + k) bs.length),
    List.take_left' hpre]

end HashRatio.Memory
