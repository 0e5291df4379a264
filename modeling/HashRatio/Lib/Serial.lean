import HashRatio.Lib.Bytes

/-!
# Start-stop frames on a serial line

A frame is a start bit, the eight bits of a byte with the least significant first and
a stop bit, each for the same number of samples; a wave is frames with the line high
for any time before, between and after them.
-/

namespace HashRatio.Serial
open Bytes

/-- The `b`-th of the ten symbols of a frame. -/
def symbol (w : Byte) (b : ℕ) : Bool :=
  if b = 0 then false else if b ≤ 8 then w.getLsbD (b - 1) else true

def frame (t : ℕ) (w : Byte) : List Bool := (List.range (10 * t)).map fun k => symbol w (k / t)

/-- Each byte with the number of high samples before its frame. -/
def wave (t : ℕ) (fs : List (ℕ × Byte)) (tail : ℕ) : List Bool :=
  fs.flatMap (fun f => List.replicate f.1 true ++ frame t f.2) ++ List.replicate tail true

@[simp] theorem symbol_start (w : Byte) : symbol w 0 = false := rfl

theorem symbol_data (w : Byte) {b : ℕ} (hb : b < 8) : symbol w (b + 1) = w.getLsbD b := by
  rw [symbol, if_neg (Nat.succ_ne_zero b), if_pos (Nat.succ_le_of_lt hb), Nat.add_sub_cancel]

theorem symbol_stop (w : Byte) {b : ℕ} (hb : 9 ≤ b) : symbol w b = true := by
  rw [symbol, if_neg (by omega), if_neg (by omega)]

@[simp] theorem frame_length (t : ℕ) (w : Byte) : (frame t w).length = 10 * t := by
  rw [frame, List.length_map, List.length_range]

theorem frame_getElem (t : ℕ) (w : Byte) (k : ℕ) (hk : k < (frame t w).length) :
    (frame t w)[k] = symbol w (k / t) := by
  simp only [frame, List.getElem_map, List.getElem_range]

theorem frame_take_succ (t : ℕ) (w : Byte) {k : ℕ} (hk : k < 10 * t) :
    (frame t w).take (k + 1) = (frame t w).take k ++ [symbol w (k / t)] := by
  have hlt : k < (frame t w).length := by rwa [frame_length]
  rw [List.take_succ_eq_append_getElem hlt, frame_getElem]

theorem wave_idle (t : ℕ) (fs : List (ℕ × Byte)) (tail : ℕ) :
    wave t fs tail ++ [true] = wave t fs (tail + 1) := by
  rw [wave, wave, List.append_assoc, List.replicate_succ']

theorem wave_frame (t : ℕ) (fs : List (ℕ × Byte)) (tail : ℕ) (w : Byte) :
    wave t fs tail ++ frame t w = wave t (fs ++ [(tail, w)]) 0 := by
  rw [wave, wave, List.flatMap_append, List.flatMap_singleton, List.append_assoc,
    List.replicate_zero, List.append_nil]

end HashRatio.Serial
