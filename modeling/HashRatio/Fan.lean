import HashRatio.State
import HashRatio.Twi
import Mathlib.Data.List.Induction

/-!
# The fan across restarts

`adjust_fan` skips the write when its static `value` is what is asked for. `value`
lies in .data, which a restart does not load again, and the PWM register is
cleared by it, as at power-on.
-/

namespace HashRatio.Fan
open Bytes Drivers State Twi

/-! ### Restarts and calls -/

/-- A reset may come inside `adjust_fan`, when `value` is set and the register is not yet written:
before the value is clamped or after it. -/
inductive Event where
  | watchdog
  | adjust (pwm : ℤ)
  | cut (pwm : ℤ) (clamped : Bool)
  deriving DecidableEq, Repr

def powerOn : Dev Idle := (Fw.init Idle.reset).dev

/-- The peripherals are reset and .bss is cleared; `value` stays. -/
def restart (d : Dev Idle) : Dev Idle := {d with env := Idle.reset, writeBuffer := fun _ => 0}

def clamp (pwm : ℤ) : ℤ := if pwm < 0 then 0 else if pwm > 0x3ff then 0x3ff else pwm

def cutValue (value pwm : ℤ) (clamped : Bool) : ℤ :=
  if value ≠ pwm ∧ clamped then clamp pwm else pwm

def step (d : Dev Idle) : Event → Dev Idle
  | .watchdog => restart d
  | .adjust pwm => adjustFan twiBoard d pwm
  | .cut pwm clamped => restart {d with fanValue := cutValue d.fanValue pwm clamped}

def after (es : List Event) : Dev Idle := Run.run step powerOn es

def register (d : Dev Idle) : ℤ := d.env.regPwm.toNat

theorem clamp_range (pwm : ℤ) : 0 ≤ clamp pwm ∧ clamp pwm ≤ 0x3ff := by
  unfold clamp
  split
  · omega
  · split <;> omega

theorem clamp_of_range {v : ℤ} (h : 0 ≤ v ∧ v ≤ 0x3ff) : clamp v = v := by
  rw [clamp, if_neg (by omega), if_neg (by omega)]

theorem adjust_skip {d : Dev Idle} {pwm : ℤ} (h : d.fanValue = pwm) :
    adjustFan twiBoard d pwm = d := if_pos h

theorem adjust_write {d : Dev Idle} {pwm : ℤ} (h : d.fanValue ≠ pwm) :
    register (adjustFan twiBoard d pwm) = clamp pwm ∧
      (adjustFan twiBoard d pwm).fanValue = clamp pwm := by
  have hadjust : adjustFan twiBoard d pwm =
      {d with fanValue := clamp pwm, env := bus d.env true pwmc (BitVec.ofInt 32 (clamp pwm))} :=
        if_neg h
  have hrange := clamp_range pwm
  rw [hadjust]
  refine ⟨?_, rfl⟩
  simp only [register, write_regPwm]
  rw [BitVec.extractLsb'_toNat, Nat.shiftRight_zero, BitVec.toNat_ofInt]
  omega

/-! ### The cached value -/

def lastArg (v : ℤ) : Event → ℤ
  | .watchdog => v
  | .adjust pwm => if v = pwm then v else clamp pwm
  | .cut pwm clamped => cutValue v pwm clamped

/-- The argument of the last call, clamped when the call came so far; before the first call the
initial value. -/
def lastValue (es : List Event) : ℤ := es.foldl lastArg 0x3ff

theorem lastValue_append (es : List Event) (e : Event) :
    lastValue (es ++ [e]) = lastArg (lastValue es) e := by
  rw [lastValue, List.foldl_append]
  rfl

theorem after_append (es : List Event) (e : Event) : after (es ++ [e]) = step (after es) e := by
  rw [after, Run.run_append]
  rfl

theorem fanValue_after (es : List Event) : (after es).fanValue = lastValue es := by
  induction es using List.reverseRecOn with
  | nil => rfl
  | append_singleton es e ih =>
    rw [after_append, lastValue_append, ← ih]
    cases e with
    | watchdog => rfl
    | cut pwm clamped => rfl
    | adjust pwm =>
      rw [step, lastArg]
      split
      · rename_i h
        rw [adjust_skip h]
      · rename_i h
        exact (adjust_write h).2

/-! ### When the register follows -/

def Fresh (es : List Event) : Prop := es = [] ∨ ∃ es' e, es = es' ++ [e] ∧ ∀ pwm, e ≠ .adjust pwm

theorem register_fresh {es : List Event} (h : Fresh es) : register (after es) = 0 := by
  rcases h with rfl | ⟨es', e, rfl, he⟩
  · rfl
  · rw [after_append]
    cases e with
    | watchdog => rfl
    | cut pwm clamped => rfl
    | adjust pwm => exact absurd rfl (he pwm)

/-- After the call the register holds the value asked for, and `value` with it. -/
def Follows (es : List Event) (pwm : ℤ) : Prop :=
  register (after (es ++ [.adjust pwm])) = clamp pwm ∧
    (after (es ++ [.adjust pwm])).fanValue = register (after (es ++ [.adjust pwm]))

theorem follows_of_write {es : List Event} {pwm : ℤ} (h : lastValue es ≠ pwm) : Follows es pwm := by
  have hne : (after es).fanValue ≠ pwm := fanValue_after es ▸ h
  obtain ⟨hreg, hvalue⟩ := adjust_write hne
  rw [Follows, after_append]
  exact ⟨hreg, hvalue.trans hreg.symm⟩

theorem register_range (d : Dev Idle) : 0 ≤ register d ∧ register d ≤ 0x3ff := by
  have hlt := d.env.regPwm.isLt
  rw [register]
  omega

theorem follows_of_skip {es : List Event} {pwm : ℤ} (h : lastValue es = pwm) :
    Follows es pwm ↔ register (after es) = pwm := by
  have hvalue : (after es).fanValue = pwm := (fanValue_after es).trans h
  have hskip : after (es ++ [.adjust pwm]) = after es := by
    rw [after_append]
    exact adjust_skip hvalue
  rw [Follows, hskip, hvalue]
  constructor
  · intro hf
    exact hf.2.symm
  · intro hreg
    have hclamp : clamp pwm = pwm := by
      rw [← hreg]
      exact clamp_of_range (register_range _)
    exact ⟨hreg.trans hclamp.symm, hreg.symm⟩

/-- The first call after a reset follows when it is a write, or asks for the 0 that is there. -/
theorem follows_fresh {es : List Event} (h : Fresh es) (pwm : ℤ) :
    Follows es pwm ↔ pwm ≠ lastValue es ∨ pwm = 0 := by
  by_cases hlast : lastValue es = pwm
  · rw [follows_of_skip hlast, register_fresh h]
    have hnot : ¬pwm ≠ lastValue es := not_not_intro hlast.symm
    simp only [hnot, false_or]
    exact eq_comm
  · exact iff_of_true (follows_of_write hlast) (Or.inl (Ne.symm hlast))

theorem follows_next {es : List Event} {p : ℤ} (h : Follows es p) (pwm : ℤ) :
    Follows (es ++ [.adjust p]) pwm := by
  by_cases hlast : lastValue (es ++ [.adjust p]) = pwm
  · rw [follows_of_skip hlast, ← h.2, fanValue_after, hlast]
  · exact follows_of_write hlast

/-- **In a run every call leaves its value in the register, and `value` equal to it, exactly when
the first call after each reset asks for another value than the last one before it, or for 0.** -/
theorem follows_iff (es : List Event) :
    (∀ pre pwm post, es = pre ++ .adjust pwm :: post → Follows pre pwm) ↔
      ∀ pre pwm post, es = pre ++ .adjust pwm :: post → Fresh pre →
        pwm ≠ lastValue pre ∨ pwm = 0 := by
  constructor
  · intro h pre pwm post hes hfresh
    exact (follows_fresh hfresh pwm).mp (h pre pwm post hes)
  · intro h pre
    induction pre using List.reverseRecOn with
    | nil =>
      intro pwm post hes
      exact (follows_fresh (Or.inl rfl) pwm).mpr (h [] pwm post hes (Or.inl rfl))
    | append_singleton pre e ih =>
      intro pwm post hes
      by_cases he : ∃ p, e = .adjust p
      · obtain ⟨p, rfl⟩ := he
        rw [List.append_assoc] at hes
        exact follows_next (ih p (.adjust pwm :: post) hes) pwm
      · have hfresh : Fresh (pre ++ [e]) := Or.inr ⟨pre, e, rfl, fun p hp => he ⟨p, hp⟩⟩
        exact (follows_fresh hfresh pwm).mpr (h _ pwm post hes hfresh)

/-- At power-on `value` is not the register; and `main` asks for 200 again after a restart. -/
theorem fan_stopped : (after []).fanValue ≠ register (after []) ∧
    ¬Follows [.adjust 200, .watchdog] 200 ∧
    (after [.adjust 200, .watchdog, .adjust 200]).env.pwm = false := by
  refine ⟨by decide, ?_, rfl⟩
  rw [follows_of_skip (by decide)]
  decide

end HashRatio.Fan
