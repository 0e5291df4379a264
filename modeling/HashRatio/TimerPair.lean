import HashRatio.Timer

/-!
# One timer's calls and the other timer

Every call reads the register and writes it back with changes. `timer_set` and
the mask functions keep the other mask; `timer_int_clean` writes it as 0, and
`timer1_isr` acknowledges the line of timer 0.
-/

namespace HashRatio.TimerPair
open Bytes Drivers Timer

/-! ### Calls for one timer -/

inductive Call where
  | timerSet (load : Byte)
  | timerMaskSet
  | timerMaskClean
  | timerIntClean
  | isr
  deriving DecidableEq, Repr

/-- Between the calls the clock runs and other registers are accessed; `i` and `j` as in
`timerBoard`. -/
inductive Event where
  | idle
  | read (adr : BitVec 6)
  | write (adr : BitVec 6) (dat : Word) (other : adr ≠ time)
  | call (c : Call) (i j : ℕ)

def timerIsr (b : Board Idle) (d : Dev Idle) (timer : ℕ) : Dev Idle × Word :=
  if timer = 0 then timer0Isr b d else timer1Isr b d

def exec (timer i j : ℕ) (d : Dev Idle) : Call → Dev Idle
  | .timerSet load => Drivers.timerSet (timerBoard i j) d timer load
  | .timerMaskSet => Drivers.timerMaskSet (timerBoard i j) d timer
  | .timerMaskClean => Drivers.timerMaskClean (timerBoard i j) d timer
  | .timerIntClean => Drivers.timerIntClean (timerBoard i j) d timer
  | .isr => (timerIsr (timerBoard i j) d timer).1

def step (timer : ℕ) (d : Dev Idle) : Event → Dev Idle
  | .idle => {d with env := pass d.env}
  | .read adr => {d with env := bus d.env false adr 0}
  | .write adr dat _ => {d with env := bus d.env true adr dat}
  | .call c i j => exec timer i j d c

/-- The masks given to `irq_ack` on the way. -/
def acks (timer : ℕ) : Dev Idle → List Event → List Word
  | _, [] => []
  | d, .call .isr i j :: es =>
    (timerIsr (timerBoard i j) d timer).2 :: acks timer (step timer d (.call .isr i j)) es
  | d, e :: es => acks timer (step timer d e) es

def edges : Event → ℕ
  | .idle => 1
  | .read _ | .write .. => 2
  | .call _ i j => (i + 2) + (j + 2)

def otherTimer (timer : ℕ) : ℕ := if timer = 0 then 1 else 0

def irqLine (timer : ℕ) : Word := if timer = 0 then irqTimer0 else irqTimer1

/-- The other timer is where the clock alone would have brought it, and only the own line was
acknowledged. -/
structure Independent (timer : ℕ) (d : Dev Idle) (es : List Event) : Prop where
  half : (Run.run (step timer) d es).env.half (otherTimer timer) =
    (passes (es.map edges).sum d.env).half (otherTimer timer)
  acks : ∀ w ∈ acks timer d es, w = irqLine timer

/-! ### What a call writes -/

/-- The word written, from the masks read. -/
def written (timer : ℕ) (tmp : Word) : Call → Word
  | .timerSet load =>
    if timer = 0 then ((load.setWidth 32 <<< 2) ||| 1) ||| tmp
      else (((load.setWidth 32 <<< 2) ||| 1) <<< 16) ||| tmp
  | .timerMaskSet => if timer = 0 then tmp ||| 0x2 else tmp ||| 0x20000
  | .timerMaskClean => if timer = 0 then tmp &&& 0xfffffffd else tmp &&& 0xfffdffff
  | .timerIntClean | .isr =>
    if timer = 0 then (tmp &&& 0x2) ||| 0x100 else (tmp &&& 0x20000) ||| 0x1000000

def modify (i j : ℕ) (r : Idle) (f : Word → Word) : Idle :=
  bus (passes j (bus (passes i r) false time 0)) true time (f (readValue (passes i r) &&& 0x20002))

theorem exec_env (timer i j : ℕ) (d : Dev Idle) (c : Call) :
    (exec timer i j d c).env = modify i j d.env fun tmp => written timer tmp c := by
  have hand (v mask : Word) (hmask : mask &&& 0x20002 = mask) :
      v &&& 0x20002 &&& mask = v &&& mask := by
    rw [BitVec.and_assoc, BitVec.and_comm 0x20002, hmask]
  by_cases ht : timer = 0
  · subst ht
    cases c with
    | timerSet load | timerMaskSet | timerMaskClean => rfl
    | timerIntClean | isr =>
      rw [modify, written, if_pos rfl, hand _ 0x2 (by decide)]
      rfl
  · cases c with
    | timerSet load | timerMaskSet | timerMaskClean =>
      simp only [modify, written, exec, Drivers.timerSet, Drivers.timerMaskSet,
        Drivers.timerMaskClean, if_neg ht]
      rfl
    | timerIntClean | isr =>
      simp only [modify, written, if_neg ht]
      rw [hand _ 0x20000 (by decide)]
      simp only [exec, timerIsr, timer1Isr, Drivers.timerIntClean, if_neg ht]
      rfl

def Call.clears : Call → Bool
  | .timerIntClean | .isr => true
  | _ => false

theorem timerSet0_bits : ∀ (load : Byte) (mask0 mask1 : Bool),
    let dat := halfDat (((load.setWidth 32 <<< 2) ||| 1) ||| maskWord mask0 mask1) 1
    dat.getLsbD 0 = false ∧ dat.getLsbD 8 = false ∧ dat.getLsbD 1 = mask1 := by
  decide +kernel

theorem timerSet1_bits : ∀ (load : Byte) (mask0 mask1 : Bool),
    let dat := halfDat ((((load.setWidth 32 <<< 2) ||| 1) <<< 16) ||| maskWord mask0 mask1) 0
    dat.getLsbD 0 = false ∧ dat.getLsbD 8 = false ∧ dat.getLsbD 1 = mask0 := by
  decide +kernel

/-- The other half of the word: no load, no clear, and the mask unless the call clears the own
flag. -/
theorem written_bits (timer : ℕ) (mask0 mask1 : Bool) (c : Call) :
    let dat := halfDat (written timer (maskWord mask0 mask1) c) (otherTimer timer)
    dat.getLsbD 0 = false ∧ dat.getLsbD 8 = false ∧
      dat.getLsbD 1 = (!c.clears && if timer = 0 then mask1 else mask0) := by
  by_cases ht : timer = 0
  · simp only [otherTimer, ht, if_true]
    cases c with
    | timerSet load => exact timerSet0_bits load mask0 mask1
    | timerMaskSet | timerMaskClean | timerIntClean | isr =>
      revert mask0 mask1
      decide +kernel
  · simp only [otherTimer, ht, if_false, written]
    cases c with
    | timerSet load => exact timerSet1_bits load mask0 mask1
    | timerMaskSet | timerMaskClean | timerIntClean | isr =>
      revert mask0 mask1
      decide +kernel

section modify
variable {timer : ℕ}

/-- The state of the peripheral when a call writes. -/
def atWrite (i j : ℕ) (r : Idle) : Idle := passes j (bus (passes i r) false time 0)

theorem atWrite_mask (i j : ℕ) (r : Idle) (t : ℕ) :
    ((atWrite i j r).half t).timMask = (r.half t).timMask := by
  rw [atWrite, passes_mask, bus_mask]
  exact passes_mask i r

theorem atWrite_alike {r r' : Idle} {t : ℕ} (h : Alike t r.toTimers r'.toTimers) (i j : ℕ) :
    Alike t (atWrite i j r).toTimers (passes (i + 2 + j) r').toTimers := by
  rw [passes_add, passes_add]
  exact ((h.passes i).bus (Or.inl rfl)).passes j

theorem modify_written (i j : ℕ) (r : Idle) (c : Call) :
    modify i j r (fun tmp => written timer tmp c) =
      bus (atWrite i j r) true time
        (written timer (maskWord (r.half 0).timMask (r.half 1).timMask) c) := by
  have hmasks : readValue (passes i r) &&& 0x20002 =
      maskWord (r.half 0).timMask (r.half 1).timMask := by
    have hmask (t : ℕ) : ((passes i r).half t).timMask = (r.half t).timMask := passes_mask i r
    rw [readValue_and]
    exact congrArg₂ maskWord (hmask 0) (hmask 1)
  rw [modify, hmasks, atWrite]

theorem otherMask_eq (r : Idle) :
    (if timer = 0 then (r.half 1).timMask else (r.half 0).timMask) =
      (r.half (otherTimer timer)).timMask := by
  rw [otherTimer]
  split <;> rfl

theorem exec_mask (i j : ℕ) (d : Dev Idle) (c : Call) :
    ((exec timer i j d c).env.half (otherTimer timer)).timMask =
      (!c.clears && (d.env.half (otherTimer timer)).timMask) := by
  have hbits := (written_bits timer (d.env.half 0).timMask (d.env.half 1).timMask c).2.2
  rw [otherMask_eq] at hbits
  rw [exec_env, modify_written, bus_mask]
  exact hbits

theorem exec_alike {r' : Idle} (i j : ℕ) (d : Dev Idle) (c : Call)
    (hsafe : c.clears = true → (d.env.half (otherTimer timer)).timMask = false)
    (h : Alike (otherTimer timer) d.env.toTimers r'.toTimers) :
    Alike (otherTimer timer) (exec timer i j d c).env.toTimers
      (passes (i + 2 + (j + 2)) r').toTimers := by
  obtain ⟨hload, hclear, hmask⟩ :=
    written_bits timer (d.env.half 0).timMask (d.env.half 1).timMask c
  have hkept : (!c.clears && (d.env.half (otherTimer timer)).timMask) =
      ((atWrite i j d.env).half (otherTimer timer)).timMask := by
    rw [atWrite_mask]
    cases hc : c.clears with
    | false => rfl
    | true => exact (hsafe hc).symm
  rw [otherMask_eq, hkept] at hmask
  rw [exec_env, modify_written, ← Nat.add_assoc, passes_add]
  exact (atWrite_alike h i j).bus (Or.inr ⟨hload, hclear, hmask⟩)

end modify

/-! ### Runs -/

def Event.clears : Event → Bool
  | .call c _ _ => c.clears
  | _ => false

def Event.services : Event → Bool
  | .call .isr _ _ => true
  | _ => false

section runs
variable {timer : ℕ}

theorem step_mask (d : Dev Idle) (e : Event) :
    ((step timer d e).env.half (otherTimer timer)).timMask =
      (!e.clears && (d.env.half (otherTimer timer)).timMask) := by
  cases e with
  | idle => exact passes_mask 1 d.env
  | read adr => exact bus_mask d.env false adr 0
  | write adr dat other =>
    have hadr : (adr == time) = false := beq_eq_false_iff_ne.mpr other
    rw [step, bus_mask, hadr]
    rfl
  | call c i j => exact exec_mask i j d c

theorem step_alike {r' : Idle} (d : Dev Idle) (e : Event)
    (hsafe : e.clears = true → (d.env.half (otherTimer timer)).timMask = false)
    (h : Alike (otherTimer timer) d.env.toTimers r'.toTimers) :
    Alike (otherTimer timer) (step timer d e).env.toTimers (passes (edges e) r').toTimers := by
  cases e with
  | idle => exact h.passes 1
  | read adr => exact h.bus (Or.inl rfl)
  | write adr dat other =>
    have hadr : (adr == time) = false := beq_eq_false_iff_ne.mpr other
    exact h.bus (Or.inl hadr)
  | call c i j => exact exec_alike i j d c hsafe h

theorem run_mask (d : Dev Idle) (es : List Event) :
    ((Run.run (step timer) d es).env.half (otherTimer timer)).timMask =
      (!es.any Event.clears && (d.env.half (otherTimer timer)).timMask) := by
  induction es generalizing d with
  | nil => rfl
  | cons e es ih =>
    rw [Run.run_cons, ih, step_mask, List.any_cons, Bool.not_or, ← Bool.and_assoc,
      Bool.and_comm (!es.any _)]

theorem run_alike {r' : Idle} (d : Dev Idle) (es : List Event)
    (hsafe : es.any Event.clears = true → (d.env.half (otherTimer timer)).timMask = false)
    (h : Alike (otherTimer timer) d.env.toTimers r'.toTimers) :
    Alike (otherTimer timer) (Run.run (step timer) d es).env.toTimers
      (passes (es.map edges).sum r').toTimers := by
  induction es generalizing d r' with
  | nil => exact h
  | cons e es ih =>
    rw [List.any_cons, Bool.or_eq_true] at hsafe
    have hstep := step_alike d e (fun he => hsafe (Or.inl he)) h
    have hrest : es.any Event.clears = true →
        ((step timer d e).env.half (otherTimer timer)).timMask = false := by
      intro hes
      rw [step_mask, hsafe (Or.inr hes), Bool.and_false]
    rw [Run.run_cons, List.map_cons, List.sum_cons, passes_add]
    exact ih _ hrest hstep

theorem acks_eq (d : Dev Idle) (es : List Event) :
    acks timer d es = List.replicate (es.countP Event.services) irqTimer0 := by
  induction es generalizing d with
  | nil => rfl
  | cons e es ih =>
    cases e with
    | idle => exact ih _
    | read adr => exact ih _
    | write adr dat other => exact ih _
    | call c i j =>
      cases c with
      | isr =>
        have hack : (timerIsr (timerBoard i j) d timer).2 = irqTimer0 := by
          rw [timerIsr]
          split <;> rfl
        have hcount : (Event.call .isr i j :: es).countP Event.services =
            es.countP Event.services + 1 :=
          List.countP_cons_of_pos rfl
        rw [acks, hack, ih, hcount, List.replicate_succ]
      | timerSet load => exact ih _
      | timerMaskSet => exact ih _
      | timerMaskClean => exact ih _
      | timerIntClean => exact ih _

theorem acks_iff (d : Dev Idle) (es : List Event) :
    (∀ w ∈ acks timer d es, w = irqLine timer) ↔ timer = 0 ∨ es.any Event.services = false := by
  have hline : irqTimer0 = irqLine timer ↔ timer = 0 := by
    rw [irqLine]
    by_cases ht : timer = 0
    · rw [if_pos ht]
      exact iff_of_true rfl ht
    · rw [if_neg ht]
      exact iff_of_false (by decide) ht
  have hnone : es.countP Event.services = 0 ↔ es.any Event.services = false := by
    rw [List.countP_eq_zero, List.any_eq_false]
  rw [acks_eq, List.forall_mem_replicate, hline, hnone, or_comm]

end runs

/-- **The calls for one timer leave the other alone exactly when it is unmasked, or none of them
clears the own flag; and of the lines only the own is acknowledged exactly when no interrupt of
timer 1 is serviced.** -/
theorem independent_iff (timer : ℕ) (d : Dev Idle) (es : List Event) :
    Independent timer d es ↔
      ((d.env.half (otherTimer timer)).timMask = false ∨ es.any Event.clears = false) ∧
        (timer = 0 ∨ es.any Event.services = false) := by
  constructor
  · intro h
    refine ⟨?_, (acks_iff d es).mp h.acks⟩
    have hmask := congrArg Half.timMask h.half
    rw [run_mask, passes_mask] at hmask
    cases hclears : es.any Event.clears with
    | false => exact Or.inr rfl
    | true =>
      rw [hclears] at hmask
      exact Or.inl hmask.symm
  · rintro ⟨hclear, hack⟩
    have hsafe : es.any Event.clears = true → (d.env.half (otherTimer timer)).timMask = false := by
      intro hes
      rcases hclear with hmask | hnone
      · exact hmask
      · rw [hnone] at hes
        cases hes
    exact ⟨(run_alike d es hsafe ⟨rfl, rfl⟩).half, (acks_iff d es).mpr hack⟩

/-- After a reset: both timers masked. -/
def powerUp : Dev Idle :=
  ⟨⟨⟨false, 0, ⟨0, 0, false, true⟩, ⟨0, 0, false, true⟩⟩, rfl⟩, fun _ => 0, 0x3ff, []⟩

/-- One flag cleared unmasks the other timer, and the service of timer 1 acknowledges timer 0. -/
theorem service_disturbs :
    ((Run.run (step 0) powerUp [.call .timerIntClean 0 0]).env.half 1).timMask = false ∧
      acks 1 powerUp [.call .isr 0 0] = [irqTimer0] ∧
      ¬Independent 0 powerUp [.call .timerIntClean 0 0] ∧
      ¬Independent 1 powerUp [.call .isr 0 0] := by
  refine ⟨rfl, rfl, fun h => ?_, fun h => ?_⟩
  · have hmask := congrArg Half.timMask h.half
    cases hmask
  · have hack := h.acks irqTimer0 (List.mem_cons_self ..)
    revert hack
    decide

end HashRatio.TimerPair
