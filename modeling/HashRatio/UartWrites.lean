import HashRatio.UartDriver

/-!
# Bytes written to the line (uart_write)

The bytes given to `uart_write` leave on the line as frames, and its polls end. While
it runs the handler does not come, so that what is in the FIFO only gets less.
-/

namespace HashRatio.UartWrites
open Bytes Clocked UartCore UartSend UartDriver Serial Run

variable {F G : Type}

/-! ### Bytes out on the line -/

def IsGap : Ev → Prop
  | .gap _ _ => True
  | _ => False

section quiet
variable {p : Parts F G} {v : View p.tx} {u : View p.rx} {n : ℕ}

theorem calm_phase {s : Core F G} {heard : List Bool} {c : Cycle} (hbase : Base p v s heard)
    (hthr : s.thrWr c = none) (h : Phase v 868 n s.sender) (sin : Bool) :
    Phase v 868 (n - 1) (s.next p c sin).sender := by
  have hdiv : s.intface.divisor.toNat = 868 := by
    rw [hbase.divisor]
    rfl
  have hsender : (s.next p c sin).sender = s.sender.next p.tx s.lcr 868 none := by
    rw [← hdiv, ← hthr]
    rfl
  have hnext := phase_next (w := none) hbase.plain (by decide) h
  have hintake : s.sender.intake p.tx none = [] := by
    rw [Sender.intake, Sender.thrWrStrobe, ite_self, Fifo.takes, Option.toList, ite_self]
  rw [hintake, List.length_nil, Nat.zero_mul, Nat.add_zero] at hnext
  rwa [hsender]

theorem gaps_phase (u : View p.rx) {s : Sys F G} (hgood : Good p v s)
    (h : Phase v 868 n s.core.sender) (gs : List Ev) (hgs : ∀ e ∈ gs, IsGap e) :
    Phase v 868 (n - gs.length) (run (exec p) s gs).core.sender ∧ given p s gs = [] ∧
      (run (exec p) s gs).pc = s.pc := by
  induction gs generalizing s n with
  | nil => exact ⟨h, rfl, rfl⟩
  | cons e gs ih =>
    obtain ⟨he, hrest⟩ := List.forall_mem_cons.mp hgs
    cases e with
    | gap c sin =>
      have hthr : s.core.thrWr {c with stb := false} = none := by simp [Core.thrWr]
      obtain ⟨hphase, hnone, hpc⟩ :=
        ih (good_exec u hgood (.gap c sin)) (calm_phase hgood.base hthr h sin) hrest
      rw [Nat.sub_sub, Nat.add_comm] at hphase
      refine ⟨hphase, ?_, hpc⟩
      rw [given, called_nil s.pc fun _ => Ev.noConfusion, hnone, List.nil_append]
    | _ => exact absurd he id

end quiet

/-- From reset on, whatever else happens and when, the line carries the bytes given to `uart_write`,
each once and in their order, frame by frame; what is still in the FIFO, on its way or waiting for
room follows when the program lets it. -/
theorem writes_framed (p : Parts F G) (v : View p.tx) (u : View p.rx)
    (lsr : BitVec 7) (es : List Ev) :
    let s := run (exec p) (Sys.start p lsr) es
    (∃ (fs : List (ℕ × Byte)) (tail : ℕ) (cur : Option Byte) (k : ℕ), k < 10 * 869 ∧
      s.core.sender.line =
        true :: (wave 869 fs tail ++ cur.toList.flatMap fun w => (frame 869 w).take k) ∧
      given p (Sys.start p lsr) es =
        fs.map Prod.snd ++ cur.toList ++ v.held s.core.sender.fifo ++ s.pc.pending) ∧
    ∀ gs : List Ev, (∀ e ∈ gs, IsGap e) →
      ((v.held s.core.sender.fifo).length + 1) * cost v 868 ≤ gs.length →
      ∃ fs tail, (run (exec p) s gs).core.sender.line = true :: wave 869 fs tail ∧
        given p (Sys.start p lsr) es = fs.map Prod.snd ++ s.pc.pending := by
  intro s
  have hgood : Good p v s := run_good p v u lsr es
  have hgiven : s.core.sender.accepted ++ s.pc.pending = given p (Sys.start p lsr) es :=
    run_accepted u (good_start p v lsr) es
  obtain ⟨n, hphase⟩ := hgood.base.sender
  refine ⟨?_, fun gs hgs hlen => ?_⟩
  · obtain ⟨fs, tail, cur, k, hk, hline, hacc⟩ := phase_line hphase
    exact ⟨fs, tail, cur, k, hk, hline, by rw [← hgiven, hacc]⟩
  · obtain ⟨hquiet, hnone, hpc⟩ := gaps_phase u hgood (phase_due hphase) gs hgs
    rw [Nat.sub_eq_zero_of_le hlen] at hquiet
    obtain ⟨fs, tail, hline, hacc⟩ := (phase_drained hquiet).2
    have hmore := run_accepted u hgood gs
    rw [hnone, hpc, List.append_nil, hgiven] at hmore
    exact ⟨fs, tail, hline, by rw [hacc, hmore]⟩

/-- The handler comes after the first write of `uart_init`; then two bytes are written. -/
def twoWrites : List Ev :=
  [.access true true, .uartIsr] ++ List.replicate 5 (.access true true) ++
    [.uartWrite 0x41, .access true true, .access true true, .uartWrite 0x42, .access true true,
      .access true true]

theorem twoWrites_given : given plainParts (Sys.start plainParts 0) twoWrites = [0x41, 0x42] ∧
    (run (exec plainParts) (Sys.start plainParts 0) twoWrites).pc = .rest := by decide +kernel

def idleGaps (n : ℕ) : List Ev := List.replicate n (.gap (read rbrAddr) true)

theorem writes_framed_two : ∃ fs tail,
    (run (exec plainParts) (run (exec plainParts) (Sys.start plainParts 0) twoWrites)
      (idleGaps 30000)).core.sender.line =
      true :: wave 869 fs tail ∧ fs.map Prod.snd = [0x41, 0x42] := by
  obtain ⟨hgiven, hpc⟩ := twoWrites_given
  obtain ⟨fs, tail, hline, hbytes⟩ :=
    (writes_framed plainParts (ofDepth.view 1022 0) (ofDepth.view 1022 0) 0 twoWrites).2
      (idleGaps 30000) (fun e he => by rw [List.eq_of_mem_replicate he]; trivial)
      (by rw [idleGaps, List.length_replicate]; decide +kernel)
  rw [hpc, rest_pending, List.append_nil, hgiven] at hbytes
  exact ⟨fs, tail, hline, hbytes.symm⟩

/-! ### The end of the polls -/

/-- At most `m` accesses and `c` is accepted. -/
inductive Waits (p : Parts F G) (v : View p.tx) (c : Byte) (acc : List Byte)
    (s : Sys F G) : ℕ → Prop
  | poll {n : ℕ} (hpc : s.pc = .poll c) (hphase : Phase v 868 n s.core.sender)
      (hacc : s.core.sender.accepted = acc) :
      Waits p v c acc s (n + 3)
  | ready (hpc : s.pc = .poll c) (hthrr : s.core.sender.tx.thrReady = true)
      (hfull : p.tx.full s.core.sender.fifo = false) (hacc : s.core.sender.accepted = acc) :
      Waits p v c acc s 2
  | put (hpc : s.pc = .put c) (hacc : s.core.sender.accepted = acc) : Waits p v c acc s 1
  | done (hacc : acc ++ [c] <+: s.core.sender.accepted) : Waits p v c acc s 0

def isAccess : Ev → Bool
  | .access _ _ => true
  | _ => false

section waits
variable {p : Parts F G} {v : View p.tx} {u : View p.rx} {n : ℕ} {c : Byte} {acc : List Byte}

theorem phase_room {s : Core F G} (h : Phase v 868 0 s.sender) :
    p.tx.full s.sender.fifo = false := by
  refine v.room _ ?_
  cases hempty : p.tx.empty s.sender.fifo with
  | true => rfl
  | false => exact absurd (phase_drained h).1 (v.nonempty _ hempty)

theorem waits_gap {s : Sys F G} (hgood : Good p v s) {m : ℕ} (h : Waits p v c acc s m)
    (cy : Cycle) (sin : Bool) :
    ∃ k ≤ m, Waits p v c acc (exec p s (.gap cy sin)) k := by
  have hthr : s.core.thrWr {cy with stb := false} = none := by simp [Core.thrWr]
  have hkeep : (exec p s (.gap cy sin)).core.sender.accepted = s.core.sender.accepted :=
    noPut_accepted fun hstb => by cases hstb
  cases h with
  | @poll n hpc hphase hacc =>
    exact ⟨n - 1 + 3,
      by omega, .poll hpc (calm_phase hgood.base hthr hphase sin) (hkeep.trans hacc)⟩
  | ready hpc hthrr hfull hacc =>
    refine ⟨2, Nat.le_refl 2, .ready hpc ?_ (calm_full v hthr hfull) (hkeep.trans hacc)⟩
    change (!p.tx.full s.core.sender.fifo) = true
    rw [hfull, Bool.not_false]
  | put hpc hacc => exact ⟨1, Nat.le_refl 1, .put hpc (hkeep.trans hacc)⟩
  | done hacc => exact ⟨0, Nat.le_refl 0, .done (hkeep ▸ hacc)⟩

/-- While `uart_write` runs it is not called again, and the handler does not come. -/
theorem waits_pc {s : Sys F G} {m : ℕ} (h : Waits p v c acc s m) (f : Pc → Pc)
    (hpoll : f (.poll c) = .poll c) (hput : f (.put c) = .put c) :
    Waits p v c acc {s with pc := f s.pc} m := by
  cases h with
  | poll hpc hphase hacc => exact .poll (by rw [hpc, hpoll]) hphase hacc
  | ready hpc hthrr hfull hacc => exact .ready (by rw [hpc, hpoll]) hthrr hfull hacc
  | put hpc hacc => exact .put (by rw [hpc, hput]) hacc
  | done hacc => exact .done hacc

theorem access_grows (s : Sys F G) (sin sin' : Bool) :
    s.core.sender.accepted <+: (s.access p sin sin').core.sender.accepted := by
  unfold Sys.access
  cases s.pc.cycle with
  | none => exact List.prefix_rfl
  | some cy => exact (List.prefix_append ..).trans (List.prefix_append ..)

theorem waits_access {s : Sys F G} (hgood : Good p v s) {m : ℕ} (h : Waits p v c acc s m)
    (sin sin' : Bool) :
    ∃ k ≤ m - 1, Waits p v c acc (exec p s (.access sin sin')) k := by
  have hcalm (cy : Core F G) : cy.thrWr (read lsrAddr) = none := noPut_thrWr (read_proper lsrAddr).2
  have hkeep : (busAccess p s.core (read lsrAddr) sin sin').1.sender.accepted =
      s.core.sender.accepted :=
    (noPut_access v (read_proper lsrAddr).2).1
  have hpoll (hpc : s.pc = .poll c) : exec p s (.access sin sin') =
      { core := (busAccess p s.core (read lsrAddr) sin sin').1
        pc := Pc.next (busAccess p s.core (read lsrAddr) sin sin').2 (.poll c)
        rxBuf := s.rxBuf
        heard := s.heard ++ [sin, sin'] } := by
    simp [exec, Sys.access, hpc, Pc.cycle, Pc.stored]
  cases h with
  | @poll n hpc hphase hacc =>
    rw [hpoll hpc, Pc.next]
    have hfirst := calm_phase hgood.base (hcalm _) hphase sin
    have hbase : Base p v (s.core.next p (read lsrAddr) sin) (s.heard ++ [sin]) :=
      base_next (read_proper lsrAddr).1 hgood.base
    have hsecond := calm_phase hbase (hcalm _) hfirst sin'
    split
    · cases n with
      | zero =>
        have hfull : p.tx.full (s.core.next p (read lsrAddr) sin).sender.fifo = false :=
          phase_room hfirst
        refine ⟨2, by omega, .ready rfl ?_ (calm_full v (hcalm _) hfull) (hkeep.trans hacc)⟩
        change (!p.tx.full (s.core.next p (read lsrAddr) sin).sender.fifo) = true
        rw [hfull, Bool.not_false]
      | succ n => exact ⟨n + 1 - 1 - 1 + 3, by omega, .poll rfl hsecond (hkeep.trans hacc)⟩
    · exact ⟨1, by omega, .put rfl (hkeep.trans hacc)⟩
  | ready hpc hthrr hfull hacc =>
    rw [hpoll hpc, Pc.next, if_neg]
    · exact ⟨1, Nat.le_refl 1, .put rfl (hkeep.trans hacc)⟩
    · exact (lsr_bits _ _ _ _ _ _ _).1.mpr (.inr hthrr)
  | put hpc hacc =>
    have hgiven := access_accepted hgood sin sin'
    have hnext : (s.access p sin sin').pc = .rest := by simp [Sys.access, hpc, Pc.cycle, Pc.next]
    rw [hpc, hnext, rest_pending, put_pending, List.append_nil, hacc] at hgiven
    exact ⟨0, Nat.le_refl 0, .done (hgiven ▸ List.prefix_rfl)⟩
  | done hacc => exact ⟨0, Nat.le_refl 0, .done (hacc.trans (access_grows s sin sin'))⟩

theorem waits_run (u : View p.rx) {s : Sys F G} (hgood : Good p v s) {m : ℕ}
    (h : Waits p v c acc s m) (es : List Ev) :
    ∃ k ≤ m - es.countP isAccess, Waits p v c acc (run (exec p) s es) k := by
  induction es generalizing s m with
  | nil => exact ⟨m, Nat.le_refl m, h⟩
  | cons e es ih =>
    have hstep : ∃ k ≤ m - if isAccess e then 1 else 0, Waits p v c acc (exec p s e) k := by
      cases e with
      | gap cy sin => exact waits_gap hgood h cy sin
      | uartWrite b => exact ⟨m, Nat.le_refl m, waits_pc h (Pc.call b) rfl rfl⟩
      | uartIsr => exact ⟨m, Nat.le_refl m, waits_pc h Pc.interrupt rfl rfl⟩
      | access sin sin' => exact waits_access hgood h sin sin'
    obtain ⟨k, hk, hnext⟩ := hstep
    obtain ⟨k', hk', hrun⟩ := ih (good_exec u hgood e) hnext
    refine ⟨k', ?_, hrun⟩
    rw [List.countP_cons]
    omega

end waits

/-- `uart_write` comes back: the FIFO has room after as many accesses as it takes to send what is in
it, whatever else happens. -/
theorem write_returns (p : Parts F G) (v : View p.tx) (u : View p.rx) (lsr : BitVec 7)
    (es : List Ev) {c : Byte}
    (hpc : (run (exec p) (Sys.start p lsr) es).pc = .poll c) (es' : List Ev)
    (hlen :
      ((v.held (run (exec p) (Sys.start p lsr) es).core.sender.fifo).length + 1) * cost v 868 + 3 ≤
      es'.countP isAccess) :
    (run (exec p) (Sys.start p lsr) es).core.sender.accepted ++ [c] <+:
      (run (exec p) (Sys.start p lsr) (es ++ es')).core.sender.accepted := by
  have hgood := run_good p v u lsr es
  obtain ⟨n, hphase⟩ := hgood.base.sender
  obtain ⟨k, hk, hwaits⟩ := waits_run u hgood (.poll hpc (phase_due hphase) rfl) es'
  obtain rfl : k = 0 := by omega
  rw [run_append]
  generalize run (exec p) (run (exec p) (Sys.start p lsr) es) es' = s' at hwaits
  cases hwaits with
  | done hacc => exact hacc

/-- A second byte is written right after the first. -/
def secondWrite : List Ev :=
  [.access true true, .uartIsr] ++ List.replicate 5 (.access true true) ++
    [.uartWrite 0x41, .access true true, .access true true, .uartWrite 0x42]

theorem write_returns_second :
    let s := run (exec plainParts) (Sys.start plainParts 0) secondWrite
    s.core.sender.accepted = [0x41] ∧
    s.core.sender.accepted ++ [0x42] <+:
      (run (exec plainParts) (Sys.start plainParts 0)
        (secondWrite ++ List.replicate 30000 (.access true true))).core.sender.accepted :=
  ⟨by decide +kernel,
    write_returns plainParts (ofDepth.view 1022 0) (ofDepth.view 1022 0) 0 secondWrite
      (by decide +kernel) _ (by rw [List.countP_replicate]; decide +kernel)⟩

end HashRatio.UartWrites
