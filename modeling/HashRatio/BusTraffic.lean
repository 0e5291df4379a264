import HashRatio.BusRuns
import HashRatio.UartCore
import HashRatio.Spi
import HashRatio.Sha
import HashRatio.Twi

/-!
# The bus as a device sees it

The accesses the models of the devices are driven by are those of the shared bus: the
strobe stands still until the acknowledge, and a clock without it follows.
-/

namespace HashRatio.BusTraffic
open Bytes LoadStore SocBus BusRuns Run

/-! ### The models of the devices behind the bus -/

/-- The strobe of a device and what is on the bus. -/
abbrev Seen : Type := Bool × Req

section models

/-- The byte of `uartUART_DAT_I`. -/
def uartDatI (r : Req) : Byte :=
  if r.adr.extractLsb' 0 2 = 0 then r.dat.extractLsb' 24 8
  else if r.adr.extractLsb' 0 2 = 1 then r.dat.extractLsb' 16 8
  else if r.adr.extractLsb' 0 2 = 2 then r.dat.extractLsb' 8 8
  else r.dat.extractLsb' 0 8

def uartCycle (x : Seen) : UartCore.Cycle := ⟨x.1, x.2.we, x.2.adr.extractLsb' 0 4, uartDatI x.2⟩

/-- A device with its own CYC has it with its strobe. -/
def spiCycle (x : Seen) : Spi.Cycle := ⟨x.1, x.1, x.2.we, x.2.adr.extractLsb' 0 8, x.2.dat⟩

def shaWires (x : Seen) : Sha.Wires := ⟨false, x.1, x.2.we, x.2.adr.extractLsb' 0 5, x.2.dat⟩

def twiCycle (x : Seen) : Twi.Cycle := ⟨false, x.1, x.2.we, x.2.adr.extractLsb' 0 6, x.2.dat⟩

/-- The model of the device, driven by `seen`, comes to the handshake `a`, whatever else comes
in. -/
def Acknowledges (d : Device) (seen : List Seen) (a : Handshake) : Prop :=
  match d with
  | .uart | .uartDebug =>
    ∀ (F G : Type) (p : UartCore.Parts F G) (u : UartCore.Core F G) (es : List (Seen × Bool)),
      u.intface.ackO = false → es.map Prod.fst = seen →
        (run (fun u e => u.next p (uartCycle e.1) e.2) u es).intface.ackO = a.ack
  | .spi _ =>
    let port := run Spi.Port.next .reset (seen.map spiCycle)
    a = ⟨port.ack, port.readWaitDone⟩
  | .sha => ∀ r : Sha.Regs, r.ack = false → (run Sha.clock r (seen.map shaWires)).ack = a.ack
  | .twi => (run Twi.tick .reset (seen.map twiCycle)).ack = a.ack
  | .gpio => a = ⟨false, false⟩

theorem acknowledges_nil (d : Device) : Acknowledges d [] ⟨false, false⟩ := by
  cases d with
  | uart | uartDebug =>
    intro F G p u es hu hes
    rw [List.map_eq_nil_iff.mp hes]
    exact hu
  | sha => exact fun _ hr => hr
  | _ => rfl

theorem acknowledges_next {d : Device} {seen : List Seen} {a : Handshake}
    (h : Acknowledges d seen a) (x : Seen) :
    Acknowledges d (seen ++ [x]) (d.handshake a x.1 x.1 x.2.we) := by
  cases d with
  | uart | uartDebug =>
    intro F G p u es hu hes
    obtain ⟨es, last, rfl, hseen, hlast⟩ := List.map_eq_append_iff.mp hes
    obtain ⟨e, rfl, rfl⟩ := List.map_eq_singleton_iff.mp hlast
    rw [run_append, Device.handshake, Bool.and_self, ← h F G p u es hu hseen]
    rfl
  | spi k =>
    simp only [Acknowledges, List.map_append, List.map_cons, List.map_nil, run_append,
      run_cons, run_nil]
    rw [show a = _ from h]
    rfl
  | sha =>
    intro r hr
    rw [List.map_append, run_append, Device.handshake, ← h r hr]
    rfl
  | twi =>
    simp only [Acknowledges, List.map_append, List.map_cons, List.map_nil, run_append,
      run_cons, run_nil]
    rw [Twi.tick_ack _ rfl, show (run Twi.tick .reset (seen.map twiCycle)).ack = a.ack from h]
    rfl
  | gpio => rfl

end models

/-! ### How long an access stands -/

/-- Clocks from the strobe to the acknowledge. -/
def span (d : Device) (r : Req) : ℕ :=
  match d with
  | .spi _ => if r.we then 2 else 3
  | _ => 2

/-- The acknowledge register after `k` clocks of it. -/
def held (d : Device) (r : Req) (k : ℕ) : Handshake :=
  ⟨decide (k + 1 = span d r), match d with | .spi _ => decide (0 < k) && !r.we | _ => false⟩

theorem span_pos (d : Device) (r : Req) : 2 ≤ span d r := by
  unfold span
  split
  · split <;> decide
  · exact Nat.le_refl 2

theorem held_ack (d : Device) (r : Req) (k : ℕ) : (held d r k).ack = decide (k + 1 = span d r) :=
  rfl

theorem held_zero (d : Device) (r : Req) : held d r 0 = ⟨false, false⟩ := by
  have := span_pos d r
  cases d <;> simp [held] <;> omega

theorem held_next {d : Device} {r : Req} {k : ℕ} (hd : d ≠ .gpio) (hk : k + 1 < span d r) :
    d.handshake (held d r k) true true r.we = held d r (k + 1) := by
  cases d with
  | gpio => exact absurd rfl hd
  | spi n =>
    cases hwe : r.we with
    | true =>
      simp only [span, hwe, if_true] at hk
      obtain rfl : k = 0 := by omega
      simp [Device.handshake, held, span, hwe]
    | false =>
      simp only [span, hwe] at hk
      obtain rfl | rfl : k = 0 ∨ k = 1 := by simp at hk; omega
      all_goals simp [Device.handshake, held, span, hwe]
  | _ =>
    simp only [span] at hk
    obtain rfl : k = 0 := by omega
    rfl

/-! ### Runs -/

def strobed (s : Soc) (d : Device) : Bool := s.shared.stb && d.en s.shared.req.adr

def seenAt (s : Soc) (d : Device) : Seen := (strobed s d, s.shared.req)

/-- With what a device has seen before every clock. -/
structure Log where
  watch : Watch
  seen : Device → List Seen

def Log.reset : Log := ⟨Watch.reset, fun _ => []⟩

def Log.next (l : Log) (c : Clock) : Log :=
  ⟨l.watch.next c, fun d => l.seen d ++ [seenAt l.watch.soc d]⟩

/-- Clocks without the strobe, and the access after them. -/
structure Access where
  gap : List Req
  req : Req
  deriving DecidableEq, Repr

def silent (gap : List Req) : List Seen := gap.map fun r => (false, r)

def stands (r : Req) (k : ℕ) : List Seen := List.replicate k (true, r)

def Access.seen (d : Device) (x : Access) : List Seen := silent x.gap ++ stands x.req (span d x.req)

/-- Nothing of a next access is there yet. -/
structure Rests (d : Device) (l : Log) (xs : List Access) (gap : List Req) : Prop where
  seen : l.seen d = xs.flatMap (Access.seen d) ++ silent gap
  acks : l.watch.soc.acks d = ⟨false, false⟩
  pause : gap = [] → strobed l.watch.soc d = false

/-- `k` clocks of the access to `r` are there. -/
structure Stands (d : Device) (l : Log) (xs : List Access) (gap : List Req) (r : Req)
    (k : ℕ) : Prop where
  seen : l.seen d = xs.flatMap (Access.seen d) ++ silent gap ++ stands r k
  acks : l.watch.soc.acks d = held d r k
  asks : seenAt l.watch.soc d = (true, r)
  gap : gap ≠ []
  count : k < span d r

structure Traffic (d : Device) (l : Log) : Prop where
  sound : Sound l.watch.soc
  done : ∃ xs : List Access, (∀ x ∈ xs, x.gap ≠ []) ∧
    xs.map Access.req = (l.watch.served d).map Prod.fst ∧
    ∃ gap, Rests d l xs gap ∨ ∃ r k, 0 < k ∧ Stands d l xs gap r k

section run
variable {d : Device} {l : Log} {xs : List Access} {gap : List Req} {r : Req} {k : ℕ} {c : Clock}

theorem cyc_stb {s : Soc} (h : Sound s) : s.shared.cyc = s.shared.stb := by
  cases hsel : s.arbiter.selected with
  | none => rw [shared_none hsel]; rfl
  | some m =>
    obtain ⟨hstb, hcyc⟩ := h.stb hsel
    rw [hstb, hcyc]

theorem acks_next {s : Soc} (h : Sound s) (d : Device) :
    (s.next c).acks d = d.handshake (s.acks d) (strobed s d) (strobed s d) s.shared.req.we := by
  rw [next_acks, cyc_stb h]
  rfl

theorem strobed_iff {s : Soc} :
    strobed s d = true ↔ s.shared.stb = true ∧ d.en s.shared.req.adr = true :=
  Bool.and_eq_true_iff

theorem acknowledges_run (d : Device) (cs : List Clock) :
    Acknowledges d ((run Log.next Log.reset cs).seen d)
      ((run Log.next Log.reset cs).watch.soc.acks d) := by
  refine (run_invariant_all Log.next
    (fun l => Sound l.watch.soc ∧ Acknowledges d (l.seen d) (l.watch.soc.acks d))
    (fun l c h => ⟨h.1.next, ?_⟩) Log.reset cs ⟨sound_reset, acknowledges_nil d⟩).2
  change Acknowledges d (l.seen d ++ [seenAt l.watch.soc d]) ((l.watch.soc.next c).acks d)
  rw [acks_next h.1]
  exact acknowledges_next h.2 (seenAt l.watch.soc d)

theorem served_silent (h : strobed l.watch.soc d = false) :
    (l.next c).watch.served d = l.watch.served d := by
  have hserved := next_served (s := l.watch) (c := c) d
  rw [show (l.watch.soc.shared.stb && d.en l.watch.soc.shared.req.adr) = false from h] at hserved
  exact hserved

theorem served_strobed (h : seenAt l.watch.soc d = (true, r)) :
    (l.next c).watch.served d =
      if (l.watch.soc.acks d).ack then l.watch.served d ++ [(r, c.dat d)]
          else l.watch.served d := by
  obtain ⟨hstb, rfl⟩ := Prod.mk.inj h
  have hserved := next_served (s := l.watch) (c := c) d
  rw [show (l.watch.soc.shared.stb && d.en l.watch.soc.shared.req.adr) = true from hstb,
    Bool.true_and] at hserved
  exact hserved

theorem strobed_selected {s : Soc} (h : strobed s d = true) : ∃ m, s.arbiter.selected = some m := by
  cases hsel : s.arbiter.selected with
  | none =>
    rw [strobed, shared_none hsel] at h
    exact Bool.noConfusion h
  | some m => exact ⟨m, rfl⟩

theorem rests_silent (hs : Sound l.watch.soc) (h : Rests d l xs gap)
    (hstb : strobed l.watch.soc d = false) :
    Rests d (l.next c) xs (gap ++ [l.watch.soc.shared.req]) := by
  refine ⟨?_, ?_, fun hnil =>
    absurd hnil (List.append_ne_nil_of_right_ne_nil _ (List.cons_ne_nil _ _))⟩
  · show l.seen d ++ [seenAt l.watch.soc d] = _
    rw [h.seen, seenAt, hstb, silent, silent, List.map_append, List.append_assoc]
    rfl
  · show (l.watch.soc.next c).acks d = _
    rw [acks_next hs, h.acks, hstb]
    exact handshake_rest d _

theorem stands_next (hs : Sound l.watch.soc) (hd : d ≠ .gpio) (h : Stands d l xs gap r k)
    (hk : k + 1 < span d r) :
    Stands d (l.next c) xs gap r (k + 1) ∧ (l.next c).watch.served d = l.watch.served d := by
  have hack : (l.watch.soc.acks d).ack = false := by
    rw [h.acks, held_ack]
    exact decide_eq_false (by omega)
  obtain ⟨hstb, hreq⟩ := Prod.mk.inj h.asks
  have hen := (strobed_iff.mp hstb).2
  obtain ⟨m, hm⟩ := strobed_selected hstb
  have hans : (l.watch.soc.ack || l.watch.soc.err) = false := by
    rw [(ack_en hen).1, (ack_en hen).2, hack]
    rfl
  obtain ⟨-, hreq', hstb'⟩ := shared_waits (c := c) hs hm hans
  refine ⟨⟨?_, ?_, ?_, h.gap, hk⟩, ?_⟩
  · show l.seen d ++ [seenAt l.watch.soc d] = _
    rw [h.seen, h.asks, stands, stands, List.replicate_succ', List.append_assoc]
  · show (l.watch.soc.next c).acks d = _
    rw [acks_next hs, h.acks, hstb, hreq]
    exact held_next hd hk
  · show seenAt (l.watch.soc.next c) d = _
    rw [seenAt, strobed, hstb', hreq', hen, hreq]
    rfl
  · rw [served_strobed h.asks, hack]
    rfl

theorem stands_last (hs : Sound l.watch.soc) (h : Stands d l xs gap r k) (hk : k + 1 = span d r) :
    Rests d (l.next c) (xs ++ [⟨gap, r⟩]) [] ∧
      (l.next c).watch.served d = l.watch.served d ++ [(r, c.dat d)] := by
  have hack : (l.watch.soc.acks d).ack = true := by
    rw [h.acks, held_ack]
    exact decide_eq_true hk
  obtain ⟨hstb, -⟩ := Prod.mk.inj h.asks
  have hen := (strobed_iff.mp hstb).2
  obtain ⟨m, hm⟩ := strobed_selected hstb
  have hans : (l.watch.soc.ack || l.watch.soc.err) = true := by
    rw [(ack_en hen).1, hack]
    rfl
  refine ⟨⟨?_, rest_answered hs hm hans d, fun _ => ?_⟩, ?_⟩
  · show l.seen d ++ [seenAt l.watch.soc d] = _
    rw [h.seen, h.asks, List.flatMap_append, List.flatMap_singleton, Access.seen,
      ← hk, stands, stands, List.replicate_succ']
    simp [silent]
  · have hfree : (l.watch.soc.next c).arbiter.selected = none := by
      rw [arbiter_some hm hs, hans]; rfl
    show strobed (l.watch.soc.next c) d = false
    rw [strobed, shared_none hfree]
    rfl
  · rw [served_strobed h.asks, hack]
    rfl

theorem traffic_next (hd : d ≠ .gpio) (h : Traffic d l) : Traffic d (l.next c) := by
  obtain ⟨hs, xs, hgaps, hserved, gap, hcase⟩ := h
  -- An access that has just begun stands for no clock.
  have hstart : (∃ hr : Rests d l xs gap, strobed l.watch.soc d = false) ∨
      ∃ r k, Stands d l xs gap r k := by
    obtain hr | ⟨r, k, -, hst⟩ := hcase
    · cases hstb : strobed l.watch.soc d with
      | false => exact .inl ⟨hr, rfl⟩
      | true =>
        have hgap : gap ≠ [] := fun hnil => Bool.noConfusion (hstb.symm.trans (hr.pause hnil))
        refine .inr ⟨l.watch.soc.shared.req, 0, ?_, ?_, ?_, hgap, ?_⟩
        · rw [hr.seen, stands, List.replicate_zero, List.append_nil]
        · rw [hr.acks, held_zero]
        · rw [seenAt, hstb]
        · exact Nat.lt_of_lt_of_le Nat.two_pos (span_pos d _)
    · exact .inr ⟨r, k, hst⟩
  obtain ⟨hr, hstb⟩ | ⟨r, k, hst⟩ := hstart
  · exact ⟨hs.next, xs, hgaps,
      by rw [served_silent hstb]; exact hserved, _, .inl (rests_silent hs hr hstb)⟩
  · by_cases hk : k + 1 = span d r
    · obtain ⟨hrests, hlast⟩ := stands_last (c := c) hs hst hk
      refine ⟨hs.next, xs ++ [⟨gap, r⟩], fun x hx => ?_, ?_, [], .inl hrests⟩
      · rw [List.mem_append, List.mem_singleton] at hx
        obtain hx | rfl := hx
        · exact hgaps x hx
        · exact hst.gap
      · rw [hlast, List.map_append, List.map_append, hserved]
        rfl
    · have hcount := hst.count
      obtain ⟨hnext, hsame⟩ := stands_next (c := c) hs hd hst (by omega)
      exact ⟨hs.next, xs, hgaps,
        by rw [hsame]; exact hserved, gap, .inr ⟨r, k + 1, Nat.succ_pos k, hnext⟩⟩

theorem traffic_run (hd : d ≠ .gpio) (cs : List Clock) : Traffic d (run Log.next Log.reset cs) :=
  run_invariant_all Log.next (Traffic d) (fun _ _ h => traffic_next hd h) Log.reset cs
    ⟨sound_reset, [], fun _ h => absurd h List.not_mem_nil, rfl, [], .inl ⟨rfl, rfl, fun _ => rfl⟩⟩

end run

/-- In every run what a device sees of the bus are the accesses it has served, each with its request
unchanged for exactly its span and after at least one clock without the strobe, and at the end no
more than a part of one; and the model of the device, driven by that, acknowledges in the same
clocks. -/
theorem accesses_stand (d : Device) (hd : d ≠ .gpio) (cs : List Clock) :
    let l := run Log.next Log.reset cs
    (∃ (xs : List Access) (gap : List Req) (r : Req) (k : ℕ),
      l.seen d = xs.flatMap (Access.seen d) ++ silent gap ++ stands r k ∧
      xs.map Access.req = (l.watch.served d).map Prod.fst ∧ (∀ x ∈ xs, x.gap ≠ []) ∧ k < span d r ∧
      (0 < k → gap ≠ [] ∧ seenAt l.watch.soc d = (true, r))) ∧
    Acknowledges d (l.seen d) (l.watch.soc.acks d) := by
  refine ⟨?_, acknowledges_run d cs⟩
  obtain ⟨-, xs, hgaps, hserved, gap, hr | ⟨r, k, -, hst⟩⟩ := traffic_run hd cs
  · exact ⟨xs, gap, idlePort.req, 0,
      by rw [hr.seen, stands, List.replicate_zero, List.append_nil], hserved, hgaps,
      Nat.lt_of_lt_of_le Nat.two_pos (span_pos d _), fun hk => absurd hk (Nat.lt_irrefl 0)⟩
  · exact ⟨xs, gap, r, k, hst.seen, hserved, hgaps, hst.count, fun _ => ⟨hst.gap, hst.asks⟩⟩

theorem accesses_stand_uart :
    let l :=
      run Log.next Log.reset [clock (storing 0x80000100), clock quiet, clock quiet, clock quiet]
    (∃ (xs : List Access) (gap : List Req) (r : Req) (k : ℕ),
      l.seen .uart = xs.flatMap (Access.seen .uart) ++ silent gap ++ stands r k ∧
      xs.map Access.req = (l.watch.served .uart).map Prod.fst ∧ (∀ x ∈ xs, x.gap ≠ []) ∧
      k < span .uart r ∧
      (0 < k → gap ≠ [] ∧ seenAt l.watch.soc .uart = (true, r))) ∧
    Acknowledges .uart (l.seen .uart) (l.watch.soc.acks .uart) :=
  accesses_stand .uart (fun h => Device.noConfusion h) _

end HashRatio.BusTraffic
