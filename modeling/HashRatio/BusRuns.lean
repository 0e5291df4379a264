import HashRatio.SocBus

/-!
# Accesses over the shared bus

Every access of a master reaches the one device its address names, as it was asked for and
once, and the master gets that device's answer. A master waits for one access of the other
at most, unless an address of the missing GPIO block is asked for.
-/

namespace HashRatio.BusRuns
open Bytes LoadStore SocBus Run

/-! ### What a master does in a clock -/

structure Good (p : Port) : Prop where
  stb : p.stb = p.cyc
  lock : p.lock = false
  cti : p.cti = 7

/-- A request stays until it is answered. -/
structure Goes (p p' : Port) (hit : Bool) : Prop where
  good : Good p'
  cyc : p.cyc = true → p'.cyc = !hit
  req : p.cyc = true → hit = false → p'.req = p.req

theorem fetch_goes {s : Fetch} (h : Good (fetchPort s)) (i : FetchInput)
    (ack err : Bool) (dat : Word) :
    Goes (fetchPort s) (fetchPort (s.next i ack err dat)) (ack || err) := by
  have hstb : s.iStb = s.iCyc := h.stb
  refine ⟨⟨?_, h.lock, h.cti⟩, fun hc => ?_, fun hc _ => ?_⟩
  · simp only [fetchPort, Fetch.next, hstb]
    cases s.iCyc <;> cases ack <;> cases err <;> simp
  · have hcyc : s.iCyc = true := hc
    simp only [fetchPort, Fetch.next, hcyc, if_true]
  · have hcyc : s.iCyc = true := hc
    simp only [fetchPort, Fetch.next, hcyc, Bool.not_true, Bool.false_and,
      Bool.false_eq_true, if_false]

theorem data_goes {s : Regs} (h : Good (dataPort s)) (i : LoadStore.Input) :
    Goes (dataPort s) (dataPort (s.next i)) (i.dAckI || i.dErrI) := by
  have hstb : s.dStb = s.dCyc := h.stb
  have hlock : s.dLock = false := h.lock
  have hcti : s.dCti = 7 := h.cti
  refine ⟨⟨?_, ?_, ?_⟩, fun hc => ?_, fun hc _ => ?_⟩
  · simp only [dataPort, Regs.next, hstb]
  · simp only [dataPort, Regs.next, hlock, ite_self]
  · simp only [dataPort, Regs.next, hcti, ctypeEnd, ite_self]
  all_goals
    have hcyc : s.dCyc = true := hc
    have hstore : s.storeStarts i = false := by rw [Regs.storeStarts, hcyc]; rfl
    have hload : s.loadStarts i = false := by rw [Regs.loadStarts, hcyc]; rfl
    simp only [dataPort, Regs.next, hstore, hload, hcyc, Regs.answered, Bool.true_and,
      Bool.or_false, Bool.false_eq_true, if_false]
  cases i.dAckI || i.dErrI <;> rfl

section soc
variable {s : Soc} {c : Clock} {m : Wbm} {d e : Device}

theorem ports_goes (hg : ∀ m, Good (s.ports m)) (m : Wbm) :
    Goes (s.ports m) ((s.next c).ports m) (s.hit m) := by
  rw [Soc.hit, Bool.and_or_distrib_left]
  cases m with
  | wbm0 => exact fetch_goes (hg .wbm0) _ _ _ _
  | wbm1 => exact data_goes (hg .wbm1) _

/-! ### What holds in every clock -/

/-- A device that is not asked rests. -/
structure Sound (s : Soc) : Prop where
  ports : ∀ m, Good (s.ports m)
  unlocked : s.arbiter.locked = false
  owner : ∀ m, s.arbiter.selected = some m → (s.ports m).cyc = true
  rest : ∀ d, (s.shared.stb && d.en s.shared.req.adr) = false → s.acks d = ⟨false, false⟩
  missing : s.acks .gpio = ⟨false, false⟩

theorem shared_some (h : s.arbiter.selected = some m) : s.shared = s.ports m := by
  rw [Soc.shared, Arbiter.shared, h]
  rfl

theorem shared_none (h : s.arbiter.selected = none) : s.shared = idlePort := by
  rw [Soc.shared, Arbiter.shared, h]
  rfl

theorem hit_iff : s.hit m = true ↔ s.arbiter.selected = some m ∧ (s.ack || s.err) = true := by
  rw [Soc.hit, Bool.and_eq_true, decide_eq_true_iff]

theorem Sound.stb (h : Sound s) (hm : s.arbiter.selected = some m) :
    s.shared.stb = true ∧ s.shared.cyc = true := by
  have hcyc := h.owner m hm
  rw [shared_some hm]
  exact ⟨(h.ports m).stb.trans hcyc, hcyc⟩

/-- The device that is asked answers for the bus. -/
theorem ack_en (h : d.en s.shared.req.adr = true) : s.ack = (s.acks d).ack ∧ s.err = false := by
  rw [Soc.ack, Soc.err, any_en, deviceAt_en h]
  exact ⟨rfl, Bool.and_false _⟩

theorem err_iff (hcyc : s.shared.cyc = true) : s.err = true ↔ ∀ d :
    Device, d.en s.shared.req.adr = false := by
  rw [Soc.err, hcyc, Bool.true_and, Bool.not_eq_true']
  constructor
  · intro hnone d
    exact Bool.eq_false_iff.mpr fun hd => by
      rw [any_en, deviceAt_en hd] at hnone
      exact Bool.noConfusion hnone
  · intro hall
    rw [List.any_eq_false]
    exact fun d _ => Bool.eq_false_iff.mp (hall d)

theorem handshake_rest (d : Device) (we : Bool) :
    d.handshake ⟨false, false⟩ false false we = ⟨false, false⟩ := by
  cases d <;> rfl

theorem handshake_done (d : Device) {a : Handshake} (ha : a.ack = true) (we : Bool) :
    d.handshake a true true we = ⟨false, false⟩ := by
  cases d <;> simp [Device.handshake, ha]

theorem next_acks (d : Device) : (s.next c).acks d =
    d.handshake (s.acks d) (s.shared.cyc && d.en s.shared.req.adr)
      (s.shared.stb && d.en s.shared.req.adr)
      s.shared.req.we := rfl

theorem next_arbiter : (s.next c).arbiter = s.arbiter.next s.ports s.ack s.err := rfl

theorem arbiter_none (hm : s.arbiter.selected = none) (h : Sound s) :
    (s.next c).arbiter.selected =
      if (s.ports .wbm0).cyc then some .wbm0 else if (s.ports .wbm1).cyc then
          some .wbm1 else none := by
  rw [next_arbiter, Arbiter.next, hm, (h.ports .wbm0).stb, (h.ports .wbm1).stb]
  cases (s.ports .wbm0).cyc <;> cases (s.ports .wbm1).cyc <;> simp [hm]

theorem arbiter_some (hm : s.arbiter.selected = some m) (h : Sound s) :
    (s.next c).arbiter.selected = if s.ack || s.err then none else some m := by
  rw [next_arbiter, Arbiter.next, hm]
  dsimp only
  rw [h.unlocked, (h.ports m).cti, (h.ports m).lock]
  cases s.ack <;> cases s.err <;> simp [hm]

theorem arbiter_unlocked (h : Sound s) : (s.next c).arbiter.locked = false := by
  rw [next_arbiter, Arbiter.next]
  have h0 := (h.ports .wbm0).lock
  have h1 := (h.ports .wbm1).lock
  split
  · split
    · exact h0
    · split
      · exact h1
      · exact h.unlocked
  · split
    · rfl
    · exact h.unlocked

theorem rest_none (h : Sound s) (hm : s.arbiter.selected = none) (d : Device) :
    (s.next c).acks d = ⟨false, false⟩ := by
  have hidle := shared_none hm
  have hrest := h.rest d (by rw [hidle]; rfl)
  rw [next_acks, hrest, hidle]
  exact handshake_rest d _

theorem rest_answered (h : Sound s) (hm : s.arbiter.selected = some m)
    (hans : (s.ack || s.err) = true) (d : Device) :
    (s.next c).acks d = ⟨false, false⟩ := by
  obtain ⟨hstb, hcyc⟩ := h.stb hm
  rw [next_acks, hstb, hcyc, Bool.true_and]
  cases hd : d.en s.shared.req.adr with
  | true =>
    obtain ⟨hack, herr⟩ := ack_en hd
    rw [hack, herr, Bool.or_false] at hans
    exact handshake_done d hans _
  | false =>
    rw [h.rest d (by rw [hd, Bool.and_false])]
    exact handshake_rest d _

theorem rest_waits (h : Sound s) (hd : d.en s.shared.req.adr = false) :
    (s.next c).acks d = ⟨false, false⟩ := by
  rw [next_acks, h.rest d (by rw [hd, Bool.and_false]), hd, Bool.and_false, Bool.and_false]
  exact handshake_rest d _

theorem shared_waits (h : Sound s) (hm : s.arbiter.selected = some m)
    (hans : (s.ack || s.err) = false) :
    (s.next c).arbiter.selected = some m ∧ (s.next c).shared.req = s.shared.req ∧
      (s.next c).shared.stb = true := by
  have hsel : (s.next c).arbiter.selected = some m := by rw [arbiter_some hm h, hans]; rfl
  have hhit : s.hit m = false := by rw [Soc.hit, hans, Bool.and_false]
  have hgoes := ports_goes (c := c) h.ports m
  have hcyc := h.owner m hm
  rw [shared_some hsel, shared_some hm]
  refine ⟨hsel, hgoes.req hcyc hhit, ?_⟩
  rw [hgoes.good.stb, hgoes.cyc hcyc, hhit]
  rfl

theorem Sound.next (h : Sound s) : Sound (s.next c) := by
  refine ⟨fun m => (ports_goes h.ports m).good, arbiter_unlocked h, fun m hm => ?_,
    fun d hd => ?_, rfl⟩
  · cases hsel : s.arbiter.selected with
    | none =>
      have hidle := shared_none hsel
      have hhit : s.hit m = false := by rw [Soc.hit, hsel]; rfl
      have hnext := arbiter_none (c := c) hsel h
      rw [hm] at hnext
      have hcyc : (s.ports m).cyc = true := by
        cases h0 : (s.ports .wbm0).cyc with
        | true =>
          rw [h0, if_pos rfl] at hnext
          rwa [Option.some.inj hnext]
        | false =>
          rw [h0, if_neg Bool.false_ne_true] at hnext
          cases h1 : (s.ports .wbm1).cyc with
          | true =>
            rw [h1, if_pos rfl] at hnext
            rwa [Option.some.inj hnext]
          | false =>
            rw [h1, if_neg Bool.false_ne_true] at hnext
            exact absurd hnext (Option.some_ne_none m)
      rw [(ports_goes h.ports m).cyc hcyc, hhit]
      rfl
    | some n =>
      have hnext := arbiter_some (c := c) hsel h
      rw [hm] at hnext
      cases hans : s.ack || s.err with
      | true =>
        rw [hans, if_pos rfl] at hnext
        exact absurd hnext (Option.some_ne_none m)
      | false =>
        rw [hans, if_neg Bool.false_ne_true] at hnext
        obtain rfl := Option.some.inj hnext
        rw [(ports_goes h.ports m).cyc (h.owner m hsel), Soc.hit, hans, Bool.and_false]
        rfl
  · cases hsel : s.arbiter.selected with
    | none => exact rest_none h hsel d
    | some m =>
      cases hans : s.ack || s.err with
      | true => exact rest_answered h hsel hans d
      | false =>
        obtain ⟨-, hreq, hstb⟩ := shared_waits (c := c) h hsel hans
        rw [hreq, hstb, Bool.true_and] at hd
        exact rest_waits h hd

theorem sound_reset : Sound Soc.reset :=
  ⟨fun m => by
    cases m <;> exact ⟨rfl, rfl, rfl⟩, rfl, fun _ h =>
      absurd h (Option.some_ne_none _).symm, fun _ _ => rfl,
    rfl⟩

end soc

/-! ### Each access once, and where it belongs -/

/-- What is under way at a master. -/
def pending (p : Port) : List Req := if p.cyc then [p.req] else []

structure Books (s : Watch) : Prop where
  sound : Sound s.soc
  asked : ∀ m, s.asked m = (s.got m).map Prod.fst ++ pending (s.soc.ports m)
  got : ∀ m, s.got m = (s.bus.filter fun e => e.1 == m).map Prod.snd
  served : ∀ d : Device, s.served d = (s.bus.filter fun e => d.en e.2.1.adr).map fun e =>
    (e.2.1, e.2.2.dat)
  errors : ∀ e ∈ s.bus, e.2.2.err = true ↔ ∀ d : Device, d.en e.2.1.adr = false

section watch
variable {s : Watch} {c : Clock} {m : Wbm} {d : Device}

theorem next_asked (m : Wbm) : (s.next c).asked m =
    if !(s.soc.ports m).cyc && ((s.soc.next c).ports m).cyc then
      s.asked m ++ [((s.soc.next c).ports m).req]
    else s.asked m := rfl

theorem next_got (m : Wbm) : (s.next c).got m =
    if (s.soc.ports m).cyc && s.soc.hit m then
      s.got m ++ [((s.soc.ports m).req, ⟨s.soc.err, s.soc.dat c⟩)]
    else s.got m := rfl

theorem next_served (d : Device) : (s.next c).served d =
    if s.soc.shared.stb && d.en s.soc.shared.req.adr && (s.soc.acks d).ack then
      s.served d ++ [(s.soc.shared.req, c.dat d)]
    else s.served d := rfl

theorem next_waits (hans : s.soc.arbiter.selected = none ∨ (s.soc.ack || s.soc.err) = false) :
    (s.next c).bus = s.bus ∧ (∀ m, (s.next c).got m = s.got m) ∧
      ∀ d, (s.next c).served d = s.served d := by
  have hbus : (s.next c).bus = if s.soc.shared.stb && (s.soc.ack || s.soc.err) then
      _ else s.bus := rfl
  obtain hnone | hans := hans
  · have hstb : s.soc.shared.stb = false := by rw [shared_none hnone]; rfl
    refine ⟨by rw [hbus, hstb]; rfl, fun m => ?_, fun d => by rw [next_served, hstb]; rfl⟩
    rw [next_got, Soc.hit, hnone]
    simp
  · refine ⟨by rw [hbus, hans, Bool.and_false]; rfl, fun m => ?_, fun d => ?_⟩
    · rw [next_got, Soc.hit, hans, Bool.and_false, Bool.and_false]
      rfl
    · rw [next_served]
      cases hd : d.en s.soc.shared.req.adr with
      | false => simp
      | true =>
        rw [(ack_en hd).1, (ack_en hd).2, Bool.or_false] at hans
        rw [hans]
        simp

theorem next_answered (h : Sound s.soc) (hm : s.soc.arbiter.selected = some m)
    (hans : (s.soc.ack || s.soc.err) = true) :
    (s.next c).bus = s.bus ++ [(m, (s.soc.ports m).req, ⟨s.soc.err, s.soc.dat c⟩)] ∧
      (∀ n, (s.next c).got n = s.got n ++ if n = m then
        [((s.soc.ports m).req, ⟨s.soc.err, s.soc.dat c⟩)] else []) ∧
      ∀ d : Device, (s.next c).served d =
        s.served d ++ if d.en (s.soc.ports m).req.adr then
          [((s.soc.ports m).req, s.soc.dat c)] else [] := by
  obtain ⟨hstb, -⟩ := h.stb hm
  have hshared := shared_some hm
  refine ⟨?_, fun n => ?_, fun d => ?_⟩
  · have hbus : (s.next c).bus = if s.soc.shared.stb && (s.soc.ack || s.soc.err) then
        s.bus ++
          (s.soc.arbiter.selected.map fun m =>
            (m, s.soc.shared.req, ⟨s.soc.err, s.soc.dat c⟩)).toList
      else s.bus := rfl
    rw [hbus, hstb, hans, hm, hshared]
    rfl
  · rw [next_got]
    by_cases hn : n = m
    · obtain rfl := hn
      rw [h.owner n hm, hit_iff.mpr ⟨hm, hans⟩, if_pos rfl]
      rfl
    · have hhit : s.soc.hit n = false :=
        Bool.eq_false_iff.mpr fun hh => hn (Option.some.inj ((hit_iff.mp hh).1.symm.trans hm))
      rw [hhit, Bool.and_false, if_neg hn, List.append_nil]
      rfl
  · rw [next_served, hstb, ← hshared, Bool.true_and]
    cases hd : d.en s.soc.shared.req.adr with
    | false => simp
    | true =>
      rw [(ack_en hd).1, (ack_en hd).2, Bool.or_false] at hans
      have hdat : s.soc.dat c = c.dat d := by
        rw [Soc.dat, deviceAt_en hd]
        rfl
      rw [hans, hdat]
      rfl

theorem asked_next (h : Books s) (m : Wbm) :
    (s.next c).asked m = ((s.next c).got m).map Prod.fst ++ pending ((s.soc.next c).ports m) := by
  have hgoes := ports_goes (c := c) h.sound.ports m
  rw [next_asked, next_got, h.asked m]
  cases hcyc : (s.soc.ports m).cyc with
  | false =>
    rw [pending, pending, hcyc]
    cases hnext : ((s.soc.next c).ports m).cyc <;> simp
  | true =>
    rw [pending, pending, hcyc, hgoes.cyc hcyc]
    cases hhit : s.soc.hit m with
    | true => simp
    | false =>
      rw [hgoes.req hcyc hhit]
      simp

theorem Books.next (h : Books s) : Books (s.next c) := by
  have hsound : Sound (s.next c).soc := h.sound.next
  have hasked (m : Wbm) : (s.next c).asked m = _ := asked_next h m
  cases hsel : s.soc.arbiter.selected with
  | none =>
    obtain ⟨hbus, hgot, hserved⟩ := next_waits (c := c) (.inl hsel)
    exact ⟨hsound, hasked,
      fun m => by rw [hgot, hbus]; exact h.got m, fun d => by rw [hserved, hbus]; exact h.served d,
      by rw [hbus]; exact h.errors⟩
  | some m =>
    cases hans : s.soc.ack || s.soc.err with
    | false =>
      obtain ⟨hbus, hgot, hserved⟩ := next_waits (c := c) (.inr hans)
      exact ⟨hsound, hasked, fun m => by rw [hgot, hbus]; exact h.got m,
        fun d => by rw [hserved, hbus]; exact h.served d, by rw [hbus]; exact h.errors⟩
    | true =>
      obtain ⟨hbus, hgot, hserved⟩ := next_answered (c := c) h.sound hsel hans
      refine ⟨hsound, hasked, fun n => ?_, fun d => ?_, fun e he => ?_⟩
      · rw [hgot, hbus, List.filter_append, List.map_append, ← h.got n]
        by_cases hn : n = m
        · obtain rfl := hn
          simp
        · simp [hn, Ne.symm hn]
      · rw [hserved, hbus, List.filter_append, List.map_append, ← h.served d]
        cases hd : d.en (s.soc.ports m).req.adr <;> simp [hd]
      · rw [hbus, List.mem_append, List.mem_singleton] at he
        obtain he | rfl := he
        · exact h.errors e he
        · have herr := err_iff (h.sound.stb hsel).2
          rwa [shared_some hsel] at herr

theorem books_run (cs : List Clock) : Books (run Watch.next Watch.reset cs) :=
  run_invariant_all Watch.next Books (fun _ _ h => h.next) Watch.reset cs
    ⟨sound_reset,
      fun m => by cases m <;> rfl, fun _ => rfl, fun _ => rfl, fun _ h => absurd h List.not_mem_nil⟩

end watch

/-- In every run the answers at a master are those of the bus to it, in order, for its requests as
it made them; what a device has served are the accesses to its own addresses, with the data that
went back; and an access has an error exactly when no device is there. -/
theorem accesses_matched (cs : List Clock) :
    let s := run Watch.next Watch.reset cs
    (∀ m, s.asked m = (s.got m).map Prod.fst ++ pending (s.soc.ports m) ∧
      s.got m = (s.bus.filter fun e => e.1 == m).map Prod.snd) ∧
    (∀ d : Device, s.served d = (s.bus.filter fun e => d.en e.2.1.adr).map fun e =>
      (e.2.1, e.2.2.dat)) ∧
    ∀ e ∈ s.bus, e.2.2.err = true ↔ ∀ d : Device, d.en e.2.1.adr = false := by
  have h := books_run cs
  exact ⟨fun m => ⟨h.asked m, h.got m⟩, h.served, h.errors⟩

/-! ### How long a master waits -/

/-- Clocks until the access on the bus is answered, where a device is there. -/
def left (s : Soc) : ℕ :=
  match deviceAt s.shared.req.adr with
  | none => 1
  | some (.spi k) =>
    if (s.acks (.spi k)).ack then 1
      else if s.shared.req.we || (s.acks (.spi k)).readWaitDone then 2 else 3
  | some d => if (s.acks d).ack then 1 else 2

/-- Clocks until the master is answered. -/
def due (s : Soc) (m : Wbm) : ℕ :=
  match s.arbiter.selected with
  | some n => if n = m then left s else left s + 4
  | none => if m = .wbm1 ∧ (s.ports .wbm0).cyc = true then 8 else 4

/-- The accesses up to that of the master, its own first. -/
def upTo (s : Soc) (m : Wbm) : List Req :=
  (s.ports m).req ::
    match s.arbiter.selected with
    | some n => if n = m then [] else [(s.ports n).req]
    | none => if m = .wbm1 ∧ (s.ports .wbm0).cyc = true then [(s.ports .wbm0).req] else []

/-- An address of the missing GPIO block is among them. -/
def Blocked (s : Soc) (m : Wbm) : Prop := ∃ r ∈ upTo s m, Device.gpio.en r.adr = true

section waiting
variable {s : Soc} {c : Clock} {m n : Wbm} {d : Device}

theorem left_pos (s : Soc) : 1 ≤ left s := by
  unfold left
  repeat' split
  all_goals decide

theorem left_le (s : Soc) : left s ≤ 3 := by
  unfold left
  repeat' split
  all_goals decide

theorem due_pos (s : Soc) (m : Wbm) : 0 < due s m := by
  have := left_pos s
  unfold due
  repeat' split
  all_goals omega

theorem due_le (s : Soc) (m : Wbm) : due s m ≤ 8 := by
  have := left_le s
  unfold due
  repeat' split
  all_goals omega

theorem upTo_own (hm : s.arbiter.selected = some m) : upTo s m = [(s.ports m).req] := by
  simp only [upTo, hm, if_true]

theorem upTo_other (hn : s.arbiter.selected = some n) (hne : n ≠ m) :
    upTo s m = [(s.ports m).req, (s.ports n).req] := by
  simp only [upTo, hn, if_neg hne]

theorem upTo_first (hn : s.arbiter.selected = none)
    (hfirst : m = .wbm1 ∧ (s.ports .wbm0).cyc = true) :
    upTo s m = [(s.ports m).req, (s.ports .wbm0).req] := by
  simp only [upTo, hn, if_pos hfirst]

theorem upTo_last (hn : s.arbiter.selected = none)
    (hlast : ¬(m = .wbm1 ∧ (s.ports .wbm0).cyc = true)) :
    upTo s m = [(s.ports m).req] := by
  simp only [upTo, hn, if_neg hlast]

theorem left_next (h : Sound s) (hm : s.arbiter.selected = some m)
    (hgpio : Device.gpio.en (s.ports m).req.adr = false)
    (hans : (s.ack || s.err) = false) : left (s.next c) < left s := by
  obtain ⟨-, hreq, -⟩ := shared_waits (c := c) h hm hans
  obtain ⟨hstb, hcyc⟩ := h.stb hm
  rw [← shared_some hm] at hgpio
  cases hat : deviceAt s.shared.req.adr with
  | none =>
    have herr : s.err = true := by rw [Soc.err, hcyc, any_en, hat]; rfl
    rw [herr, Bool.or_true] at hans
    exact Bool.noConfusion hans
  | some d =>
    have hd : d.en s.shared.req.adr = true := en_deviceAt hat
    obtain ⟨hack, herr⟩ := ack_en hd
    rw [hack, herr, Bool.or_false] at hans
    have hnext := next_acks (s := s) (c := c) d
    rw [hstb, hcyc, hd, Bool.true_and] at hnext
    unfold left
    rw [hreq, hat]
    cases d with
    | gpio => exact absurd (hgpio.symm.trans hd) Bool.false_ne_true
    | spi k =>
      dsimp only
      rw [hnext, hans]
      cases hwe : s.shared.req.we <;> cases hw : (s.acks (.spi k)).readWaitDone
        <;> simp [Device.handshake, hans, hw]
    | _ =>
      dsimp only
      rw [hnext, hans]
      simp [Device.handshake, hans]

theorem missing_silent (h : Sound s) (hm : s.arbiter.selected = some m)
    (hgpio : Device.gpio.en (s.ports m).req.adr = true) : (s.ack || s.err) = false := by
  rw [← shared_some hm] at hgpio
  rw [(ack_en hgpio).1, (ack_en hgpio).2, h.missing]
  rfl

theorem pending_next (h : Sound s) (hcyc : (s.ports m).cyc = true) (hhit : s.hit m = false) :
    ((s.next c).ports m).cyc = true ∧ ((s.next c).ports m).req = (s.ports m).req := by
  have hgoes := ports_goes (c := c) h.ports m
  exact ⟨(hgoes.cyc hcyc).trans (by rw [hhit]; rfl), hgoes.req hcyc hhit⟩

theorem hit_other (hn : s.arbiter.selected = some n) (hne : n ≠ m) : s.hit m = false :=
  Bool.eq_false_iff.mpr fun hh => hne (Option.some.inj (hn.symm.trans (hit_iff.mp hh).1))

theorem hit_none (hn : s.arbiter.selected = none) : s.hit m = false := by
  rw [Soc.hit, hn]
  rfl

/-- The other master is wbm0 and goes first. -/
theorem turn_none (h : Sound s) (hn : s.arbiter.selected = none) (hcyc : (s.ports m).cyc = true) :
    (s.next c).arbiter.selected =
      if m = .wbm1 ∧ (s.ports .wbm0).cyc = true then some .wbm0 else some m := by
  rw [arbiter_none hn h]
  cases m with
  | wbm0 => rw [hcyc, if_pos rfl, if_neg (by decide)]
  | wbm1 => cases h0 : (s.ports .wbm0).cyc <;> simp [hcyc]

theorem blocked_next (h : Sound s) (hcyc : (s.ports m).cyc = true) (hb : Blocked s m) :
    s.hit m = false ∧ Blocked (s.next c) m := by
  obtain ⟨r, hr, hgpio⟩ := hb
  have hstays (hhit : s.hit m = false) (hr : r = (s.ports m).req) : Blocked (s.next c) m :=
    ⟨((s.next c).ports m).req, List.mem_cons_self .., by rwa [(pending_next h hcyc hhit).2, ← hr]⟩
  cases hsel : s.arbiter.selected with
  | none =>
    have hhit : s.hit m = false := hit_none hsel
    refine ⟨hhit, ?_⟩
    by_cases hfirst : m = .wbm1 ∧ (s.ports .wbm0).cyc = true
    · rw [upTo_first hsel hfirst, List.mem_cons, List.mem_singleton] at hr
      obtain hr | hr := hr
      · exact hstays hhit hr
      · -- The other master gets the bus and keeps it.
        have hturn := turn_none (c := c) h hsel hcyc
        rw [if_pos hfirst] at hturn
        have hreq := (pending_next (c := c) h hfirst.2 (hit_none hsel)).2
        refine ⟨((s.next c).ports .wbm0).req, ?_, by rwa [hreq, ← hr]⟩
        rw [upTo_other hturn (by rw [hfirst.1]; decide)]
        exact List.mem_cons_of_mem _ (List.mem_cons_self ..)
    · rw [upTo_last hsel hfirst, List.mem_singleton] at hr
      exact hstays hhit hr
  | some n =>
    by_cases hn : n = m
    · obtain rfl := hn
      rw [upTo_own hsel, List.mem_singleton] at hr
      have hhit : s.hit n = false := by
        rw [Soc.hit, missing_silent h hsel (by rwa [← hr]), Bool.and_false]
      exact ⟨hhit, hstays hhit hr⟩
    · have hhit := hit_other hsel hn
      refine ⟨hhit, ?_⟩
      rw [upTo_other hsel hn, List.mem_cons, List.mem_singleton] at hr
      obtain hr | hr := hr
      · exact hstays hhit hr
      · have hans := missing_silent h hsel (by rwa [← hr])
        have hsel' := (shared_waits (c := c) h hsel hans).1
        have hown : s.hit n = false := by rw [Soc.hit, hans, Bool.and_false]
        have hreq := (pending_next (c := c) h (h.owner n hsel) hown).2
        refine ⟨((s.next c).ports n).req, ?_, by rwa [hreq, ← hr]⟩
        rw [upTo_other hsel' hn]
        exact List.mem_cons_of_mem _ (List.mem_cons_self ..)

theorem due_next (h : Sound s) (hcyc : (s.ports m).cyc = true) (hb : ¬Blocked s m)
    (hhit : s.hit m = false) :
    ¬Blocked (s.next c) m ∧ due (s.next c) m < due s m := by
  have hreq := (pending_next (c := c) h hcyc hhit).2
  have hfree (r : Req) (hr : r ∈ upTo s m) : Device.gpio.en r.adr = false :=
    Bool.eq_false_iff.mpr fun hg => hb ⟨r, hr, hg⟩
  have hkeeps (hall : ∀ r ∈ upTo (s.next c) m, r ∈ upTo s m) : ¬Blocked (s.next c) m :=
    fun ⟨r, hr, hg⟩ => Bool.eq_false_iff.mp (hfree r (hall r hr)) hg
  have hpos := left_pos s
  have hle := left_le (s.next c)
  cases hsel : s.arbiter.selected with
  | none =>
    have hturn := turn_none (c := c) h hsel hcyc
    by_cases hfirst : m = .wbm1 ∧ (s.ports .wbm0).cyc = true
    · rw [if_pos hfirst] at hturn
      have hreq0 := (pending_next (c := c) h hfirst.2 (hit_none hsel)).2
      have hne : Wbm.wbm0 ≠ m := by rw [hfirst.1]; decide
      refine ⟨hkeeps ?_, ?_⟩
      · rw [upTo_other hturn hne, upTo_first hsel hfirst, hreq, hreq0]
        exact fun _ hr => hr
      · simp only [due, hturn, hsel, if_neg hne, if_pos hfirst]
        omega
    · rw [if_neg hfirst] at hturn
      refine ⟨hkeeps ?_, ?_⟩
      · rw [upTo_own hturn, upTo_last hsel hfirst, hreq]
        exact fun _ hr => hr
      · simp only [due, hturn, hsel, if_neg hfirst, if_true]
        omega
  | some n =>
    by_cases hn : n = m
    · obtain rfl := hn
      have hans : (s.ack || s.err) = false := Bool.eq_false_iff.mpr fun hh => by
        rw [hit_iff.mpr ⟨hsel, hh⟩] at hhit
        exact Bool.noConfusion hhit
      have hown := hfree (s.ports n).req (List.mem_cons_self ..)
      have hsel' := (shared_waits (c := c) h hsel hans).1
      refine ⟨hkeeps ?_, ?_⟩
      · rw [upTo_own hsel', upTo_own hsel, hreq]
        exact fun _ hr => hr
      · simp only [due, hsel', hsel, if_true]
        exact left_next h hsel hown hans
    · have hother := upTo_other hsel hn
      cases hans : s.ack || s.err with
      | false =>
        have hsel' := (shared_waits (c := c) h hsel hans).1
        have hhitn : s.hit n = false := by rw [Soc.hit, hans, Bool.and_false]
        have hreqn := (pending_next (c := c) h (h.owner n hsel) hhitn).2
        have hfreen :=
          hfree (s.ports n).req
            (by rw [hother]; exact List.mem_cons_of_mem _ (List.mem_cons_self ..))
        refine ⟨hkeeps ?_, ?_⟩
        · rw [upTo_other hsel' hn, hother, hreq, hreqn]
          exact fun _ hr => hr
        · have hless := left_next (c := c) h hsel hfreen hans
          simp only [due, hsel', hsel, if_neg hn]
          omega
      | true =>
        -- The bus is free for the clock after, and the other has not asked again.
        have hsel' : (s.next c).arbiter.selected = none := by rw [arbiter_some hsel h, hans]; rfl
        have hgone : ((s.next c).ports n).cyc = false := by
          rw [(ports_goes h.ports n).cyc (h.owner n hsel), hit_iff.mpr ⟨hsel, hans⟩]
          rfl
        have hlast : ¬(m = .wbm1 ∧ ((s.next c).ports .wbm0).cyc = true) := by
          rintro ⟨rfl, h0⟩
          cases n with
          | wbm0 => exact Bool.eq_false_iff.mp hgone h0
          | wbm1 => exact hn rfl
        refine ⟨hkeeps ?_, ?_⟩
        · rw [upTo_last hsel' hlast, hother, hreq]
          intro r hr
          rw [List.mem_singleton.mp hr]
          exact List.mem_cons_self ..
        · simp only [due, hsel', hsel, if_neg hn, if_neg hlast]
          omega

end waiting

/-- The master waits with `r`, and has had `g`. -/
structure Waits (m : Wbm) (r : Req) (g : List (Req × Answer)) (s : Watch) : Prop where
  sound : Sound s.soc
  cyc : (s.soc.ports m).cyc = true
  req : (s.soc.ports m).req = r
  got : s.got m = g

section answer
variable {s : Watch} {m : Wbm} {r : Req} {g : List (Req × Answer)}

theorem Waits.next (h : Waits m r g s) (hhit : s.soc.hit m = false) (c : Clock) :
    Waits m r g (s.next c) := by
  obtain ⟨hcyc, hreq⟩ := pending_next (c := c) h.sound h.cyc hhit
  refine ⟨h.sound.next, hcyc, hreq.trans h.req, ?_⟩
  rw [next_got, hhit, Bool.and_false]
  exact h.got

theorem got_next (s : Watch) (c : Clock) (m : Wbm) : s.got m <+: (s.next c).got m := by
  rw [next_got]
  split
  · exact List.prefix_append ..
  · exact List.prefix_rfl

theorem got_run (cs : List Clock) (s : Watch) (m : Wbm) : s.got m <+: (run Watch.next s cs).got m :=
  run_invariant_all Watch.next (fun t => s.got m <+: t.got m)
    (fun t c h => h.trans (got_next t c m)) s cs List.prefix_rfl

theorem waits_answered (h : Waits m r g s) (hb : ¬Blocked s.soc m) (cs : List Clock)
    (hlen : 8 ≤ cs.length) :
    ∃ a, g ++ [(r, a)] <+: (run Watch.next s cs).got m := by
  obtain ⟨pre, c, post, rfl, ⟨hw, -⟩, hhit⟩ := run_ranked Watch.next
    (fun s => Waits m r g s ∧ ¬Blocked s.soc m) (fun s => due s.soc m) (fun s => s.soc.hit m = true)
    (fun s _ => due_pos s.soc m)
    (fun s c ⟨hw, hb⟩ hhit => by
      have hhit := Bool.eq_false_iff.mpr hhit
      obtain ⟨hb', hless⟩ := due_next (c := c) hw.sound hw.cyc hb hhit
      exact ⟨⟨hw.next hhit c, hb'⟩, hless⟩)
    cs ⟨h, hb⟩ ((due_le s.soc m).trans hlen)
  have hgot := next_got (s := run Watch.next s pre) (c := c) m
  rw [hw.cyc, hhit, Bool.and_self, if_pos rfl, hw.got, hw.req] at hgot
  have hrun := got_run post ((run Watch.next s pre).next c) m
  rw [hgot] at hrun
  exact ⟨_, by rwa [run_append, run_cons]⟩

theorem waits_blocked (h : Waits m r g s) (hb : Blocked s.soc m) (cs : List Clock) :
    (run Watch.next s cs).got m = g := by
  have hinv := run_invariant_all Watch.next (fun s => Waits m r g s ∧ Blocked s.soc m)
    (fun s c ⟨hw, hb⟩ => by
      obtain ⟨hhit, hb'⟩ := blocked_next (c := c) hw.sound hw.cyc hb
      exact ⟨hw.next hhit c, hb'⟩)
    s cs ⟨h, hb⟩
  exact hinv.1.got

end answer

/-- From every reachable state, whatever the clocks: a master that asks has its answer eight clocks
later, unless its own access or the one that goes before it is to the missing GPIO block; then it
never has. -/
theorem answered_iff (cs cs' : List Clock) (m : Wbm) (hlen : 8 ≤ cs'.length)
    (hcyc : ((run Watch.next Watch.reset cs).soc.ports m).cyc = true) :
    let s := run Watch.next Watch.reset cs
    (∃ a, s.got m ++ [((s.soc.ports m).req, a)] <+: (run Watch.next s cs').got m) ↔
    ¬Blocked s.soc m := by
  have h : Waits m _ _ (run Watch.next Watch.reset cs) := ⟨(books_run cs).sound, hcyc, rfl, rfl⟩
  refine ⟨fun ⟨a, ha⟩ hb => ?_, fun hb => waits_answered h hb cs' hlen⟩
  rw [waits_blocked h hb] at ha
  have hle := ha.length_le
  rw [List.length_append, List.length_singleton] at hle
  omega

/-- A store leaves the M stage. -/
def storing (a : Word) : LoadStore.Input :=
  ⟨false, false, false, false, 0, 0, a, false, false, false, false, false, true, false, .word, 0,
    0, 0, false, false⟩

def quiet : LoadStore.Input := { storing 0 with storeQM := false }

def clock (i : LoadStore.Input) : Clock := ⟨⟨true, 0⟩, i, fun _ => 0⟩

/-- A store to a UART is answered and one to the GPIO block is not. -/
theorem stores_answered :
    let s (a : Word) := run Watch.next Watch.reset [clock (storing a)]
    let t (a : Word) := run Watch.next (s a) (List.replicate 8 (clock quiet))
    (∃ x, (s 0x80000100).got .wbm1 ++ [(((s 0x80000100).soc.ports .wbm1).req, x)] <+:
      (t 0x80000100).got .wbm1) ∧
      ¬∃ x, (s 0x80000200).got .wbm1 ++ [(((s 0x80000200).soc.ports .wbm1).req, x)] <+:
        (t 0x80000200).got .wbm1 := by
  have hans :=
    answered_iff [clock (storing 0x80000100)] (List.replicate 8 (clock quiet)) .wbm1
      (by decide) (by decide)
  have hhang :=
    answered_iff [clock (storing 0x80000200)] (List.replicate 8 (clock quiet)) .wbm1
      (by decide) (by decide)
  refine ⟨hans.mpr ?_, fun h => hhang.mp h ?_⟩
  · rintro ⟨r, hr, hg⟩
    rw [upTo_last rfl (by decide), List.mem_singleton] at hr
    rw [hr] at hg
    exact absurd hg (by decide)
  · exact ⟨_, List.mem_cons_self .., by decide⟩

end HashRatio.BusRuns
