import HashRatio.SpiPhases

/-!
# The SPI master over whole calls

Every access of `spi_transfer` as a move between the phases, and from that every
run of calls: what the slaves saw and what the firmware was given.
-/

namespace HashRatio.SpiRuns
open Bytes Spi SpiFrame SpiTransfer SpiPhases

/-! ### The port during an access -/

section port
variable {m : ℕ → Bool} {l : Line} {we : Bool} {adr : Byte} {dat : Word}

/-- After `k` edges with the strobe held. -/
def portAt (we : Bool) (adr : Byte) (dat : Word) (ack wait : Bool) : Port :=
  ⟨adr == 0x00, adr == 0x04, adr == 0x08, adr == 0x0c, adr == 0x10, we, !we, dat, ack, wait⟩

theorem port_first (h : Still l.regs.port) :
    (strobed m l adr dat we 1).regs.port = portAt we adr dat we (!we) := by
  cases we <;> simp [strobed, step, next, Port.next, strobe, portAt, h.ack, h.wait]

theorem port_second (h : Still l.regs.port) :
    (strobed m l adr dat we 2).regs.port = portAt we adr dat (!we) (!we) := by
  have hfirst : (strobed m l adr dat we 1).regs.port = portAt we adr dat we (!we) := port_first h
  have hport : (strobed m l adr dat we 2).regs.port =
      (strobed m l adr dat we 1).regs.port.next (strobe we adr dat) :=
    rfl
  rw [hport, hfirst]
  cases we <;> simp [Port.next, strobe, portAt]

theorem port_third (h : Still l.regs.port) :
    (strobed m l adr dat false 3).regs.port = portAt false adr dat false false := by
  have hport : (strobed m l adr dat false 3).regs.port =
    (strobed m l adr dat false 2).regs.port.next (strobe false adr dat) := rfl
  rw [hport, port_second h]
  simp [Port.next, strobe, portAt]

theorem idle_still {o : Other} (h : l.regs.port.ack = false)
    (hw : l.regs.port.readWaitDone = false) :
    Still (step m l o.cycle).regs.port := by
  constructor <;> simp [step, next, Port.next, Other.cycle, h, hw]

end port

/-! ### Cycles and polls -/

section kept
variable {m : ℕ → Bool} {P : ℕ → Line → Prop} {k : ℕ} {l : Line}

/-- What quiet cycles keep, with a count they take from. -/
def Kept (m : ℕ → Bool) (P : ℕ → Line → Prop) : Prop :=
  ∀ k l c, P k l → Quiet l.regs.port → P (k - 1) (step m l c)

theorem quiet_read {adr : Byte} {ack wait : Bool} (h : adr = rxAddr → ack = false) :
    Quiet (portAt false adr 0 ack wait) := by
  refine ⟨rfl, rfl, rfl, ?_⟩
  have htakes : takes (portAt false adr 0 ack wait) = (adr == rxAddr && ack) :=
    Bool.true_and _ ▸ rfl
  rw [htakes]
  by_cases hrx : adr = rxAddr
  · rw [h hrx, Bool.and_false]
  · rw [beq_eq_false_iff_ne.mpr hrx, Bool.false_and]

theorem pause_kept (hkept : Kept m P) (os : List Other) (hs : Still l.regs.port) (hp : P k l) :
    P (k - os.length) (pause m l os) ∧ Still (pause m l os).regs.port := by
  induction os generalizing k l with
  | nil => exact ⟨hp, hs⟩
  | cons o os ih =>
    have hnext := ih (idle_still (o := o) hs.ack hs.wait) (hkept k l o.cycle hp hs.quiet)
    rwa [Nat.sub_sub, Nat.add_comm] at hnext

theorem status_first (hkept : Kept m P) (hs : Still l.regs.port) (hp : P k l) :
    P (k - 1) (strobed m l statusAddr 0 false 1) :=
  hkept k l (strobe false statusAddr 0) hp hs.quiet

theorem status_rest (hkept : Kept m P) (o : Other) (hs : Still l.regs.port)
    (hp : P k (strobed m l statusAddr 0 false 1)) : P (k - 3) (readl m l statusAddr o).1 := by
  have hport : (strobed m l statusAddr 0 false 1).regs.port =
      portAt false statusAddr 0 false true := port_first hs
  have hport' : (strobed m l statusAddr 0 false 2).regs.port =
      portAt false statusAddr 0 true true := port_second hs
  have hport'' : (strobed m l statusAddr 0 false 3).regs.port =
      portAt false statusAddr 0 false false := port_third hs
  have hsecond := hkept _ _ (strobe false statusAddr 0) hp (by
    rw [hport]
    exact quiet_read fun _ => rfl)
  have hthird := hkept _ (strobed m l statusAddr 0 false 2) (strobe false statusAddr 0) hsecond (by
    rw [hport']
    exact quiet_read fun h => absurd h (by decide))
  exact hkept _ (strobed m l statusAddr 0 false 3) o.cycle hthird (by
    rw [hport'']
    exact quiet_read fun _ => rfl)

theorem read_still (hs : Still l.regs.port) (adr : Byte) (o : Other) :
    Still (readl m l adr o).1.regs.port := by
  have hport : (strobed m l adr 0 false 3).regs.port = portAt false adr 0 false false :=
    port_third hs
  apply idle_still
  · exact congrArg Port.ack hport
  · exact congrArg Port.readWaitDone hport

theorem status_value (m : ℕ → Bool) (o : Other) (hs : Still l.regs.port) :
    (readl m l statusAddr o).2 = (strobed m l statusAddr 0 false 1).regs.regStatus.setWidth 32 := by
  have hport : (strobed m l statusAddr 0 false 1).regs.port =
      portAt false statusAddr 0 false true := port_first hs
  change (next (strobed m l statusAddr 0 false 1).regs (strobe false statusAddr 0)
    (m (strobed m l statusAddr 0 false 1).time)).datO = _
  simp only [next, hport, portAt]
  rfl

theorem rx_value (m : ℕ → Bool) (o : Other) (hs : Still l.regs.port) :
    (readl m l rxAddr o).2 = (strobed m l rxAddr 0 false 1).regs.regRxdata.setWidth 32 := by
  have hport : (strobed m l rxAddr 0 false 1).regs.port = portAt false rxAddr 0 false true :=
    port_first hs
  change (next (strobed m l rxAddr 0 false 1).regs (strobe false rxAddr 0)
    (m (strobed m l rxAddr 0 false 1).time)).datO = _
  simp only [next, hport, portAt]
  rfl

theorem status_trdy (s : Regs) : s.regStatus.setWidth 32 &&& statTrdy ≠ 0 ↔ s.regTrdy = true := by
  simp only [Regs.regStatus]
  generalize s.regE = e, s.regRrdy = rrdy, s.regTrdy = trdy, s.regTmt = tmt,
    s.regToe = toe, s.regRoe = roe
  revert e rrdy trdy tmt toe roe
  decide

theorem status_rrdy (s : Regs) : s.regStatus.setWidth 32 &&& statRrdy ≠ 0 ↔ s.regRrdy = true := by
  simp only [Regs.regStatus]
  generalize s.regE = e, s.regRrdy = rrdy, s.regTrdy = trdy, s.regTmt = tmt,
    s.regToe = toe, s.regRoe = roe
  revert e rrdy trdy tmt toe roe
  decide

end kept

/-! ### At rest and awaited -/

/-- At most `k` edges until the byte that was sent is received. -/
def Awaited (mask w : Byte) (old : List Pulse) (k : ℕ) (l : Line) : Prop :=
  (∃ n, Queued mask w old n l ∧ 641 ≤ k + n) ∨ ∃ n, Busy mask w old n l ∧ 288 ≤ k + n

def Resting (mask : Byte) (old : List Pulse) (_ : ℕ) (l : Line) : Prop := ∃ n, Rest mask old n l

section phases
variable {m : ℕ → Bool} {mask w : Byte} {old : List Pulse} {k : ℕ} {l : Line}

theorem resting_kept : Kept m (Resting mask old) := fun _ _ _ ⟨_, h⟩ hq => ⟨_, h.edge hq⟩

theorem received_kept : Kept m fun _ l => ∃ n, 288 ≤ n ∧ Busy mask w old n l :=
  fun _ _ _ ⟨_, hn, h⟩ hq => ⟨_, by omega, h.edge hq⟩

theorem awaited_kept : Kept m (Awaited mask w old) := by
  rintro k l c (⟨n, h, hk⟩ | ⟨n, h, hk⟩) hq
  · have hcap := h.timed.cap
    by_cases hn : n < 352
    · exact Or.inl ⟨n + 1, h.edge hq.steady hn, by omega⟩
    · exact Or.inr ⟨0, h.begins hq.steady (by omega), by omega⟩
  · exact Or.inr ⟨_, h.edge hq, by omega⟩

theorem Awaited.rrdy (h : Awaited mask w old k l) (hr : l.regs.regRrdy = true) :
    ∃ n, 288 ≤ n ∧ Busy mask w old n l := by
  rcases h with ⟨n, h, -⟩ | ⟨n, h, -⟩
  · exact absurd (h.rrdy.symm.trans hr) Bool.false_ne_true
  · exact ⟨n, of_decide_eq_true (h.rrdy.symm.trans hr), h⟩

theorem Awaited.received (h : Awaited mask w old 0 l) : l.regs.regRrdy = true := by
  rcases h with ⟨n, h, hk⟩ | ⟨n, h, hk⟩
  · have hcap := h.timed.cap
    omega
  · rw [h.rrdy, decide_eq_true]
    omega

theorem lanes_low (b : Byte) : (lanes b).setWidth 8 = b := by
  have hbytes := wordBytes_beWord b b b b
  simp only [wordBytes, List.cons.injEq, and_true] at hbytes
  exact hbytes.2.2.2

/-! ### Accesses of the firmware -/

variable {old : List Pulse}

theorem write_still {l : Line} (hs : Still l.regs.port) (adr : Byte) (dat : Word) (o : Other) :
    Still (writel m l adr dat o).regs.port := by
  have hport : (strobed m l adr dat true 2).regs.port = portAt true adr dat false false :=
    port_second hs
  apply idle_still
  · exact congrArg Port.ack hport
  · exact congrArg Port.readWaitDone hport

theorem select_rest (hs : Still l.regs.port) (h : Resting mask old 0 l) (chip : Byte) (o : Other) :
    Resting chip old 0 (writel m l ssmaskAddr (lanes chip) o) := by
  obtain ⟨n, h⟩ := h
  have hfirst := h.edge (m := m) (c := strobe true ssmaskAddr (lanes chip)) hs.quiet
  have hport : (strobed m l ssmaskAddr (lanes chip) true 1).regs.port =
      portAt true ssmaskAddr (lanes chip) true false :=
    port_first hs
  have hport' : (strobed m l ssmaskAddr (lanes chip) true 2).regs.port =
      portAt true ssmaskAddr (lanes chip) false false :=
    port_second hs
  have hsecond := Rest.select (l := strobed m l ssmaskAddr (lanes chip) true 1)
    (c := strobe true ssmaskAddr (lanes chip)) (m := m) hfirst (by rw [hport]; rfl)
    (by rw [hport]; rfl) (by rw [hport]; rfl) (by rw [hport]; rfl)
  have hthird := Rest.select (l := strobed m l ssmaskAddr (lanes chip) true 2)
    (c := o.cycle) (m := m) hsecond (by rw [hport']; rfl) (by rw [hport']; rfl)
    (by rw [hport']; rfl) (by rw [hport']; rfl)
  have hchip :
      (strobed m l ssmaskAddr (lanes chip) true 2).regs.port.latchSData.setWidth 8 = chip := by
    rw [hport']
    exact lanes_low chip
  rw [hchip] at hthird
  exact ⟨_, hthird⟩

theorem send_awaited (hs : Still l.regs.port) (h : Resting mask old 0 l) (w : Byte) (o : Other) :
    Awaited mask w old 352 (writel m l txAddr (lanes w) o) := by
  obtain ⟨n, h⟩ := h
  have hfirst := h.edge (m := m) (c := strobe true txAddr (lanes w)) hs.quiet
  have hport : (strobed m l txAddr (lanes w) true 1).regs.port =
      portAt true txAddr (lanes w) true false :=
    port_first hs
  have hport' : (strobed m l txAddr (lanes w) true 2).regs.port =
      portAt true txAddr (lanes w) false false :=
    port_second hs
  have hsecond := Rest.send (l := strobed m l txAddr (lanes w) true 1)
    (c := strobe true txAddr (lanes w)) (m := m)
    hfirst (by rw [hport]; rfl) (by rw [hport]; rfl) (by rw [hport]; rfl) (by rw [hport]; rfl)
      (by rw [hport]; rfl)
  have hbyte : (strobed m l txAddr (lanes w) true 1).regs.port.latchSData.setWidth 8 = w := by
    rw [hport]
    exact lanes_low w
  rw [hbyte] at hsecond
  have hsteady : Steady (strobed m l txAddr (lanes w) true 2).regs.port := by
    rw [hport']
    exact ⟨rfl, rfl, rfl, rfl⟩
  have hlate := hsecond.late
  have hcap := hsecond.timed.cap
  by_cases hn : after (after n false) false < 352
  · exact Or.inl ⟨_, hsecond.edge hsteady hn, by omega⟩
  · exact Or.inr ⟨0, hsecond.begins hsteady (by omega), by decide⟩

theorem fetch_rest (hs : Still l.regs.port) {w : Byte} {n : ℕ} (h : Busy mask w old n l)
    (hn : 288 ≤ n) (o : Other) :
    ∃ ps, Resting mask (old ++ ps) 0 (readl m l rxAddr o).1 ∧ ps.map Pulse.out = sent mask [w] ∧
      ps.map Pulse.miso = bits [(readl m l rxAddr o).2.setWidth 8] := by
  have hfirst := h.edge (m := m) (c := strobe false rxAddr 0) hs.quiet
  have hport : (strobed m l rxAddr 0 false 1).regs.port = portAt false rxAddr 0 false true :=
    port_first hs
  have hport' : (strobed m l rxAddr 0 false 2).regs.port = portAt false rxAddr 0 true true :=
    port_second hs
  have hport'' : (strobed m l rxAddr 0 false 3).regs.port = portAt false rxAddr 0 false false :=
    port_third hs
  have hlate : 289 ≤ min (n + 1) 352 := by omega
  obtain ⟨ps, hps, hout, hbits⟩ := hfirst.exchanged hlate
  have hquiet : Quiet (strobed m l rxAddr 0 false 1).regs.port := by
    rw [hport]
    exact quiet_read fun _ => rfl
  have hsecond := hfirst.edge (m := m) (c := strobe false rxAddr 0) hquiet
  have hthird := Busy.taken (l := strobed m l rxAddr 0 false 2)
    (c := strobe false rxAddr 0) (m := m) hsecond
    (by omega) (by rw [hport']; rfl) (by rw [hport']; rfl) (by rw [hport']; rfl)
    (by rw [hport']; rfl)
  have hlast := hthird.edge (l := strobed m l rxAddr 0 false 3) (m := m) (c := o.cycle) (by
    rw [hport'']
    exact quiet_read fun _ => rfl)
  have hpulses : (strobed m l rxAddr 0 false 2).pulses = old ++ ps := by
    rw [← hps]
    exact (step_pulses hfirst.timed).trans (if_neg (not_rise (by omega)))
  rw [hpulses] at hlast
  refine ⟨ps, ⟨_, hlast⟩, hout, ?_⟩
  rw [rx_value m o hs, hbits, BitVec.setWidth_setWidth_of_le _ (by decide), BitVec.setWidth_eq]
  rfl

end phases

/-! ### Runs of calls -/

def callSent (c : Call) : List (Byte × Bool) := SpiPhases.sent c.chipIdx c.wbuff

/-- Accesses that are enough for some calls. -/
def budget (cs : List Call) : ℕ := (cs.map fun c => 1 + 92 * c.wbuff.length).sum

/-- What went out for the running call. -/
def begun (d : Driver) : List (Byte × Bool) :=
  match d.calls with
  | [] => []
  | c :: _ => SpiPhases.sent c.chipIdx (c.wbuff.take d.i)

/-- The pulses of all bytes exchanged so far. -/
structure Told (cs : List Call) (d : Driver) (old : List Pulse) : Prop where
  calls : ∃ dones, cs = dones ++ d.calls ∧
    d.results.map List.length = dones.map (fun c => c.wbuff.length) ∧
    old.map Pulse.out = dones.flatMap callSent ++ begun d
  read : old.map Pulse.miso = bits (d.results.flatten ++ d.rbuff)

/-- Where the byte of the current access is, and that `v` accesses are enough from here. -/
def Place (d : Driver) (old : List Pulse) (l : Line) (v : ℕ) : Prop :=
  match d.calls with
  | [] => d.rbuff = [] ∧ ∃ mask, Resting mask old 0 l
  | c :: cs =>
    d.rbuff.length = d.i ∧
      match d.pc with
      | .select =>
        d.i = 0 ∧ (∃ mask, Resting mask old 0 l) ∧ 1 + 92 * c.wbuff.length + budget cs ≤ v
      | .trdy =>
        d.i < c.wbuff.length ∧ Resting c.chipIdx old 0 l ∧
          92 * (c.wbuff.length - d.i) + budget cs ≤ v
      | .send =>
        d.i < c.wbuff.length ∧ Resting c.chipIdx old 0 l ∧
          92 * (c.wbuff.length - d.i) + budget cs ≤ v + 1
      | .rrdy => d.i < c.wbuff.length ∧ ∃ k, Awaited c.chipIdx (c.wbuff.getD d.i 0) old k l ∧
          (k + 3) / 4 + 2 + 92 * (c.wbuff.length - d.i - 1) + budget cs ≤ v
      | .fetch =>
        d.i < c.wbuff.length ∧ (∃ n, 288 ≤ n ∧ Busy c.chipIdx (c.wbuff.getD d.i 0) old n l) ∧
          1 + 92 * (c.wbuff.length - d.i - 1) + budget cs ≤ v

structure Good (cs : List Call) (v : ℕ) (x : Sys) : Prop where
  still : Still x.line.regs.port
  place : ∃ old, Told cs x.driver old ∧ Place x.driver old x.line v

section runs
variable {m : ℕ → Bool} {cs : List Call} {v : ℕ} {x : Sys} {old : List Pulse} {l : Line}

theorem Told.loop {d : Driver} {c : Call} {rest : List Call} (h : Told cs d old)
    (hd : d.calls = c :: rest) (hi : d.i ≤ c.wbuff.length) (hlen : d.rbuff.length = d.i) :
    Told cs d.loop old := by
  obtain ⟨⟨dones, hcs, hresults, hout⟩, hread⟩ := h
  by_cases hlt : d.i < c.wbuff.length
  · have hloop : d.loop = {d with pc := .trdy} := by simp only [Driver.loop, hd, if_pos hlt]
    rw [hloop]
    exact ⟨⟨dones, hcs, hresults, hout⟩, hread⟩
  · have hloop : d.loop = ⟨.select, rest, 0, [], d.results ++ [d.rbuff]⟩ := by
      simp only [Driver.loop, hd, if_neg hlt]
    have heq : d.i = c.wbuff.length := by omega
    rw [hloop]
    refine ⟨⟨dones ++ [c], ?_, ?_, ?_⟩, ?_⟩
    · rw [hcs, hd, List.append_assoc]
      rfl
    · rw [List.map_append, List.map_append, hresults, List.map_singleton,
        List.map_singleton, hlen, heq]
    · have hbegun : begun d = callSent c := by
        simp only [begun, hd, heq, List.take_length, callSent]
      have hnone : begun ⟨.select, rest, 0, [], d.results ++ [d.rbuff]⟩ = [] := by
        cases rest <;> rfl
      rw [hout, hbegun, hnone, List.append_nil, List.flatMap_append, List.flatMap_singleton]
    · rw [hread, List.flatten_append, List.flatten_singleton, List.append_nil]

theorem place_loop {d : Driver} {c : Call} {rest : List Call} (hd : d.calls = c :: rest)
    (hlen : d.rbuff.length = d.i) (h : Resting c.chipIdx old 0 l)
    (hv : 92 * (c.wbuff.length - d.i) + budget rest ≤ v) : Place d.loop old l v := by
  by_cases hlt : d.i < c.wbuff.length
  · have hloop : d.loop = {d with pc := .trdy} := by simp only [Driver.loop, hd, if_pos hlt]
    rw [hloop]
    simp only [Place, hd]
    exact ⟨hlen, hlt, h, hv⟩
  · have hloop : d.loop = ⟨.select, rest, 0, [], d.results ++ [d.rbuff]⟩ := by
      simp only [Driver.loop, hd, if_neg hlt]
    rw [hloop]
    cases rest with
    | nil => exact ⟨rfl, _, h⟩
    | cons c' rest =>
      refine ⟨rfl, rfl, ⟨_, h⟩, ?_⟩
      simp only [budget, List.map_cons, List.sum_cons] at hv ⊢
      omega

theorem Good.step (h : Good cs v x) (g : Gap) : Good cs (v - 1) (exec m x g) := by
  obtain ⟨hs, old, htold, hplace⟩ := h
  obtain ⟨line, ⟨pc, calls, i, rbuff, results⟩⟩ := x
  cases calls with
  | nil =>
    obtain ⟨hrbuff, mask, hrest⟩ := hplace
    obtain ⟨hpause, hstill⟩ := pause_kept (resting_kept (m := m)) g.before hs hrest
    exact ⟨idle_still hstill.ack hstill.wait, old, htold, hrbuff, mask,
      resting_kept _ _ g.last.cycle hpause hstill.quiet⟩
  | cons c rest =>
    obtain ⟨hlen, hplace⟩ := hplace
    dsimp only at hlen hplace hs
    cases pc with
    | select =>
      obtain ⟨hi, ⟨mask, hrest⟩, hv⟩ := hplace
      obtain ⟨hpause, hstill⟩ := pause_kept (resting_kept (m := m)) g.before hs hrest
      have hselect := select_rest (m := m) hstill hpause c.chipIdx g.last
      exact ⟨write_still hstill _ _ _, old, htold.loop rfl (by simp [hi]) hlen,
        place_loop rfl hlen hselect (by simp only; omega)⟩
    | trdy =>
      obtain ⟨hi, hrest, hv⟩ := hplace
      obtain ⟨hpause, hstill⟩ := pause_kept (resting_kept (m := m)) g.before hs hrest
      have hfirst := status_first (resting_kept (m := m)) hstill hpause
      have hlast := status_rest resting_kept g.last hstill hfirst
      have htrdy : (readl m (pause m line g.before) statusAddr g.last).2 &&& statTrdy ≠ 0 := by
        obtain ⟨n, hn⟩ := hfirst
        rw [status_value m g.last hstill]
        exact (status_trdy _).mpr hn.trdy
      have hexec : exec m ⟨line, ⟨.trdy, c :: rest, i, rbuff, results⟩⟩ g =
          ⟨(readl m (pause m line g.before) statusAddr g.last).1,
            ⟨.send, c :: rest, i, rbuff, results⟩⟩ := by
        simp only [exec, if_pos htrdy]
      rw [hexec]
      exact ⟨read_still hstill _ _, old, ⟨htold.calls, htold.read⟩, hlen, hi, hlast,
        by simp only; omega⟩
    | send =>
      obtain ⟨hi, hrest, hv⟩ := hplace
      obtain ⟨hpause, hstill⟩ := pause_kept (resting_kept (m := m)) g.before hs hrest
      have hsend := send_awaited (m := m) hstill hpause (c.wbuff.getD i 0) g.last
      have hcost : (352 + 3) / 4 + 2 + 92 * (c.wbuff.length - i - 1) + budget rest ≤ v - 1 := by
        omega
      exact ⟨write_still hstill _ _ _, old, ⟨htold.calls, htold.read⟩, hlen, hi, 352, hsend, hcost⟩
    | rrdy =>
      obtain ⟨hi, k, hawait, hv⟩ := hplace
      obtain ⟨hpause, hstill⟩ := pause_kept (awaited_kept (m := m)) g.before hs hawait
      have hfirst := status_first (awaited_kept (m := m)) hstill hpause
      have hvalue := status_value m g.last hstill
      by_cases hrrdy : (readl m (pause m line g.before) statusAddr g.last).2 &&& statRrdy ≠ 0
      · have hexec : exec m ⟨line, ⟨.rrdy, c :: rest, i, rbuff, results⟩⟩ g =
            ⟨(readl m (pause m line g.before) statusAddr g.last).1,
              ⟨.fetch, c :: rest, i, rbuff, results⟩⟩ := by
          simp only [exec, if_pos hrrdy]
        rw [hvalue, status_rrdy] at hrrdy
        have hreceived := status_rest received_kept g.last hstill (hfirst.rrdy hrrdy) (k := 0)
        rw [hexec]
        exact ⟨read_still hstill _ _, old, ⟨htold.calls, htold.read⟩, hlen, hi, hreceived,
          by simp only; omega⟩
      · have hexec : exec m ⟨line, ⟨.rrdy, c :: rest, i, rbuff, results⟩⟩ g =
            ⟨(readl m (pause m line g.before) statusAddr g.last).1,
              ⟨.rrdy, c :: rest, i, rbuff, results⟩⟩ := by
          simp only [exec, if_neg hrrdy]
        rw [hvalue, status_rrdy] at hrrdy
        have hmore : k - g.before.length - 1 ≠ 0 := fun hzero => hrrdy (hzero ▸ hfirst).received
        have hlast := status_rest awaited_kept g.last hstill hfirst
        rw [hexec]
        exact ⟨read_still hstill _ _, old, ⟨htold.calls, htold.read⟩, hlen, hi, _, hlast,
          by simp only; omega⟩
    | fetch =>
      obtain ⟨hi, hbusy, hv⟩ := hplace
      obtain ⟨⟨n, hn, hpause⟩, hstill⟩ :=
        pause_kept (received_kept (m := m)) g.before hs hbusy (k := 0)
      obtain ⟨ps, hrest, hout, hbits⟩ := fetch_rest (m := m) hstill hpause hn g.last
      have hget : c.wbuff.getD i 0 = c.wbuff[i] := List.getD_eq_getElem _ _ hi
      have hlen' :
          (rbuff ++ [(readl m (pause m line g.before) rxAddr g.last).2.setWidth 8]).length =
            i + 1 :=
        (List.length_append ..).trans (congrArg (· + 1) hlen)
      have htold' : Told cs ⟨.fetch, c :: rest, i + 1,
          rbuff ++ [(readl m (pause m line g.before) rxAddr g.last).2.setWidth 8], results⟩
            (old ++ ps) := by
        obtain ⟨dones, hcs, hresults, hall⟩ := htold.calls
        refine ⟨⟨dones, hcs, hresults, ?_⟩, ?_⟩
        · rw [List.map_append, hall, hout, List.append_assoc, hget]
          simp only [begun]
          rw [List.take_succ_eq_append_getElem hi, SpiPhases.sent, SpiPhases.sent,
            SpiPhases.sent, bits_append, List.map_append]
        · rw [List.map_append, htold.read, hbits]
          simp only [bits_append, List.append_assoc]
      have hcost : 92 * (c.wbuff.length - (i + 1)) + budget rest ≤ v - 1 := by omega
      exact ⟨read_still hstill _ _, old ++ ps, htold'.loop rfl (Nat.succ_le_of_lt hi) hlen',
        place_loop rfl hlen' hrest hcost⟩

theorem good_start (cs : List Call) : Good cs (budget cs) (Sys.start cs) := by
  refine ⟨still_reset, [], ⟨⟨[], rfl, rfl, ?_⟩, rfl⟩, ?_⟩
  · cases cs <;> rfl
  · have hrest : Resting 0 [] 0 Line.reset :=
      ⟨352, ⟨timed_reset, rfl, rfl, rfl, rfl, rfl, rfl, rfl⟩, by decide, rfl⟩
    cases cs with
    | nil => exact ⟨rfl, 0, hrest⟩
    | cons c cs => exact ⟨rfl, rfl, ⟨0, hrest⟩, le_rfl⟩

theorem good_run (gs : List Gap) (h : Good cs v x) :
    Good cs (v - gs.length) (Run.run (exec m) x gs) := by
  induction gs generalizing v x with
  | nil => exact h
  | cons g gs ih =>
    have hnext := ih (h.step (m := m) g)
    rwa [Nat.sub_sub, Nat.add_comm] at hnext

theorem Place.done {d : Driver} (h : Place d old l 0) : d.calls = [] := by
  obtain ⟨pc, calls, i, rbuff, results⟩ := d
  cases calls with
  | nil => rfl
  | cons c rest =>
    obtain ⟨-, h⟩ := h
    cases pc with
    | select =>
      obtain ⟨-, -, hv⟩ := h
      omega
    | trdy | send =>
      obtain ⟨hi, -, hv⟩ := h
      dsimp only at hi hv
      omega
    | rrdy =>
      obtain ⟨-, k, -, hv⟩ := h
      omega
    | fetch =>
      obtain ⟨-, -, hv⟩ := h
      omega

/-- Whatever the timing of the accesses and whatever comes in on MISO, the calls return, the chips
selected see their bytes once and in order, and each caller gets the levels of MISO at the same
edges. -/
theorem calls_exchange (m : ℕ → Bool) (cs : List Call) (gs : List Gap) (h : budget cs ≤ gs.length) :
    let x := Run.run (exec m) (Sys.start cs) gs
    x.driver.calls = [] ∧ x.line.pulses.map Pulse.out = cs.flatMap callSent ∧
      x.driver.results.map List.length = cs.map (fun c => c.wbuff.length) ∧
      bits x.driver.results.flatten = x.line.pulses.map Pulse.miso ∧
      x.line.regs.regRoe = false ∧ x.line.regs.regToe = false := by
  have hgood := good_run (m := m) gs (good_start cs)
  rw [Nat.sub_eq_zero_of_le h] at hgood
  obtain ⟨-, old, ⟨⟨dones, hcs, hresults, hout⟩, hread⟩, hplace⟩ := hgood
  have hdone := hplace.done
  have hrest := hplace
  simp only [Place, hdone] at hrest
  obtain ⟨hrbuff, mask, n, hrest⟩ := hrest
  rw [hdone, List.append_nil] at hcs
  have hbegun : begun (Run.run (exec m) (Sys.start cs) gs).driver = [] := by
    simp only [begun, hdone]
  refine ⟨hdone, ?_, ?_, ?_, hrest.roe, hrest.toe⟩
  · rw [hrest.pulses, hout, hbegun, List.append_nil, hcs]
  · rw [hresults, hcs]
  · rw [hrest.pulses, hread, hrbuff, List.append_nil]

/-- Two bytes for one chip, then one for another. -/
def twoCalls : List Call := [⟨0x0b, [0xa5, 0x5a]⟩, ⟨0x07, [0xc3]⟩]

theorem calls_exchange_two :
    let x := Run.run (exec fun n => n % 3 == 0) (Sys.start twoCalls)
      (List.replicate 278 ⟨[⟨false, 0x0c, 0⟩], ⟨false, 0, 0⟩⟩)
    x.line.pulses.map Pulse.out = callSent ⟨0x0b, [0xa5, 0x5a]⟩ ++ callSent ⟨0x07, [0xc3]⟩ ∧
      x.driver.results.map List.length = [2, 1] ∧
      bits x.driver.results.flatten = x.line.pulses.map Pulse.miso := by
  obtain ⟨-, hsent, hlengths, hread, -⟩ := calls_exchange (fun n => n % 3 == 0) twoCalls
    (List.replicate 278 ⟨[⟨false, 0x0c, 0⟩], ⟨false, 0, 0⟩⟩) (by rw [List.length_replicate]; decide)
  exact ⟨hsent, hlengths, hread⟩

end runs

end HashRatio.SpiRuns
