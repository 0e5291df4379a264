import HashRatio.Results

/-!
# main

The firmware as a system of events (a packet handled, a chip looked at by the
dispatch loop, a result pass, the two ends of the main loop) and `main` as the
automaton that produces them. Packets arrive whenever `get_pkg` is called.
-/

namespace HashRatio.MainLoop
open Bytes Protocol Drivers State Packets Results

variable {σ : Type}

/-! ### Events -/

def gTempHigh : ℕ := 60

def checkTemp (b : Board σ) (s : Fw σ) : Fw σ :=
  let r := timerRead b s.dev 1
  let s := {s with dev := r.1}
  let s := if r.2 = 0 then
      let t := readTemp b s.dev
      {s with dev := timerSet b t.1 1 5, tmp := t.2}
    else s
  {s with dev := if s.tmp.toNat ≥ gTempHigh then ledOn b s.dev 0x80 else ledOff b s.dev 0x80}

/-- When no SET came for a minute, mining stops and the ring is cleared. -/
def checkIdle (b : Board σ) (s : Fw σ) : Fw σ :=
  let r := timerRead b s.dev 0
  if r.2 = 0 ∧ s.newStratum then
    {s with newStratum := false, jobs := s.jobs.clearRing, dev := adjustFan b r.1 200}
  else {s with dev := r.1}

inductive Event where
  | pkg (p : Pkg)
  | loopHead
  | loopCheck
  | dispatch (idx : ℕ)
  | readResult

def step (b : Board σ) (s : Fw σ) : Event → Fw σ
  | .pkg p => (handlePkg b s p).1
  | .loopHead => {s with dev := wdgFeedSec b s.dev 60}
  | .loopCheck => checkIdle b (checkTemp b s)
  | .dispatch idx => Results.dispatch b s idx
  | .readResult => be200ReadResult b s

/-- The operations an event may stand for. -/
def EventOps : Event → List JobOp → Prop
  | .pkg p, ops => ¬CrcOk p ∧ ops = [] ∨ CrcOk p ∧ ops = [acceptOp p]
  | .loopHead, ops => ops = []
  | .loopCheck, ops => ops = [] ∨ ops = [.clearRing]
  | .dispatch idx, ops => ops = [] ∨ ops = [.dispatch idx]
  | .readResult, ops =>
    ∃ opss, List.Forall₂ ChipOps (List.range chipNumber) opss ∧ ops = opss.flatten

theorem checkTemp_jobs (b : Board σ) (s : Fw σ) : (checkTemp b s).jobs = s.jobs := by
  simp only [checkTemp]
  split <;> rfl

theorem step_ops (b : Board σ) (s : Fw σ) (e : Event) :
    ∃ ops, EventOps e ops ∧ (step b s e).jobs = Run.run Jobs.apply s.jobs ops := by
  cases e with
  | pkg p =>
    rw [step, handlePkg_jobs]
    by_cases h : CrcOk p
    · exact ⟨[acceptOp p], Or.inr ⟨h, rfl⟩, by rw [if_pos h, Run.run_cons, Run.run_nil]⟩
    · exact ⟨[], Or.inl ⟨h, rfl⟩, by rw [if_neg h, Run.run_nil]⟩
  | loopHead => exact ⟨[], rfl, rfl⟩
  | loopCheck =>
    simp only [step, checkIdle]
    split
    · exact ⟨[.clearRing], Or.inr rfl,
        by simp only [Run.run_cons, Run.run_nil, apply_clearRing, checkTemp_jobs]⟩
    · exact ⟨[], Or.inl rfl, by simp only [Run.run_nil, checkTemp_jobs]⟩
  | dispatch idx =>
    rw [step, dispatch_jobs]
    split
    · exact ⟨[.dispatch idx], Or.inr rfl, by rw [Run.run_cons, Run.run_nil]⟩
    · exact ⟨[], Or.inl rfl, rfl⟩
  | readResult =>
    obtain ⟨opss, hopss, hrun⟩ := be200ReadResult_ops b s
    exact ⟨opss.flatten, ⟨opss, hopss, rfl⟩, hrun⟩

theorem chipOps_own {idx : ℕ} {ops : List JobOp} (h : ChipOps idx ops) (op : JobOp)
    (hop : op ∈ ops) : op.Own := by
  rcases h with rfl | ⟨mask, nonces, tail, _, htail, rfl⟩
  · cases hop
  · rw [List.mem_cons, List.mem_append, List.mem_map] at hop
    rcases hop with rfl | ⟨nonce, _, rfl⟩ | hop
    · trivial
    · trivial
    · rcases htail with rfl | ⟨nonce, rfl⟩
      · cases hop
      · rw [List.mem_singleton.mp hop]
        trivial

theorem passOps_own {is : List ℕ} {opss : List (List JobOp)}
    (h : List.Forall₂ ChipOps is opss) (op : JobOp)
    (hop : op ∈ opss.flatten) : op.Own := by
  induction h with
  | nil => cases hop
  | cons hops _ ih =>
    rw [List.flatten_cons, List.mem_append] at hop
    exact hop.elim (chipOps_own hops op) ih

/-- An event is an accepted packet or makes operations of the firmware's own. -/
theorem eventOps_cases {e : Event} {ops : List JobOp} (h : EventOps e ops) :
    (∃ p, e = .pkg p ∧ CrcOk p ∧ ops = [acceptOp p]) ∨ ∀ op ∈ ops, op.Own := by
  have hnil : ∀ op ∈ ([] : List JobOp), op.Own := fun op hop => by cases hop
  have hone (op' : JobOp) (hown : op'.Own) : ∀ op ∈ [op'], op.Own :=
    fun op hop => List.mem_singleton.mp hop ▸ hown
  cases e with
  | pkg p =>
    rcases h with ⟨_, rfl⟩ | ⟨hcrc, rfl⟩
    · exact Or.inr hnil
    · exact Or.inl ⟨p, rfl, hcrc, rfl⟩
  | loopHead =>
    rw [show ops = [] from h]
    exact Or.inr hnil
  | loopCheck =>
    rcases h with rfl | rfl
    · exact Or.inr hnil
    · exact Or.inr (hone _ trivial)
  | dispatch idx =>
    rcases h with rfl | rfl
    · exact Or.inr hnil
    · exact Or.inr (hone _ trivial)
  | readResult =>
    obtain ⟨opss, hopss, rfl⟩ := h
    exact Or.inr (passOps_own hopss)

theorem step_hist (b : Board σ) (s : Fw σ) (e : Event) :
    ∃ later, (step b s e).jobs.hist = later ++ s.jobs.hist := by
  obtain ⟨ops, _, hrun⟩ := step_ops b s e
  rw [hrun]
  exact ops_hist s.jobs ops

theorem checkTemp_newStratum (b : Board σ) (s : Fw σ) :
    (checkTemp b s).newStratum = s.newStratum := by
  simp only [checkTemp]
  split <;> rfl

theorem step_newStratum (b : Board σ) (s : Fw σ) (e : Event) (h : (step b s e).newStratum = true) :
    s.newStratum = true ∨ ∃ p, e = .pkg p ∧ CrcOk p ∧ pkgType p = some .set := by
  cases e with
  | pkg p => exact (handlePkg_newStratum b s p h).imp_right fun hp => ⟨p, rfl, hp⟩
  | loopHead => exact Or.inl h
  | loopCheck =>
    simp only [step, checkIdle] at h
    split at h
    · cases h
    · exact Or.inl (checkTemp_newStratum b s ▸ h)
  | dispatch idx => exact Or.inl (dispatch_newStratum b s idx ▸ h)
  | readResult => exact Or.inl (be200ReadResult_newStratum b s ▸ h)

/-! ### The automaton of main -/

def start (b : Board σ) (env : σ) : Fw σ :=
  let s := Fw.init env
  let d := writel b s.dev .wdg 1
  let d := wdgFeedSec b d 60
  let d := ledOff b d 0xAA
  let d := (List.range 5).foldl (fun d _ => ledOff b (ledOn b d 0xFF) 0xFF) d
  let d := ledOn b d 0xAA
  let d := adjustFan b d 200
  let d := setAllChipsIdle b (chipHardReset b d)
  {s with dev := timerSet b d 1 2}

/-- Where `main` is: at the head of its loop, in the first `get_pkg`, before chip `i` of the
chip loop, in the `get_pkg` after it. -/
inductive Pc where
  | head
  | poll
  | chip (i : ℕ)
  | chipPoll (i : ℕ)
  deriving DecidableEq, Repr

structure Main (σ : Type) where
  fw : Fw σ
  pc : Pc

/-- `get_pkg` completes a packet, or `main` goes on. -/
inductive Label where
  | frame (p : Pkg)
  | go

def mainEvent (m : Main σ) : Label → Option Event
  | .frame p =>
    match m.pc with
    | .poll | .chipPoll _ => some (.pkg p)
    | _ => none
  | .go =>
    match m.pc with
    | .head => some .loopHead
    | .poll => some .loopCheck
    | .chip i => if i < chipNumber then some (.dispatch i) else some .readResult
    | .chipPoll _ => none

def mainPc (b : Board σ) (m : Main σ) (after : Fw σ) : Label → Pc
  | .frame _ => m.pc
  | .go =>
    match m.pc with
    | .head => .poll
    | .poll => if after.newStratum then .chip 0 else .head
    | .chip i =>
      -- `continue` skips the `get_pkg` at the end of the turn
      if i < chipNumber then
        (if (be200IsIdle b m.fw.dev i).2 then .chipPoll i else .chip (i + 1)) else .head
    | .chipPoll i => .chip (i + 1)

def mainStep (b : Board σ) (m : Main σ) (l : Label) : Main σ :=
  let after := ((mainEvent m l).map (step b m.fw)).getD m.fw
  ⟨after, mainPc b m after l⟩

def Main.init (b : Board σ) (env : σ) : Main σ := ⟨start b env, .head⟩

end HashRatio.MainLoop
