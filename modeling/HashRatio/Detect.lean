import HashRatio.MainLoop

/-!
# DETECT stops mining

DETECT clears `g_new_stratum`, and `main` asks for the flag once a turn, before
the chip loop. So a DETECT that is handled at the head of the loop stops mining
at once, and one that is handled between two chips stops it from the next turn on.
-/

namespace HashRatio.Detect
open Bytes Protocol Drivers State Packets Results MainLoop

variable {σ : Type}

/-! ### What was handled last -/

/-- An accepted packet of a type. -/
def Is (t : PkgType) (p : Pkg) : Prop := CrcOk p ∧ pkgType p = some t

instance (t : PkgType) (p : Pkg) : Decidable (Is t p) := inferInstanceAs (Decidable (_ ∧ _))

def inChips : Pc → Bool
  | .chip _ | .chipPoll _ => true
  | _ => false

/-- `main` with what it handled: `stopped` says that no SET came after the last DETECT, `late` that
such a DETECT came within the chip loop that is under way. -/
structure Watched (σ : Type) where
  main : Main σ
  stopped : Bool
  late : Bool

def Watched.init (b : Board σ) (env : σ) : Watched σ := ⟨Main.init b env, false, false⟩

def watchedStep (b : Board σ) (w : Watched σ) (l : Label) : Watched σ :=
  let main := mainStep b w.main l
  match mainEvent w.main l with
  | some (.pkg p) =>
    if Is .detect p then ⟨main, true, w.late || inChips w.main.pc⟩
    else if Is .set p then ⟨main, false, false⟩
    else ⟨main, w.stopped, w.late⟩
  | some .readResult => ⟨main, w.stopped, false⟩
  | _ => ⟨main, w.stopped, w.late⟩

/-- The chip `main` is about to ask is idle, so that work is sent to it. -/
def Dispatches (b : Board σ) (m : Main σ) : Label → Prop
  | .go => ∃ idx < chipNumber, m.pc = .chip idx ∧ (be200IsIdle b m.fw.dev idx).2 = true
  | .frame _ => False

/-- No work is sent while mining is stopped. -/
def Silent (b : Board σ) (w : Watched σ) (l : Label) : Prop :=
  w.stopped = true → ¬Dispatches b w.main l

/-- After a DETECT within the chip loop the chips that are still asked are busy. -/
def BusyWhenLate (b : Board σ) (w : Watched σ) : Label → Prop
  | .go =>
    w.late = true → ∀ idx < chipNumber, w.main.pc = .chip idx →
      (be200IsIdle b w.main.fw.dev idx).2 = false
  | .frame _ => True

/-! ### The flag -/

theorem detect_newStratum (b : Board σ) (s : Fw σ) (p : Pkg) (h : Is .detect p) :
    (handlePkg b s p).1.newStratum = false := by
  rw [handlePkg, decodePkg_accept b s p h.1]
  simp only [Bool.false_eq_true, if_false, reply_newStratum, acceptPkg, h.2]

theorem step_off (b : Board σ) (s : Fw σ) (e : Event) (he : ∀ p, e = .pkg p → ¬Is .set p)
    (h : s.newStratum = false) : (step b s e).newStratum = false := by
  by_contra hne
  rcases step_newStratum b s e (by simpa using hne) with hold | ⟨p, hp, hset⟩
  · exact Bool.noConfusion (hold.symm.trans h)
  · exact he p hp hset

/-! ### Along a run -/

/-- Mining that is stopped is off, and then the chip loop runs only if the DETECT came within it. -/
structure Stops (w : Watched σ) : Prop where
  off : w.stopped = true → w.main.fw.newStratum = false
  late : w.stopped = true → inChips w.main.pc = true → w.late = true
  only : w.late = true → w.stopped = true

theorem init_stops (b : Board σ) (env : σ) : Stops (Watched.init b env) :=
  ⟨fun hs => absurd hs Bool.false_ne_true, fun hs => absurd hs Bool.false_ne_true,
    fun hl => absurd hl Bool.false_ne_true⟩

theorem pkg_stops (b : Board σ) (w : Watched σ) (h : Stops w) (p : Pkg)
    (he : mainEvent w.main (.frame p) = some (.pkg p)) : Stops (watchedStep b w (.frame p)) := by
  have hfw : (mainStep b w.main (.frame p)).fw = (handlePkg b w.main.fw p).1 := by
    simp only [mainStep, he, Option.map_some, Option.getD_some, step]
  have hpc : (mainStep b w.main (.frame p)).pc = w.main.pc := rfl
  simp only [watchedStep, he]
  split
  · rename_i hdetect
    refine ⟨fun _ => ?_, fun _ hin => ?_, fun _ => rfl⟩
    · rw [hfw]
      exact detect_newStratum b w.main.fw p hdetect
    · rw [hpc] at hin
      simp only [hin, Bool.or_true]
  · split
    · exact ⟨fun hs => absurd hs Bool.false_ne_true, fun hs => absurd hs Bool.false_ne_true,
        fun hl => absurd hl Bool.false_ne_true⟩
    · rename_i hset
      refine ⟨fun hs => ?_, fun hs hin => h.late hs (hpc ▸ hin), h.only⟩
      rw [hfw]
      exact step_off b w.main.fw (.pkg p) (fun q hq hq' => hset (by cases hq; exact hq')) (h.off hs)

theorem own_stops (b : Board σ) (w : Watched σ) (h : Stops w) (l : Label)
    (hown : ∀ p, mainEvent w.main l ≠ some (.pkg p))
    (late : Bool) (hkeep : late = w.late ∨ late = false ∧ inChips (mainStep b w.main l).pc = false)
    (hin : w.stopped = true → inChips (mainStep b w.main l).pc = true → inChips w.main.pc = true) :
    Stops ⟨mainStep b w.main l, w.stopped, late⟩ := by
  refine ⟨fun hs => ?_, fun hs hpc => ?_, fun hl => ?_⟩
  · simp only [mainStep]
    cases he : mainEvent w.main l with
    | none => exact h.off hs
    | some e =>
      refine step_off b w.main.fw e (fun p hp _ => hown p ?_) (h.off hs)
      rw [he, hp]
  · rcases hkeep with rfl | ⟨rfl, hout⟩
    · exact h.late hs (hin hs hpc)
    · exact Bool.noConfusion (hout.symm.trans hpc)
  · rcases hkeep with rfl | ⟨rfl, _⟩
    · exact h.only hl
    · cases hl

theorem watchedStep_stops (b : Board σ) (w : Watched σ) (l : Label) (h : Stops w) :
    Stops (watchedStep b w l) := by
  cases l with
  | frame p =>
    cases hpc : w.main.pc with
    | poll => exact pkg_stops b w h p (by simp only [mainEvent, hpc])
    | chipPoll i => exact pkg_stops b w h p (by simp only [mainEvent, hpc])
    | head | chip i =>
      have he : mainEvent w.main (.frame p) = none := by simp only [mainEvent, hpc]
      have hsame : (mainStep b w.main (.frame p)).pc = w.main.pc := rfl
      simp only [watchedStep, he]
      exact own_stops b w h (.frame p) (by simp [he]) w.late (Or.inl rfl) fun _ hin => hsame ▸ hin
  | go =>
    cases hpc : w.main.pc with
    | head =>
      have he : mainEvent w.main .go = some .loopHead := by simp only [mainEvent, hpc]
      have hnext : inChips (mainStep b w.main .go).pc = false := by
        simp only [mainStep, mainPc, hpc, inChips]
      simp only [watchedStep, he]
      exact own_stops b w h .go (by simp [he]) w.late (Or.inl rfl) fun _ hin => by
        rw [hnext] at hin; cases hin
    | poll =>
      have he : mainEvent w.main .go = some .loopCheck := by simp only [mainEvent, hpc]
      simp only [watchedStep, he]
      refine own_stops b w h .go (by simp [he]) w.late (Or.inl rfl) fun hs hin => ?_
      -- the flag is asked for here
      have hoff := step_off b w.main.fw .loopCheck (fun p hp => by cases hp) (h.off hs)
      simp only [mainStep, mainPc, hpc, he, Option.map_some, Option.getD_some, hoff,
        Bool.false_eq_true, if_false, inChips] at hin
    | chip i =>
      have hin : inChips w.main.pc = true := by rw [hpc]; rfl
      by_cases hi : i < chipNumber
      · have he : mainEvent w.main .go = some (.dispatch i) := by
          simp only [mainEvent, hpc, if_pos hi]
        simp only [watchedStep, he]
        exact own_stops b w h .go (by simp [he]) w.late (Or.inl rfl) fun _ _ => hin
      · have he : mainEvent w.main .go = some .readResult := by
          simp only [mainEvent, hpc, if_neg hi]
        have hout : inChips (mainStep b w.main .go).pc = false := by
          simp only [mainStep, mainPc, hpc, if_neg hi, inChips]
        simp only [watchedStep, he]
        exact own_stops b w h .go (by simp [he]) false (Or.inr ⟨rfl, hout⟩) fun _ _ => hin
    | chipPoll i =>
      have he : mainEvent w.main .go = none := by simp only [mainEvent, hpc]
      have hin : inChips w.main.pc = true := by rw [hpc]; rfl
      simp only [watchedStep, he]
      exact own_stops b w h .go (by simp [he]) w.late (Or.inl rfl) fun _ _ => hin

theorem silent_step (b : Board σ) (w : Watched σ) (l : Label) (h : Stops w) :
    Silent b w l ↔ BusyWhenLate b w l := by
  cases l with
  | frame p => exact ⟨fun _ => trivial, fun _ _ hd => hd⟩
  | go =>
    constructor
    · intro hsilent hlate idx hidx hpc
      by_contra hidle
      exact hsilent (h.only hlate) ⟨idx, hidx, hpc, by simpa using hidle⟩
    · rintro hbusy hs ⟨idx, hidx, hpc, hidle⟩
      have hlate := h.late hs (by rw [hpc]; rfl)
      exact Bool.noConfusion (hidle.symm.trans (hbusy hlate idx hidx hpc))

/-- **After a DETECT no work is sent until a SET, in just the runs where every chip asked after a
DETECT within the chip loop is busy.** -/
theorem silent_iff (b : Board σ) (env : σ) (ls : List Label) :
    Run.Meets (watchedStep b) (Silent b) (Watched.init b env) ls ↔
      Run.Meets (watchedStep b) (BusyWhenLate b) (Watched.init b env) ls :=
  Run.meets_congr (watchedStep b) Stops (fun w l h => watchedStep_stops b w l h)
    (fun w l h => silent_step b w l h) _ ls
    (init_stops b env)

def detectRun : List Label :=
  [.go, .frame (setPkg [500, 280, 0, 0x1000]), .go, .go, .frame (hostPkg .detect 1 1 []), .go, .go]

theorem detect_late :
    ¬Run.Meets (watchedStep (stillBoard 7)) (Silent (stillBoard 7))
      (Watched.init (stillBoard 7) ()) detectRun := by
  intro h
  have hlast := ((Run.meets_append _ _ _ (detectRun.take 6) (detectRun.drop 6)).mp h).2.1
  have hstopped :
      (Run.run (watchedStep (stillBoard 7)) (Watched.init (stillBoard 7) ())
        (detectRun.take 6)).stopped = true := by decide +kernel
  have hpc :
      (Run.run (watchedStep (stillBoard 7)) (Watched.init (stillBoard 7) ())
        (detectRun.take 6)).main.pc = .chip 1 := by decide +kernel
  exact hlast hstopped ⟨1, by decide, hpc, stillBoard_idle _ 1⟩

end HashRatio.Detect
