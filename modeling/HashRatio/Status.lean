import HashRatio.Accounting
import HashRatio.FrameCodec
import HashRatio.GetPkg

/-!
# What STATUS reports

The counters of results and of hardware errors go to the host in STATUS frames.
POLLING sends them and starts them anew; REQUIRE sends them and lets them run on.
What the host adds up is what was counted as long as REQUIRE finds nothing to
send, and no counter runs over between two POLLINGs.
-/

namespace HashRatio.Status
open Bytes Protocol Drivers State Packets Results MainLoop Pass Accounting GetPkg FrameCodec

variable {σ : Type} {b : Board σ}

/-! ### The two counters -/

inductive Tally where
  | localWork
  | hwWork
  deriving DecidableEq, Repr

namespace Tally

def value : Tally → Fw σ → Word
  | .localWork, s => s.localWork
  | .hwWork, s => s.hwWork

def field : Tally → ℕ
  | .localWork => 2
  | .hwWork => 3

def Counts (c : Tally) (t : Turn b) : Prop :=
  match c with
  | .localWork => True
  | .hwWork => t.Counted

instance (c : Tally) (t : Turn b) : Decidable (c.Counts t) :=
  match c with
  | .localWork => .isTrue trivial
  | .hwWork => inferInstanceAs (Decidable t.Counted)

end Tally

def counted (b : Board σ) (c : Tally) (s : Fw σ) : Event → ℕ
  | .readResult => (passTurns b s).countP fun t => c.Counts t
  | _ => 0

def total (b : Board σ) (c : Tally) : Fw σ → List Event → ℕ
  | _, [] => 0
  | s, e :: es => counted b c s e + total b c (step b s e) es

/-- What the host adds up over the STATUS frames. -/
def reported (c : Tally) (tx : List Out) : ℕ :=
  (((framesOf tx).filter fun q => pkgType q = some .status).map fun q =>
    (dataWord q c.field).toNat).sum

/-- Every unit counted is in one STATUS frame or still in the counter. -/
def Conserved (b : Board σ) (env : σ) (c : Tally) (es : List Event) : Prop :=
  let s := Run.run (step b) (start b env) es
  reported c s.tx + (c.value s).toNat = total b c (start b env) es

/-- REQUIRE finds the counter at zero, and a pass does not carry it past its last value. -/
def Once (b : Board σ) (c : Tally) (s : Fw σ) : Event → Prop
  | .pkg p => CrcOk p ∧ pkgType p = some .require → c.value s = 0
  | .readResult => (c.value s).toNat + counted b c s .readResult < 2 ^ 32
  | _ => True

theorem total_snoc (c : Tally) (s : Fw σ) (es : List Event) (e : Event) :
    total b c s (es ++ [e]) = total b c s es + counted b c (Run.run (step b) s es) e := by
  induction es generalizing s with
  | nil => exact Nat.add_comm ..
  | cons e' es ih => rw [List.cons_append, total, total, ih, Run.run_cons, Nat.add_assoc]

/-! ### Frames -/

theorem status_field (c : Tally) (s : Fw σ) :
    dataWord (encodePkg b s PkgType.status.code [] 1 1).2 c.field = c.value s := by
  rw [dataWord, encodePkg_data b s _ [] 1 1 (by simp), payload, PkgType.ofByte_code]
  simp only [padded]
  cases c with
  | localWork =>
    rw [Tally.field, wordAt_append_left _ _ _ (by simp), wordAt_append_left _ _ _ (by simp)]
    exact wordAt_ofWords [_, _, s.localWork] 2
  | hwWork =>
    rw [Tally.field, wordAt_append_left _ _ _ (by simp)]
    exact wordAt_ofWords [_, _, _, s.hwWork] 3

theorem sendPkg_value (c : Tally) (s : Fw σ) (type : PkgType) (buf : List Byte) (idx cnt : Byte) :
    c.value (sendPkg b s type buf idx cnt) = c.value s := by
  cases c <;> simp only [Tally.value, sendPkg, encodePkg] <;> split <;> rfl

theorem sendPkg_reported (c : Tally) (s : Fw σ) (type : PkgType) (buf : List Byte) (idx cnt : Byte)
    (h : type ≠ .status) :
    reported c (sendPkg b s type buf idx cnt).tx = reported c s.tx := by
  obtain ⟨q, hq, ht⟩ := sendPkg_frames b s type buf idx cnt
  have hne : ¬pkgType q = some .status := fun hs => h (Option.some.inj (ht.symm.trans hs))
  rw [reported, hq, List.filter_append, List.filter_cons_of_neg (by simpa using hne),
    List.filter_nil, List.append_nil, reported]

theorem sendStatus_reported (c : Tally) (s : Fw σ) :
    reported c (sendPkg b s .status [] 1 1).tx = reported c s.tx + (c.value s).toNat := by
  have ht := encodePkg_type b s .status [] 1 1
  rw [reported, sendPkg_tx, framesOf_append, List.filter_append, List.map_append,
    List.sum_append, ← reported]
  congr 1
  rw [show framesOf [Out.frame (encodePkg b s PkgType.status.code [] 1 1).2] =
    [(encodePkg b s PkgType.status.code [] 1 1).2] from rfl,
    List.filter_cons_of_pos (by simpa using ht),
    List.filter_nil, List.map_singleton, List.sum_singleton, status_field]

/-! ### Packets -/

/-- What an event does to the sum and to the counter, apart from what it counts: it leaves both, it
moves the counter into the sum, or it copies it. -/
inductive Effect (c : Tally) (s t : Fw σ) : Prop where
  | keep (hsum : reported c t.tx = reported c s.tx) (hval : c.value t = c.value s)
  | move (hsum : reported c t.tx = reported c s.tx + (c.value s).toNat) (hval : c.value t = 0)

theorem polling_effect (c : Tally) (s : Fw σ) : Effect c s (be200Polling b s) := by
  unfold be200Polling
  cases hpop : s.jobs.pop with
  | none =>
    refine .move ?_ ?_
    · exact sendStatus_reported c s
    · cases c <;> rfl
  | some r =>
    refine .keep ?_ ?_
    · exact sendPkg_reported c {s with jobs := r.1} .nonce _ 1 1 (by decide)
    · rw [sendPkg_value]
      cases c <;> rfl

theorem acceptPkg_value (c : Tally) (s : Fw σ) (p : Pkg) (h : pkgType p ≠ some .polling) :
    c.value (acceptPkg b s p) = c.value s := by
  have htask (n : ℕ) : c.value (itpTask b s p n) = c.value s := by
    unfold itpTask
    cases c <;> split <;> first | rfl | (split <;> rfl)
  unfold acceptPkg
  split
  case h_7 ht => exact absurd ht h
  case h_12 => exact htask 80
  case h_14 => exact htask 16
  all_goals cases c <;> rfl

theorem pkg_effect (c : Tally) (s : Fw σ) (p : Pkg) (h : ¬(CrcOk p ∧ pkgType p = some .require)) :
    Effect c s (handlePkg b s p).1 := by
  unfold handlePkg
  by_cases hcrc : CrcOk p
  · rw [decodePkg_accept b s p hcrc]
    simp only [Bool.false_eq_true, if_false]
    have hrequire : pkgType p ≠ some .require := fun ht => h ⟨hcrc, ht⟩
    by_cases hpoll : pkgType p = some .polling
    · rw [reply_none b _ p (by rw [hpoll]; decide) hrequire, acceptPkg, hpoll]
      exact polling_effect c s
    · have hsum : reported c (acceptPkg b s p).tx = reported c s.tx := by
        rw [reported, acceptPkg_frames b s p hpoll, reported]
      have hval := acceptPkg_value (b := b) c s p hpoll
      by_cases hdetect : pkgType p = some .detect
      · rw [reply, hdetect]
        exact .keep ((sendPkg_reported c _ .ackdetect _ 1 1 (by decide)).trans hsum)
          ((sendPkg_value c _ .ackdetect _ 1 1).trans hval)
      · rw [reply_none b _ p hdetect hrequire]
        exact .keep hsum hval
  · rw [decodePkg_reject b s p hcrc]
    exact .keep rfl rfl

theorem require_effect (c : Tally) (s : Fw σ) (p : Pkg) (h : CrcOk p ∧ pkgType p = some .require) :
    reported c (handlePkg b s p).1.tx = reported c s.tx + (c.value s).toNat ∧
      c.value (handlePkg b s p).1 = c.value s := by
  have haccept : acceptPkg b s p = s := by rw [acceptPkg, h.2]
  rw [handlePkg, decodePkg_accept b s p h.1]
  simp only [Bool.false_eq_true, if_false, haccept, reply, h.2]
  exact ⟨sendStatus_reported c s, sendPkg_value c s .status [] 1 1⟩

/-! ### Other events -/

theorem own_effect (c : Tally) (s : Fw σ) (e : Event) (he : ∀ p, e ≠ .pkg p)
    (hr : e ≠ .readResult) :
    Effect c s (step b s e) := by
  refine .keep (by rw [step_tx b s e he]) ?_
  cases e with
  | pkg p => exact absurd rfl (he p)
  | readResult => exact absurd rfl hr
  | loopHead => cases c <;> rfl
  | loopCheck =>
    have htemp : c.value (checkTemp b s) = c.value s := by
      simp only [checkTemp]
      cases c <;> split <;> rfl
    rw [← htemp]
    simp only [step, checkIdle]
    cases c <;> split <;> rfl
  | dispatch idx =>
    simp only [step, dispatch]
    cases c <;> split <;> rfl

theorem pass_value (c : Tally) (s : Fw σ) :
    c.value (be200ReadResult b s) = c.value s + BitVec.ofNat 32 (counted b c s .readResult) := by
  cases c with
  | localWork =>
    have hall : (passTurns b s).countP (fun t => Tally.localWork.Counts t) =
        (passTurns b s).length :=
      List.countP_eq_length.mpr fun _ _ => decide_eq_true trivial
    rw [counted, hall]
    exact pass_localWork s
  | hwWork => exact pass_hwWork s

/-! ### Runs -/

/-- One more event: what was conserved is conserved just when the event reports nothing twice and
loses nothing. -/
theorem conserved_snoc (env : σ) (c : Tally) (es : List Event) (e : Event)
    (h : Conserved b env c es) :
    Conserved b env c (es ++ [e]) ↔ Once b c (Run.run (step b) (start b env) es) e := by
  rw [Conserved, total_snoc, Run.run_append, ← (show _ = _ from h)]
  generalize Run.run (step b) (start b env) es = s
  simp only [Run.run_cons, Run.run_nil]
  have hword : (0 : Word).toNat = 0 := rfl
  have heffect (heff : Effect c s (step b s e)) (hzero : counted b c s e = 0) :
      reported c (step b s e).tx + (c.value (step b s e)).toNat =
        reported c s.tx + (c.value s).toNat + counted b c s e := by
    cases heff with
    | keep hsum hval => rw [hsum, hval, hzero, Nat.add_zero]
    | move hsum hval => rw [hsum, hval, hzero, hword]
  cases e with
  | pkg p =>
    by_cases hrequire : CrcOk p ∧ pkgType p = some .require
    · obtain ⟨hsum, hval⟩ := require_effect (b := b) c s p hrequire
      simp only [step, hsum, hval, counted, Once, hrequire, and_self, true_imp_iff]
      rw [← BitVec.toNat_inj, hword]
      omega
    · exact ⟨fun _ hr => absurd hr hrequire, fun _ => heffect (pkg_effect c s p hrequire) rfl⟩
  | readResult =>
    have htx : (step b s .readResult).tx = s.tx := step_tx b s .readResult (by simp)
    rw [htx, step, pass_value, BitVec.toNat_add, BitVec.toNat_ofNat, Once]
    have hval := (c.value s).isLt
    omega
  | loopHead =>
    exact ⟨fun _ => trivial, fun _ => heffect (own_effect c s _ (by simp) (by simp)) rfl⟩
  | loopCheck =>
    exact ⟨fun _ => trivial, fun _ => heffect (own_effect c s _ (by simp) (by simp)) rfl⟩
  | dispatch idx =>
    exact ⟨fun _ => trivial, fun _ => heffect (own_effect c s _ (by simp) (by simp)) rfl⟩

theorem conserved_nil (env : σ) (c : Tally) : Conserved b env c [] := by
  have htx : (start b env).tx = [] := rfl
  have hval : c.value (start b env) = 0 := by cases c <;> rfl
  rw [Conserved, Run.run_nil, htx, hval]
  rfl

/-- **The host's sums and the counters come to what was counted, in every state of a run, just when
every REQUIRE comes while the counter is zero** and the counter never runs over. -/
theorem conserved_iff (b : Board σ) (env : σ) (c : Tally) (es : List Event) :
    (∀ pre, pre <+: es → Conserved b env c pre) ↔
      Run.Meets (step b) (Once b c) (start b env) es := by
  induction es using List.reverseRecOn with
  | nil =>
    refine ⟨fun _ => trivial, fun _ pre hpre => ?_⟩
    rw [List.prefix_nil.mp hpre]
    exact conserved_nil env c
  | append_singleton es e ih =>
    rw [Run.meets_append, ← ih, Run.Meets, Run.Meets, and_true]
    constructor
    · intro h
      have hes := h es (List.prefix_append es [e])
      exact ⟨fun pre hpre => h pre (hpre.trans (List.prefix_append es [e])),
        (conserved_snoc env c es e hes).mp (h _ (List.prefix_refl _))⟩
    · rintro ⟨hall, honce⟩ pre hpre
      rcases List.prefix_concat_iff.mp hpre with rfl | hpre
      · exact (conserved_snoc env c es e (hall es (List.prefix_refl es))).mpr honce
      · exact hall pre hpre

/-! ### Reported twice -/

theorem turnsFrom_length (h : ∀ d idx, (be200GetDone b d idx).2 ≠ none)
    (st : Scan σ) (is : List ℕ) :
    (turnsFrom b st is).length = is.length := by
  induction is generalizing st with
  | nil => rfl
  | cons idx is ih =>
    cases hdone : (be200GetDone b st.fw.dev idx).2 with
    | none => exact absurd hdone (h st.fw.dev idx)
    | some mask =>
      rw [turnsFrom, turnAt_some hdone, Option.toList_some, List.singleton_append,
        List.length_cons, ih, List.length_cons]

/-- All chips answer once, then the host asks for the status: 80 results are reported and still
there. -/
theorem require_twice :
    ¬Conserved (stillBoard 7) () .localWork [.readResult, .pkg (hostPkg .require 1 1 [])] := by
  have hturns : counted (stillBoard 7) .localWork (start (stillBoard 7) ()) .readResult = 80 := by
    have hlen := turnsFrom_length (b := stillBoard 7) (fun d idx => by rw [stillBoard_done]; simp)
      (passStart (stillBoard 7) (start (stillBoard 7) ())) (List.range chipNumber)
    have hall :
        (passTurns (stillBoard 7) (start (stillBoard 7) ())).countP
          (fun t => Tally.localWork.Counts t) =
        (passTurns (stillBoard 7) (start (stillBoard 7) ())).length :=
      List.countP_eq_length.mpr fun _ _ => decide_eq_true trivial
    rw [counted, hall, passTurns, hlen]
    rfl
  have hzero : Tally.localWork.value (start (stillBoard 7) ()) = 0 := rfl
  have hfirst : Conserved (stillBoard 7) () .localWork [.readResult] := by
    refine (conserved_snoc () .localWork [] .readResult (conserved_nil () .localWork)).mpr ?_
    rw [Run.run_nil, Once, hturns, hzero]
    decide
  intro h
  have honce := (conserved_snoc () .localWork [.readResult] _ hfirst).mp h
    ⟨hostPkg_crcOk .require 1 1 [], hostPkg_type ..⟩
  rw [Run.run_cons, Run.run_nil, step, pass_value, hturns, hzero] at honce
  exact absurd honce (by decide)

end HashRatio.Status
