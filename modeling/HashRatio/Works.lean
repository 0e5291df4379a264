import HashRatio.Mining
import HashRatio.Nonce2

/-!
# Which work a chip has

Works are told apart by their nonce2 as long as one job lasts, and each chip's
status names the last work it was given.
-/

namespace HashRatio.Works
open Bytes Memory MmWork Miner Protocol Drivers State Packets Results MainLoop Bounds
  Slots Nonce2 Mining

variable {σ : Type}

/-! ### The last work of a chip -/

def lastWork : List Obs → ℕ → Option Work
  | [], _ => none
  | .work i _ _ w :: earlier, idx => if i = idx then some w else lastWork earlier idx
  | _ :: earlier, idx => lastWork earlier idx

/-- The status of each chip names its last work. -/
def Named (j : Jobs) : Prop :=
  ∀ idx, ∀ w ∈ lastWork j.hist idx, j.minerStatus idx = ⟨w.nonce2, w.mmIdx⟩

theorem lastWork_keep (j : Jobs) (op : JobOp) (hop : ∀ idx, op ≠ .dispatch idx) (idx : ℕ) :
    lastWork (j.apply op).hist idx = lastWork j.hist idx := by
  rw [apply_hist]
  cases op with
  | dispatch i => exact absurd rfl (hop i)
  | pop =>
    simp only [Jobs.obs]
    split <;> rfl
  | _ => rfl

theorem apply_named (j : Jobs) (op : JobOp) (h : Named j) : Named (j.apply op) := by
  intro idx w hw
  by_cases hop : ∃ i, op = .dispatch i
  · obtain ⟨i, rfl⟩ := hop
    rw [apply_hist, Jobs.obs, Option.toList_some, List.singleton_append, lastWork] at hw
    rw [apply_dispatch, genWork_note]
    by_cases hi : i = idx
    · rw [if_pos hi] at hw
      rw [← Option.some.inj hw]
      exact if_pos hi.symm
    · rw [if_neg hi] at hw
      exact (if_neg fun he => hi he.symm).trans (h idx w hw)
  · have hnot : ∀ i, op ≠ .dispatch i := fun i hi => hop ⟨i, hi⟩
    rw [lastWork_keep j op hnot] at hw
    rw [apply_status j op hnot]
    exact h idx w hw

theorem run_named (b : Board σ) (env : σ) (es : List Event) :
    Named (Run.run (step b) (start b env) es).jobs := by
  refine Run.run_invariant_all (step b) (fun s => Named s.jobs) (fun s e hs => ?_) _ es
    (fun idx w hw => by cases hw)
  obtain ⟨ops, _, hrun⟩ := step_ops b s e
  rw [hrun]
  exact Run.run_invariant_all Jobs.apply Named apply_named s.jobs ops hs

/-! ### The works since a SET -/

/-- The works made after `s`, newest first, in a run that reaches `t`. -/
def worksSince (s t : Fw σ) : List Work :=
  (worksOf t.jobs.hist).take ((worksOf t.jobs.hist).length - (worksOf s.jobs.hist).length)

theorem worksNonce2_eq (hist : List Obs) : worksNonce2 hist = (worksOf hist).map Work.nonce2 := by
  rw [worksNonce2, worksOf, List.map_filterMap]
  congr 1
  funext o
  cases o <;> rfl

theorem worksSince_eq {s t : Fw σ} {ws : List Work}
    (h : worksOf t.jobs.hist = ws ++ worksOf s.jobs.hist) :
    worksSince s t = ws := by
  rw [worksSince, h, List.length_append, Nat.add_sub_cancel, List.take_left]

/-- All works since `old` are marked with the current slot. -/
def Marked (cur : ℕ) (old : List Work) (j : Jobs) : Prop :=
  j.curMmIdx = cur ∧ ∃ ws, worksOf j.hist = ws ++ old ∧ ∀ w ∈ ws, w.mmIdx = cur

theorem apply_marked (cur : ℕ) (old : List Work) (j : Jobs) (op : JobOp)
    (hset : ∀ offset range, op ≠ .set offset range)
    (h : Marked cur old j) : Marked cur old (j.apply op) := by
  obtain ⟨hcur, ws, hworks, hmark⟩ := h
  refine ⟨(apply_cur j op hset).trans hcur, worksOf (j.obs op).toList ++ ws, ?_, fun w hw => ?_⟩
  · rw [apply_hist, worksOf, List.filterMap_append, ← worksOf, ← worksOf, hworks, List.append_assoc]
  · rcases List.mem_append.mp hw with hw | hw
    · cases op with
      | dispatch idx =>
        rw [List.mem_singleton.mp hw]
        exact hcur
      | pop =>
        simp only [Jobs.obs] at hw
        split at hw <;> cases hw
      | _ => cases hw
    · exact hmark w hw

theorem run_marked (b : Board σ) (cur : ℕ) (old : List Work) (es : List Event)
    (hes : ∀ e ∈ es, EventOk e ∧ ¬IsSet e)
    (s : Fw σ) (h : Marked cur old s.jobs) : Marked cur old (Run.run (step b) s es).jobs := by
  refine Run.run_invariant (step b) (fun _ e => EventOk e ∧ ¬IsSet e)
    (fun s => Marked cur old s.jobs) (fun s e he hs => ?_) s es
    (Run.meets_of_forall _ _ s es fun e he _ => hes e he) h
  obtain ⟨ops, hops, hrun⟩ := step_ops b s e
  rw [hrun]
  refine Run.run_invariant Jobs.apply
    (fun _ op => ∀ offset range, op ≠ .set offset range) (Marked cur old)
    (fun j op hop hj => apply_marked cur old j op hop hj) s.jobs ops ?_ hs
  exact Run.meets_of_forall _ _ _ _ fun op hop _ => eventOps_set e ops hops he.2 op hop

theorem counted_nodup (n0 : Word) (n : ℕ) (h : n < 2 ^ 32) :
    ((List.range n).map fun k => n0 + BitVec.ofNat 32 (k + 1)).reverse.Nodup := by
  rw [List.nodup_reverse]
  refine List.Nodup.map_on (fun k hk k' hk' heq => ?_) List.nodup_range
  rw [List.mem_range] at hk hk'
  rw [BitVec.add_right_inj] at heq
  have hnat := congrArg BitVec.toNat heq
  rw [BitVec.toNat_ofNat, BitVec.toNat_ofNat, Nat.mod_eq_of_lt (by omega),
    Nat.mod_eq_of_lt (by omega)] at hnat
  omega

/-- **The works since the last SET differ in their nonce2 and are marked with the current slot**,
and the status of each chip names its last work, in every run whose packets are in range. -/
theorem works_told_apart (b : Board σ) (env : σ) (es : List Event) (hes : ∀ e ∈ es, EventOk e) :
    (∀ before p after, es = before ++ .pkg p :: after → CrcOk p ∧ pkgType p = some .set →
      (∀ e ∈ after, ¬IsSet e) →
      let works :=
        worksSince (Run.run (step b) (start b env) before) (Run.run (step b) (start b env) es)
      (works.length < 2 ^ 32 → (works.map Work.nonce2).Nodup) ∧
        ∀ w ∈ works, w.mmIdx = (Run.run (step b) (start b env) es).jobs.curMmIdx) ∧
    ∀ idx, ∀ w ∈ lastWork (Run.run (step b) (start b env) es).jobs.hist idx,
      (Run.run (step b) (start b env) es).jobs.minerStatus idx = ⟨w.nonce2, w.mmIdx⟩ := by
  refine ⟨?_, run_named b env es⟩
  rintro before p after rfl ⟨hcrc, hset⟩ hafter works
  have hs : SlotsOk (Run.run (step b) (start b env) before).jobs :=
    run_slotsOk b (start b env) before slotsOk_init fun e he => hes e (List.mem_append_left _ he)
  have hok : ∀ e ∈ after, EventOk e ∧ ¬IsSet e := fun e he =>
    ⟨hes e (List.mem_append_right _ (List.mem_cons_of_mem _ he)), hafter e he⟩
  have hrun : Run.run (step b) (start b env) (before ++ .pkg p :: after) =
      Run.run (step b) (step b (Run.run (step b) (start b env) before) (.pkg p)) after := by
    rw [Run.run_append, Run.run_cons]
  have hset' := set_counted b _ p hcrc hset hs
  have hworks : worksOf (step b (Run.run (step b) (start b env) before) (.pkg p)).jobs.hist =
      worksOf (Run.run (step b) (start b env) before).jobs.hist := by
    rw [step, handlePkg_jobs, if_pos hcrc, acceptOp, hset]
    rfl
  obtain ⟨n, hn⟩ := run_counted b _ _ _ after hok _ 0 hset'
  obtain ⟨hcur, ws, hws, hmark⟩ :=
    run_marked b _ _ after hok _ ⟨hset'.cur_eq, [], hworks, fun w hw => by cases hw⟩
  rw [← hrun] at hn hcur hws
  have hsince : works = ws := worksSince_eq hws
  have hnonces : ws.map Work.nonce2 = ((List.range n).map fun k =>
      dataWord p 2 + dataWord p 3 + BitVec.ofNat 32 (k + 1)).reverse := by
    have hall := hn.works
    rw [worksNonce2_eq, worksNonce2_eq, hws, List.map_append] at hall
    exact List.append_cancel_right hall
  rw [hsince]
  refine ⟨fun hlt => ?_, fun w hw => (hmark w hw).trans hcur.symm⟩
  have hlen := congrArg List.length hnonces
  simp only [List.length_map, List.length_reverse, List.length_range] at hlen
  rw [hnonces]
  exact counted_nodup _ n (hlen ▸ hlt)

def twoWorks : List Event :=
  [.pkg (staticPkg [60, 0, 4, 36, 0, 1, 1]), .pkg (setPkg [500, 280, 0, 0x1000]), .dispatch 0,
    .dispatch 1, .readResult]

theorem twoWorks_ok (e : Event) (he : e ∈ twoWorks) : EventOk e := by
  simp only [twoWorks, List.mem_cons, List.not_mem_nil, or_false] at he
  rcases he with rfl | rfl | rfl | rfl | rfl
  · exact fun _ => by decide +kernel
  · exact fun _ => by decide +kernel
  all_goals trivial

theorem works_told_apart_two :
    (∀ before p after, twoWorks = before ++ .pkg p :: after → CrcOk p ∧ pkgType p = some .set →
      (∀ e ∈ after, ¬IsSet e) →
      let works := worksSince (Run.run (step (stillBoard 7)) (start (stillBoard 7) ()) before)
        (Run.run (step (stillBoard 7)) (start (stillBoard 7) ()) twoWorks)
      (works.length < 2 ^ 32 → (works.map Work.nonce2).Nodup) ∧
        ∀ w ∈ works,
          w.mmIdx =
            (Run.run (step (stillBoard 7)) (start (stillBoard 7) ()) twoWorks).jobs.curMmIdx) ∧
    ∀ idx,
      ∀ w ∈
        lastWork (Run.run (step (stillBoard 7)) (start (stillBoard 7) ()) twoWorks).jobs.hist idx,
      (Run.run (step (stillBoard 7)) (start (stillBoard 7) ()) twoWorks).jobs.minerStatus idx =
        ⟨w.nonce2, w.mmIdx⟩ :=
  works_told_apart (stillBoard 7) () twoWorks twoWorks_ok

end HashRatio.Works
