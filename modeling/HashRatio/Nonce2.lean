import HashRatio.Slots
import Mathlib.Data.Set.Lattice
import Mathlib.Order.CompletePartialOrder
import Mathlib.Tactic.NormNum

/-!
# The nonce2 partition

SET gives a controller the values `start, ..., start + range - 1`. `decode_pkg`
starts the counter of the slot at `start + range` and `main` counts up before
each work, so the works of a job get `start + range + 1, start + range + 2, ...`.
-/

namespace HashRatio.Nonce2
open Bytes Memory MmWork Miner Job Protocol Drivers State Packets Results MainLoop Bounds Slots

def worksNonce2 (hist : List Obs) : List Word :=
  hist.filterMap fun
    | .work _ _ _ w => some w.nonce2
    | _ => none

/-! ### The counter of a slot -/

theorem minerGen_nonce2 (m : Mem Byte) (i k : ℕ) (hi : i < mmBufNum)
    (hsafe : AllSafe m) (n2 : Word) :
    nonce2 (minerGenNonce2Work m (slotAddr i) n2).1 (slotAddr k) = nonce2 m (slotAddr k) := by
  have hs := hsafe i hi
  have h1 := hs.nonce2_nonneg
  have h2 := hs.nonce2_le
  have h3 := hs.merkle_nonneg
  have h4 := hs.merkle_le
  have hmoff : merkleOffset (storeNonce2 m (slotAddr i) n2) (slotAddr i) =
      merkleOffset m (slotAddr i) :=
    storeNonce2_word m (slotAddr i) n2 hs .merkleOffset (by decide) (by decide)
  have hslot : slotAddr k = slotAddr i ∨ slotAddr i + mmWorkSize ≤ slotAddr k ∨
      slotAddr k + mmWorkSize ≤ slotAddr i := by
    by_cases hik : i = k
    · exact Or.inl (congrArg slotAddr hik.symm)
    · exact Or.inr (slots_disjoint i k hik)
  apply loadWord_congr
  intro x hx1 hx2
  simp only [minerGenNonce2Work, storeRoot, hmoff]
  simp only [Field.off, mmWorkSize] at *
  rw [write_out _ _ _ _ (by rw [flip32_length]; omega), storeNonce2,
    write_out _ _ _ _ (by rw [wordBytes_length]; simp only [Field.off]; omega)]

theorem bump_nonce2 (j : Jobs) : nonce2 j.bumpNonce2 j.curSlot = nonce2 j.works j.curSlot + 1 :=
  loadWord_write_same _ _ _

/-- After `n` works counted from `n0` in the current slot, `old` being the works before. -/
structure Counted (n0 : Word) (cur : ℕ) (old : List Word) (n : ℕ) (j : Jobs) : Prop where
  slots : SlotsOk j
  cur_eq : j.curMmIdx = cur
  counter : nonce2 j.works j.curSlot = n0 + BitVec.ofNat 32 n
  works : worksNonce2 j.hist =
    ((List.range n).map fun k => n0 + BitVec.ofNat 32 (k + 1)).reverse ++ old

theorem ofNat_succ (n0 : Word) (n : ℕ) :
    n0 + BitVec.ofNat 32 n + 1 = n0 + BitVec.ofNat 32 (n + 1) := by
  rw [BitVec.add_assoc]
  congr 1
  apply BitVec.eq_of_toNat_eq
  simp

theorem dispatch_counted {n0 : Word} {cur : ℕ} {old : List Word} {n : ℕ} {j : Jobs}
    (h : Counted n0 cur old n j) (idx : ℕ) :
    Counted n0 cur old (n + 1) (j.apply (.dispatch idx)) := by
  have hslots := apply_slotsOk j h.slots (.dispatch idx) trivial
  have hcounter := h.counter
  have hworks := h.works
  have hbump := bump_nonce2 j
  have hsafe := allSafe_same h.slots.safe (bump_sameSlots j h.slots)
  rw [apply_dispatch, genWork_note] at *
  refine ⟨hslots, h.cur_eq, ?_, ?_⟩
  · simp only [Jobs.recordWork, note_works, Jobs.curSlot, note_curMmIdx]
    rw [minerGen_nonce2 _ _ _ h.slots.cur_lt hsafe, ← Jobs.curSlot, hbump, hcounter, ofNat_succ]
  · have hw : (j.genWork idx).2.nonce2 = n0 + BitVec.ofNat 32 (n + 1) := by
      rw [← ofNat_succ, ← hcounter, ← hbump]
      rfl
    simp only [worksNonce2, Jobs.recordWork, note_hist, List.filterMap_cons, hw]
    simp only [worksNonce2] at hworks
    rw [hworks, List.range_succ, List.map_append, List.reverse_append]
    rfl

theorem apply_counted (n0 : Word) (cur : ℕ) (old : List Word) (n : ℕ) (j : Jobs)
    (h : Counted n0 cur old n j) (op : JobOp)
    (hok : OpOk op) (hset : ∀ offset range, op ≠ .set offset range) :
    ∃ n', Counted n0 cur old n' (j.apply op) := by
  have hslots := apply_slotsOk j h.slots op hok
  have hcur := h.cur_eq
  have hcounter := h.counter
  have hworks := h.works
  cases op with
  | set offset range => exact absurd rfl (hset offset range)
  | store p =>
    refine ⟨n, hslots, hcur, ?_, hworks⟩
    rw [← hcounter]
    apply loadWord_congr
    intro x h1 h2
    have hne : j.curMmIdx ≠ j.mmWriteIdx := by
      have hlt := h.slots.cur_lt
      unfold Jobs.mmWriteIdx mmBufNum at *
      omega
    have hin := Field.inside .nonce2
    simp only [Field.size] at hin
    have hcurSlot : (j.apply (.store p)).curSlot = slotAddr j.curMmIdx := rfl
    rw [hcurSlot] at h1 h2
    exact store_other j p hok.idx j.curMmIdx hne x (by omega) (by omega)
  | dispatch idx => exact ⟨n + 1, dispatch_counted h idx⟩
  | ready idx mask => exact ⟨n, hslots, hcur, hcounter, hworks⟩
  | test idx nonce =>
    rw [apply_test, test_note] at *
    refine ⟨n, hslots, hcur, ?_, hworks⟩
    rw [note_works, Jobs.curSlot, note_curMmIdx,
      minerGen_nonce2 _ _ _ (h.slots.status_lt idx) h.slots.safe]
    exact hcounter
  | push idx nonce => exact ⟨n, hslots, hcur, hcounter, hworks⟩
  | pop =>
    rcases apply_pop_cases j with ⟨_, hpop⟩ | ⟨_, hpop⟩
    · rw [hpop]
      exact ⟨n, h⟩
    · rw [hpop] at hslots ⊢
      exact ⟨n, hslots, hcur, hcounter, hworks⟩
  | clearRing => exact ⟨n, hslots, hcur, hcounter, hworks⟩

theorem ops_counted (n0 : Word) (cur : ℕ) (old : List Word) (ops : List JobOp)
    (hok : ∀ op ∈ ops, OpOk op) (hset : ∀ op ∈ ops, ∀ offset range, op ≠ .set offset range)
    (j : Jobs) (n : ℕ) (h : Counted n0 cur old n j) :
    ∃ n', Counted n0 cur old n' (Run.run Jobs.apply j ops) := by
  induction ops generalizing j n with
  | nil => exact ⟨n, h⟩
  | cons op ops ih =>
    obtain ⟨n', hn'⟩ := apply_counted n0 cur old n j h op (hok op (List.mem_cons_self ..))
      (hset op (List.mem_cons_self ..))
    exact ih (fun op' h' => hok op' (List.mem_cons_of_mem _ h'))
      (fun op' h' => hset op' (List.mem_cons_of_mem _ h'))
      (j.apply op) n' hn'

/-! ### Runs between two SETs -/

variable {σ : Type}

theorem run_counted (b : Board σ) (n0 : Word) (cur : ℕ) (old : List Word) (es : List Event)
    (hes : ∀ e ∈ es, EventOk e ∧ ¬IsSet e) (s : Fw σ) (n : ℕ) (h : Counted n0 cur old n s.jobs) :
    ∃ n', Counted n0 cur old n' (Run.run (step b) s es).jobs := by
  induction es generalizing s n with
  | nil => exact ⟨n, h⟩
  | cons e es ih =>
    obtain ⟨hok, hset⟩ := hes e (List.mem_cons_self ..)
    obtain ⟨ops, hops, hrun⟩ := step_ops b s e
    obtain ⟨n', hn'⟩ :=
      ops_counted n0 cur old ops (eventOps_ok e ops hops hok)
        (eventOps_set e ops hops hset) s.jobs n h
    exact ih (fun e' he' => hes e' (List.mem_cons_of_mem _ he')) (step b s e) n' (hrun ▸ hn')

theorem set_counted (b : Board σ) (s : Fw σ) (p : Pkg) (hcrc : CrcOk p)
    (hset : pkgType p = some .set) (h : SlotsOk s.jobs) :
    Counted (dataWord p 2 + dataWord p 3) s.jobs.mmWriteIdx (worksNonce2 s.jobs.hist) 0
      (step b s (.pkg p)).jobs := by
  have hjobs : (step b s (.pkg p)).jobs = s.jobs.apply (.set (dataWord p 2) (dataWord p 3)) := by
    rw [step, handlePkg_jobs, if_pos hcrc, acceptOp, hset]
  have hslots := apply_slotsOk s.jobs h (.set (dataWord p 2) (dataWord p 3)) trivial
  rw [hjobs]
  refine ⟨hslots, rfl, ?_, rfl⟩
  have hload : nonce2 (s.jobs.apply (.set (dataWord p 2) (dataWord p 3))).works
      (s.jobs.apply (.set (dataWord p 2) (dataWord p 3))).curSlot = dataWord p 2 + dataWord p 3 :=
    loadWord_write_same _ _ _
  rw [hload]
  exact (BitVec.add_zero _).symm

/-- The works made after `s`, in a run that reaches `t`. -/
def newWorks (s t : Fw σ) : List Word :=
  (worksNonce2 t.jobs.hist).take
    ((worksNonce2 t.jobs.hist).length - (worksNonce2 s.jobs.hist).length)

theorem newWorks_eq (b : Board σ) (s : Fw σ) (p : Pkg) (es : List Event) (hcrc : CrcOk p)
    (hset : pkgType p = some .set) (h : SlotsOk s.jobs) (hes : ∀ e ∈ es, EventOk e ∧ ¬IsSet e) :
    ∃ n, newWorks s (Run.run (step b) (step b s (.pkg p)) es) =
      ((List.range n).map fun k =>
        dataWord p 2 + dataWord p 3 + BitVec.ofNat 32 (k + 1)).reverse := by
  obtain ⟨n, hn⟩ := run_counted b _ _ _ es hes (step b s (.pkg p)) 0 (set_counted b s p hcrc hset h)
  refine ⟨n, ?_⟩
  rw [newWorks, hn.works]
  simp

/-! ### The partition -/

/-- `start, ..., start + range - 1`, modulo 2^32. -/
def nonce2Partition (start range : Word) : Set Word := {x | (x - start).toNat < range.toNat}

/-- A controller's work stays in its partition, out of every partition disjoint from it. -/
def InPartition (start range x : Word) : Prop :=
  x ∈ nonce2Partition start range ∧
    ∀ start' range', Disjoint (nonce2Partition start range) (nonce2Partition start' range') →
      x ∉ nonce2Partition start' range'

theorem inPartition_iff (start range x : Word) :
    InPartition start range x ↔ (x - start).toNat < range.toNat :=
  ⟨fun h => h.1, fun h => ⟨h, fun _ _ hdis h' => Set.disjoint_left.mp hdis h h'⟩⟩

theorem counted_offset (start range : Word) (k : ℕ) :
    (start + range + BitVec.ofNat 32 k - start).toNat = (range.toNat + k) % 2 ^ 32 := by
  have hsub : start + range + BitVec.ofNat 32 k - start = range + BitVec.ofNat 32 k := by
    rw [BitVec.add_assoc, BitVec.add_comm start, BitVec.add_sub_cancel]
  rw [hsub, BitVec.toNat_add, BitVec.toNat_ofNat, Nat.add_mod_mod]

theorem counted_inPartition (start range : Word) (n : ℕ) (hrange : range ≠ 0) :
    (∀ k < n, InPartition start range (start + range + BitVec.ofNat 32 (k + 1))) ↔
      n = 0 ∨ range = 0xffffffff ∧ n < 2 ^ 32 := by
  have hpos : 0 < range.toNat := by
    refine Nat.pos_of_ne_zero fun h => hrange ?_
    exact BitVec.eq_of_toNat_eq h
  have hlt := range.isLt
  simp only [inPartition_iff, counted_offset]
  constructor
  · intro h
    by_cases hn : n = 0
    · exact Or.inl hn
    · right
      -- the first value is `range` past the start, the (2^32 - 1)-st comes round to just before it
      have hfirst := h 0 (by omega)
      have hall : range.toNat = 2 ^ 32 - 1 := by
        by_contra hne
        rw [Nat.mod_eq_of_lt (by omega)] at hfirst
        omega
      refine ⟨BitVec.eq_of_toNat_eq hall, ?_⟩
      by_contra hge
      have hround := h (2 ^ 32 - 1) (by omega)
      omega
  · rintro (rfl | ⟨rfl, hn⟩) k hk
    · omega
    · have hr : (0xffffffff : Word).toNat = 2 ^ 32 - 1 := rfl
      rw [hr]
      omega

/-- **The works of a job lie in the controller's partition** only when none is made, or when the
range is 2^32 - 1 and less than 2^32 works are made. -/
theorem works_inPartition_iff (b : Board σ) (env : σ) (before : List Event) (p : Pkg)
    (after : List Event) (hcrc : CrcOk p) (hset : pkgType p = some .set) (hrange : dataWord p 3 ≠ 0)
    (hbefore : ∀ e ∈ before, EventOk e) (hafter : ∀ e ∈ after, EventOk e ∧ ¬IsSet e) :
    let s := Run.run (step b) (start b env) before
    let works := newWorks s (Run.run (step b) s (.pkg p :: after))
    (∀ x ∈ works, InPartition (dataWord p 2) (dataWord p 3) x) ↔
      works.length = 0 ∨ dataWord p 3 = 0xffffffff ∧ works.length < 2 ^ 32 := by
  intro s works
  have hs : SlotsOk s.jobs := run_slotsOk b (start b env) before slotsOk_init hbefore
  obtain ⟨n, hn⟩ := newWorks_eq b s p after hcrc hset hs hafter
  have hworks : works = _ := hn
  rw [hworks]
  simp only [List.mem_reverse, List.mem_map, List.mem_range, forall_exists_index, and_imp,
    forall_apply_eq_imp_iff₂, List.length_reverse, List.length_map, List.length_range]
  exact counted_inPartition (dataWord p 2) (dataWord p 3) n hrange

/-! ### Two controllers -/

def minedWorks (start range : Word) (n : ℕ) : List Word :=
  let s :=
    step (stillBoard 7) (MainLoop.start (stillBoard 7) ())
      (.pkg (staticPkg [60, 0, 4, 36, 0, 1, 1]))
  newWorks s (Run.run (step (stillBoard 7)) s
    (.pkg (setPkg [500, 280, start, range]) :: (List.range n).map .dispatch))

theorem still_counted {n0 : Word} {cur : ℕ} {old : List Word} (idxs : List ℕ) {n : ℕ} {s : Fw Unit}
    (h : Counted n0 cur old n s.jobs) :
    Counted n0 cur old (n + idxs.length)
      (Run.run (step (stillBoard 7)) s (idxs.map .dispatch)).jobs := by
  induction idxs generalizing n s with
  | nil => exact h
  | cons idx idxs ih =>
    have hjobs : (step (stillBoard 7) s (.dispatch idx)).jobs = s.jobs.apply (.dispatch idx) := by
      rw [step, dispatch_jobs, if_pos (stillBoard_idle s.dev idx)]
    have hrest := ih (hjobs ▸ dispatch_counted h idx)
    rw [List.length_cons, Nat.add_comm idxs.length 1, ← Nat.add_assoc]
    exact hrest

theorem minedWorks_eq (start range : Word) (n : ℕ)
    (h2 : dataWord (setPkg [500, 280, start, range]) 2 = start)
    (h3 : dataWord (setPkg [500, 280, start, range]) 3 = range) :
    minedWorks start range n =
      ((List.range n).map fun k => start + range + BitVec.ofNat 32 (k + 1)).reverse := by
  have hs := step_slotsOk (stillBoard 7) (MainLoop.start (stillBoard 7) ())
    (.pkg (staticPkg [60, 0, 4, 36, 0, 1, 1]))
    slotsOk_init fun _ => by decide +kernel
  have hset :=
    set_counted (stillBoard 7) _ (setPkg [500, 280, start, range]) (hostPkg_crcOk ..)
      (hostPkg_type ..) hs
  have hn := still_counted (List.range n) hset
  rw [minedWorks, newWorks, Run.run_cons, hn.works, h2, h3]
  simp

theorem works_inPartition_one :
    let s :=
      Run.run (step (stillBoard 7)) (start (stillBoard 7) ())
        [.pkg (staticPkg [60, 0, 4, 36, 0, 1, 1])]
    let works :=
      newWorks s
        (Run.run (step (stillBoard 7)) s [.pkg (setPkg [500, 280, 0, 0x1000]), .dispatch 0])
    (∀ x ∈ works,
      InPartition (dataWord (setPkg [500, 280, 0, 0x1000]) 2)
        (dataWord (setPkg [500, 280, 0, 0x1000]) 3) x) ↔
      works.length = 0 ∨ dataWord (setPkg [500, 280, 0, 0x1000]) 3 = 0xffffffff ∧
      works.length < 2 ^ 32 :=
  works_inPartition_iff (stillBoard 7) () [.pkg (staticPkg [60, 0, 4, 36, 0, 1, 1])]
    (setPkg [500, 280, 0, 0x1000]) [.dispatch 0] (hostPkg_crcOk ..) (hostPkg_type ..)
    (by decide +kernel)
    (fun e he => by
      rw [List.mem_singleton.mp he]
      exact fun _ => by decide +kernel)
    (fun e he => by
      rw [List.mem_singleton.mp he]
      exact ⟨trivial, fun ⟨_, h, _⟩ => by cases h⟩)

/-- Two controllers with the partitions {0} and {1}: no work of either lies in its partition, and
both work on nonce2 3. -/
theorem partitions_collide : Disjoint (nonce2Partition 0 1) (nonce2Partition 1 1) ∧
    (∀ x ∈ minedWorks 0 1 2, x ∉ nonce2Partition 0 1) ∧ minedWorks 0 1 2 = [3, 2] ∧
    minedWorks 1 1 1 = [3] := by
  have ha : minedWorks 0 1 2 = [3, 2] := by
    rw [minedWorks_eq 0 1 2 (by decide +kernel) (by decide +kernel)]
    decide
  have hb : minedWorks 1 1 1 = [3] := by
    rw [minedWorks_eq 1 1 1 (by decide +kernel) (by decide +kernel)]
    decide
  refine ⟨?_, ?_, ha, hb⟩
  · rw [Set.disjoint_left]
    intro x h0 h1
    simp only [nonce2Partition, Set.mem_ofPred_eq] at h0 h1
    have hx : x = 0 := BitVec.eq_of_toNat_eq (by simpa using h0)
    subst hx
    exact absurd h1 (by decide)
  · rw [ha]
    simp [nonce2Partition]

end HashRatio.Nonce2
