import HashRatio.Bounds

/-!
# The slots across operations

With the host's packets in range every slot keeps sizes that hold work
generation inside it. Then work generation and verification write place holders
only, and a packet changes the slot after the current one only, so the jobs of
the other slots stay what they are.
-/

namespace HashRatio.Slots
open Bytes Memory MmWork Miner Job Protocol State Packets Bounds

/-! ### Packets in range -/

/-- The sizes and offsets a STATIC packet carries fit the arrays. -/
structure SizesOk (coinbaseLen nonce2Offset merkleOffset nmerkles : Word) : Prop where
  coinbase_le : coinbaseLen.toNat ≤ 2048
  nonce2_nonneg : 0 ≤ nonce2Offset.toInt
  nonce2_le : nonce2Offset.toInt + 4 ≤ coinbaseLen.toNat
  nmerkles_nonneg : 0 ≤ nmerkles.toInt
  nmerkles_le : nmerkles.toInt ≤ 20
  merkle_nonneg : 0 ≤ merkleOffset.toInt
  merkle_le : merkleOffset.toInt ≤ 96

instance (len off moff nm : Word) : Decidable (SizesOk len off moff nm) :=
  decidable_of_iff
    (len.toNat ≤ 2048 ∧ 0 ≤ off.toInt ∧ off.toInt + 4 ≤ len.toNat ∧ 0 ≤ nm.toInt ∧ nm.toInt ≤ 20 ∧
      0 ≤ moff.toInt ∧ moff.toInt ≤ 96)
    ⟨fun ⟨h1, h2, h3, h4, h5, h6, h7⟩ => ⟨h1, h2, h3, h4, h5, h6, h7⟩,
      fun ⟨h1, h2, h3, h4, h5, h6, h7⟩ => ⟨h1, h2, h3, h4, h5, h6, h7⟩⟩

def StaticOk (p : Pkg) : Prop :=
  pkgType p = some .static → SizesOk (dataWord p 0) (dataWord p 1) (dataWord p 3) (dataWord p 4)

/-- A packet whose fragment index and sizes are in range. -/
structure PktOk (p : Pkg) : Prop where
  idx : IdxOk p
  sizes : StaticOk p

instance (p : Pkg) : Decidable (PktOk p) :=
  have : Decidable (StaticOk p) :=
    inferInstanceAs (Decidable (pkgType p = some .static → SizesOk _ _ _ _))
  decidable_of_iff (IdxOk p ∧ StaticOk p) ⟨fun ⟨h1, h2⟩ => ⟨h1, h2⟩, fun ⟨h1, h2⟩ => ⟨h1, h2⟩⟩

theorem pkgStore_word (p : Pkg) (m : Mem Byte) (mw : ℤ) (f : Field) (hidx : IdxOk p)
    (hf : f ∉ pkgFields p) (hs : 4 ≤ f.size) :
    loadWord (pkgStore p m mw) (mw + f.off) = loadWord m (mw + f.off) := by
  apply loadWord_congr
  intro x h1 h2
  apply pkgStore_out p m mw x hidx
  intro g hg hx
  have hdis := Field.disjoint f g fun h => hf (h ▸ hg)
  unfold InField at hx
  omega

theorem storeStatic_words (p : Pkg) (m : Mem Byte) (mw : ℤ) :
    coinbaseLen (storeStatic p m mw) mw = dataWord p 0 ∧
    nonce2Offset (storeStatic p m mw) mw = dataWord p 1 ∧
    merkleOffset (storeStatic p m mw) mw = dataWord p 3 ∧
    nmerkles (storeStatic p m mw) mw = dataWord p 4 ∧
    poolNo (storeStatic p m mw) mw = dataWord p 6 := by
  have hskip (m : Mem Byte) (f g : Field) (k : ℕ) (hfg : f ≠ g) (hs : 4 ≤ f.size)
      (hg : g.size = 4) :
      loadWord (storeField m mw g (dataBytes p k)) (mw + f.off) = loadWord m (mw + f.off) := by
    have hdis := Field.disjoint f g hfg
    exact loadWord_write_out m _ _ _ (by rw [dataBytes_length]; omega)
  have hhit (m : Mem Byte) (f : Field) (k : ℕ) :
      loadWord (storeField m mw f (dataBytes p k)) (mw + f.off) = dataWord p k :=
        loadWord_write_same m _ _
  refine ⟨?_, ?_, ?_, ?_, ?_⟩
  · simp only [coinbaseLen, storeStatic]
    rw [hskip _ _ .poolNo, hskip _ _ .diff, hskip _ _ .nmerkles, hskip _ _ .merkleOffset,
      hskip _ _ .nonce2Size, hskip _ _ .nonce2Offset, hhit] <;> decide
  · simp only [nonce2Offset, storeStatic]
    rw [hskip _ _ .poolNo, hskip _ _ .diff, hskip _ _ .nmerkles, hskip _ _ .merkleOffset,
      hskip _ _ .nonce2Size, hhit] <;> decide
  · simp only [merkleOffset, storeStatic]
    rw [hskip _ _ .poolNo, hskip _ _ .diff, hskip _ _ .nmerkles, hhit] <;> decide
  · simp only [nmerkles, storeStatic]
    rw [hskip _ _ .poolNo, hskip _ _ .diff, hhit] <;> decide
  · simp only [poolNo, storeStatic]
    rw [hhit]

theorem storeStatic_inRange (p : Pkg) (m : Mem Byte) (mw : ℤ)
    (h : SizesOk (dataWord p 0) (dataWord p 1) (dataWord p 3) (dataWord p 4)) :
    InRange (storeStatic p m mw) mw := by
  obtain ⟨h1, h2, h3, h4, _⟩ := storeStatic_words p m mw
  obtain ⟨s1, s2, s3, s4, s5, s6, s7⟩ := h
  constructor
  · rw [h1]; exact s1
  · rw [h2]; exact s2
  · rw [h1, h2]; exact s3
  · rw [h4]; exact s4
  · rw [h4]; exact s5
  · rw [h3]; exact s6
  · rw [h3]; exact s7

def SameSizes (m m' : Mem Byte) (mw : ℤ) : Prop :=
  coinbaseLen m' mw = coinbaseLen m mw ∧ nonce2Offset m' mw = nonce2Offset m mw ∧
    merkleOffset m' mw = merkleOffset m mw ∧ nmerkles m' mw = nmerkles m mw

theorem SameSizes.safe {m m' : Mem Byte} {mw : ℤ} (h : SameSizes m m' mw)
    (hs : Safe m mw) : Safe m' mw := by
  obtain ⟨h1, h2, h3, h4⟩ := h
  obtain ⟨s1, s2, s3, s4, s5, s6⟩ := hs
  exact ⟨h1 ▸ s1, h2 ▸ s2, h2 ▸ s3, h4 ▸ s4, h3 ▸ s5, h3 ▸ s6⟩

theorem SameSizes.inRange {m m' : Mem Byte} {mw : ℤ} (h : SameSizes m m' mw) (hs : InRange m mw) :
    InRange m' mw := by
  obtain ⟨h1, h2, h3, h4⟩ := h
  obtain ⟨s1, s2, s3, s4, s5, s6, s7⟩ := hs
  exact ⟨h1 ▸ s1, h2 ▸ s2, h1 ▸ h2 ▸ s3, h4 ▸ s4, h4 ▸ s5, h3 ▸ s6, h3 ▸ s7⟩

theorem sameSizes_of_same {m m' : Mem Byte} {mw : ℤ} (hsafe : Safe m mw) (h : SameSlot m m' mw) :
    SameSizes m m' mw :=
  ⟨same_word hsafe h .coinbaseLen (by simp), same_word hsafe h .nonce2Offset (by simp),
    same_word hsafe h .merkleOffset (by simp), same_word hsafe h .nmerkles (by simp)⟩

theorem pkgStore_sizes (p : Pkg) (m : Mem Byte) (mw : ℤ) (hidx : IdxOk p)
    (ht : pkgType p ≠ some .static) :
    SameSizes m (pkgStore p m mw) mw := by
  have hf (f : Field) (hmem : f ∈ [Field.coinbaseLen, .nonce2Offset, .merkleOffset, .nmerkles]) :
      f ∉ pkgFields p := by
    unfold pkgFields
    simp only [List.mem_cons, List.not_mem_nil, or_false] at hmem
    split
    case h_1 h => exact absurd h ht
    all_goals rcases hmem with rfl | rfl | rfl | rfl <;> simp
  exact ⟨pkgStore_word p m mw _ hidx (hf _ (by simp)) (by decide),
    pkgStore_word p m mw _ hidx (hf _ (by simp)) (by decide),
    pkgStore_word p m mw _ hidx (hf _ (by simp)) (by decide),
    pkgStore_word p m mw _ hidx (hf _ (by simp)) (by decide)⟩

/-! ### What work generation leaves alone -/

def AllSafe (m : Mem Byte) : Prop := ∀ i < mmBufNum, Safe m (slotAddr i)

/-- Every slot is the same up to its place holders and its counter. -/
def SameSlots (m m' : Mem Byte) : Prop := ∀ i < mmBufNum, SameSlot m m' (slotAddr i)

theorem scratch_slot (m : Mem Byte) (mw x : ℤ) (h : Safe m mw) (hx : Scratch m mw x) :
    mw ≤ x ∧ x < mw + mmWorkSize := by
  have hin := scratch_inside m mw x h hx
  simp only [Field.off, mmWorkSize] at *
  omega

theorem sameSlots_of_scratch (m m' : Mem Byte) (i : ℕ) (hi : i < mmBufNum) (hsafe : AllSafe m)
    (h : ∀ x, ¬Scratch m (slotAddr i) x → m' x = m x) : SameSlots m m' := by
  intro k _ x h1 h2 hx
  refine h x fun hs => ?_
  have hin := scratch_slot m (slotAddr i) x (hsafe i hi) hs
  by_cases hik : i = k
  · exact hx (hik ▸ hs)
  · have hdis := slots_disjoint i k hik
    omega

theorem minerGen_sameSlots (m : Mem Byte) (i : ℕ) (hi : i < mmBufNum)
    (hsafe : AllSafe m) (n2 : Word) :
    SameSlots m (minerGenNonce2Work m (slotAddr i) n2).1 :=
  sameSlots_of_scratch m _ i hi hsafe fun x hx => minerGen_out m (slotAddr i) x n2 (hsafe i hi) hx

theorem storeNonce2_sameSlots (m : Mem Byte) (i : ℕ) (hi : i < mmBufNum)
    (hsafe : AllSafe m) (w : Word) :
    SameSlots m (storeField m (slotAddr i) .nonce2 (wordBytes w)) := by
  refine sameSlots_of_scratch m _ i hi hsafe fun x hx =>
    storeField_out m _ x .nonce2 _ rfl fun hin => hx ?_
  unfold InField at hin
  simp only [Field.size] at hin
  exact Or.inl (by omega)

theorem allSafe_same {m m' : Mem Byte} (hsafe : AllSafe m) (h : SameSlots m m') : AllSafe m' :=
  fun i hi => safe_same (hsafe i hi) (h i hi)

theorem sameSlot_trans {m m' m'' : Mem Byte} {mw : ℤ} (hsafe : Safe m mw) (h : SameSlot m m' mw)
    (h' : SameSlot m' m'' mw) : SameSlot m m'' mw := by
  intro x h1 h2 hx
  have hsizes := sameSizes_of_same hsafe h
  have hx' : ¬Scratch m' mw x := by
    unfold Scratch at hx ⊢
    rw [hsizes.2.1, hsizes.2.2.1]
    exact hx
  rw [h' x h1 h2 hx', h x h1 h2 hx]

theorem sameSlots_trans {m m' m'' : Mem Byte} (hsafe : AllSafe m) (h : SameSlots m m')
    (h' : SameSlots m' m'') :
    SameSlots m m'' := fun i hi => sameSlot_trans (hsafe i hi) (h i hi) (h' i hi)

/-! ### Operations -/

/-- The indexes name slots and every slot is safe. -/
structure SlotsOk (j : Jobs) : Prop where
  cur_lt : j.curMmIdx < mmBufNum
  status_lt : ∀ i, (j.minerStatus i).mmIdx < mmBufNum
  ring_lt : ∀ k, (j.resultBuff k).mmIdx < mmBufNum
  safe : AllSafe j.works

theorem SlotsOk.write_lt (j : Jobs) : j.mmWriteIdx < mmBufNum := Nat.mod_lt _ (by decide)

theorem zero_word (a : ℤ) : loadWord (fun _ => 0) a = 0 := by
  simp only [loadWord, Memory.read, List.range_succ, List.range_zero, List.nil_append,
    List.cons_append, List.map_cons, List.map_nil]
  decide

theorem slotsOk_init : SlotsOk Jobs.init where
  cur_lt := by decide
  status_lt := fun _ => by simp only [Jobs.init]; decide
  ring_lt := fun _ => by simp only [Jobs.init]; decide
  safe := fun i _ => by
    constructor <;> simp only [Jobs.init, MmWork.coinbaseLen, MmWork.nonce2Offset, MmWork.nmerkles,
      MmWork.merkleOffset, zero_word] <;> decide

section same
variable (j : Jobs) (h : SlotsOk j)
include h

theorem test_sameSlots (idx : ℕ) (nonce : Word) : SameSlots j.works (j.test idx nonce).1.works := by
  rw [test_note, note_works]
  exact minerGen_sameSlots j.works _ (h.status_lt idx) h.safe _

theorem bump_sameSlots : SameSlots j.works j.bumpNonce2 :=
  storeNonce2_sameSlots j.works j.curMmIdx h.cur_lt h.safe _

theorem dispatch_sameSlots (idx : ℕ) : SameSlots j.works (j.genWork idx).1.works := by
  have hbump := bump_sameSlots j h
  rw [genWork_note, note_works]
  exact sameSlots_trans h.safe hbump
    (minerGen_sameSlots j.bumpNonce2 j.curMmIdx h.cur_lt (allSafe_same h.safe hbump) _)

theorem set_sameSlots (offset range : Word) : SameSlots j.works (j.set offset range).works :=
  storeNonce2_sameSlots j.works j.mmWriteIdx (SlotsOk.write_lt j) h.safe _

end same

theorem apply_sameSlots (j : Jobs) (h : SlotsOk j) (op : JobOp) (hop : ∀ p, op ≠ .store p) :
    SameSlots j.works (j.apply op).works := by
  have hrefl : SameSlots j.works j.works := fun i _ => sameSlot_refl _ _
  cases op with
  | store p => exact absurd rfl (hop p)
  | set offset range => exact set_sameSlots j h offset range
  | dispatch idx => exact dispatch_sameSlots j h idx
  | ready idx mask => exact hrefl
  | test idx nonce => exact test_sameSlots j h idx nonce
  | push idx nonce => exact hrefl
  | pop => rw [pop_works]; exact hrefl
  | clearRing => exact hrefl

theorem store_other (j : Jobs) (p : Pkg) (hidx : IdxOk p) (i : ℕ) (hi : i ≠ j.mmWriteIdx) (x : ℤ)
    (h1 : slotAddr i ≤ x) (h2 : x < slotAddr i + mmWorkSize) :
    (j.store (pkgStore p)).works x = j.works x := by
  apply pkgStore_out p j.works j.writeSlot x hidx
  intro f _ hx
  have hdis := slots_disjoint i j.mmWriteIdx hi
  have hf := Field.inside f
  unfold InField Jobs.writeSlot at hx
  omega

theorem store_same (j : Jobs) (p : Pkg) (hidx : IdxOk p) (i : ℕ) (hi : i ≠ j.mmWriteIdx) :
    SameSlot j.works (j.store (pkgStore p)).works (slotAddr i) :=
  fun x h1 h2 _ => store_other j p hidx i hi x h1 h2

theorem pkgStore_safe (p : Pkg) (m : Mem Byte) (mw : ℤ) (hp : PktOk p) (h : Safe m mw) :
    Safe (pkgStore p m mw) mw := by
  by_cases ht : pkgType p = some .static
  · have hstore : pkgStore p m mw = storeStatic p m mw := by rw [pkgStore, ht]
    rw [hstore]
    exact (storeStatic_inRange p m mw (hp.sizes ht)).safe
  · exact (pkgStore_sizes p m mw hp.idx ht).safe h

theorem store_safe (j : Jobs) (h : SlotsOk j) (p : Pkg) (hp : PktOk p) :
    AllSafe (j.store (pkgStore p)).works := by
  intro i hi
  by_cases hw : i = j.mmWriteIdx
  · have hs := pkgStore_safe p j.works j.writeSlot hp (h.safe _ (SlotsOk.write_lt j))
    rw [hw]
    exact hs
  · exact safe_same (h.safe i hi) (store_same j p hp.idx i hw)

def OpOk : JobOp → Prop
  | .store p => PktOk p
  | _ => True

theorem apply_safe (j : Jobs) (h : SlotsOk j) (op : JobOp) (hok : OpOk op) :
    AllSafe (j.apply op).works := by
  by_cases hop : ∃ p, op = .store p
  · obtain ⟨p, rfl⟩ := hop
    exact store_safe j h p hok
  · exact allSafe_same h.safe (apply_sameSlots j h op fun p hp => hop ⟨p, hp⟩)

theorem apply_slotsOk (j : Jobs) (h : SlotsOk j) (op : JobOp) (hok : OpOk op) :
    SlotsOk (j.apply op) := by
  have hsafe := apply_safe j h op hok
  have hcur := h.cur_lt
  have hstatus := h.status_lt
  have hring := h.ring_lt
  cases op with
  | store p => exact ⟨hcur, hstatus, hring, hsafe⟩
  | set offset range => exact ⟨Nat.mod_lt _ (by decide), hstatus, hring, hsafe⟩
  | dispatch idx =>
    rw [apply_dispatch, genWork_note, genWork_work] at hsafe ⊢
    refine ⟨hcur, fun i => ?_, hring, hsafe⟩
    simp only [Jobs.recordWork, note_minerStatus]
    split
    · exact hcur
    · exact hstatus i
  | ready idx mask => exact ⟨hcur, hstatus, hring, hsafe⟩
  | test idx nonce =>
    rw [apply_test, test_note] at hsafe ⊢
    exact ⟨hcur, hstatus, hring, hsafe⟩
  | push idx nonce =>
    refine ⟨hcur, hstatus, fun k => ?_, hsafe⟩
    simp only [apply_push, Jobs.push]
    split
    · exact hstatus idx
    · exact hring k
  | pop =>
    rcases apply_pop_cases j with ⟨_, hpop⟩ | ⟨_, hpop⟩
    · rw [hpop]
      exact h
    · rw [hpop] at hsafe ⊢
      exact ⟨hcur, hstatus, hring, hsafe⟩
  | clearRing => exact ⟨hcur, hstatus, hring, hsafe⟩

/-! ### Events -/

def EventOk : MainLoop.Event → Prop
  | .pkg p => CrcOk p → PktOk p
  | _ => True

theorem acceptOp_ok (p : Pkg) (h : PktOk p) : OpOk (acceptOp p) := by
  unfold acceptOp
  split
  · trivial
  · trivial
  · exact h

theorem eventOps_ok (e : MainLoop.Event) (ops : List JobOp) (h : MainLoop.EventOps e ops)
    (hok : EventOk e) :
    ∀ op ∈ ops, OpOk op := by
  intro op hop
  rcases MainLoop.eventOps_cases h with ⟨p, rfl, hcrc, rfl⟩ | hown
  · rw [List.mem_singleton.mp hop]
    exact acceptOp_ok p (hok hcrc)
  · cases op with
    | store p => exact (hown _ hop).elim
    | _ => trivial

theorem apply_cur (j : Jobs) (op : JobOp) (hop : ∀ offset range, op ≠ .set offset range) :
    (j.apply op).curMmIdx = j.curMmIdx := by
  cases op with
  | store p => rfl
  | set offset range => exact absurd rfl (hop offset range)
  | dispatch idx => rw [apply_dispatch, genWork_note]; rfl
  | ready idx mask => rfl
  | test idx nonce => rw [apply_test, test_note]; rfl
  | push idx nonce => rfl
  | pop => rcases apply_pop_cases j with ⟨_, h⟩ | ⟨_, h⟩ <;> rw [h]
  | clearRing => rfl

theorem ops_cur (j : Jobs) (ops : List JobOp)
    (h : ∀ op ∈ ops, ∀ offset range, op ≠ .set offset range) :
    (Run.run Jobs.apply j ops).curMmIdx = j.curMmIdx := by
  induction ops generalizing j with
  | nil => rfl
  | cons op ops ih =>
    rw [Run.run_cons, ih _ fun op' hop' => h op' (List.mem_cons_of_mem _ hop'),
      apply_cur j op (h op (List.mem_cons_self ..))]

def IsSet (e : MainLoop.Event) : Prop := ∃ p, e = .pkg p ∧ CrcOk p ∧ pkgType p = some .set

theorem eventOps_set (e : MainLoop.Event) (ops : List JobOp)
    (h : MainLoop.EventOps e ops) (he : ¬IsSet e) :
    ∀ op ∈ ops, ∀ offset range, op ≠ .set offset range := by
  rintro op hop offset range rfl
  rcases MainLoop.eventOps_cases h with ⟨p, rfl, hcrc, rfl⟩ | hown
  · have hset := (List.mem_singleton.mp hop).symm
    unfold acceptOp at hset
    split at hset
    · rename_i ht
      exact he ⟨p, rfl, hcrc, ht⟩
    · cases hset
    · cases hset
  · exact hown _ hop

theorem ops_slotsOk (j : Jobs) (ops : List JobOp) (h : SlotsOk j) (hok : ∀ op ∈ ops, OpOk op) :
    SlotsOk (Run.run Jobs.apply j ops) :=
  Run.run_invariant Jobs.apply (fun _ op => OpOk op) SlotsOk
    (fun j op hop hj => apply_slotsOk j hj op hop) j ops
    (Run.meets_of_forall Jobs.apply _ j ops fun op hop _ => hok op hop) h

variable {σ : Type}

theorem step_slotsOk (b : Drivers.Board σ) (s : Fw σ) (e : MainLoop.Event) (h : SlotsOk s.jobs)
    (hok : EventOk e) :
    SlotsOk (MainLoop.step b s e).jobs := by
  obtain ⟨ops, hops, hrun⟩ := MainLoop.step_ops b s e
  rw [hrun]
  exact ops_slotsOk s.jobs ops h (eventOps_ok e ops hops hok)

/-- While the packets are in range the slots stay safe. -/
theorem run_slotsOk (b : Drivers.Board σ) (s : Fw σ) (es : List MainLoop.Event) (h : SlotsOk s.jobs)
    (hok : ∀ e ∈ es, EventOk e) : SlotsOk (Run.run (MainLoop.step b) s es).jobs :=
  Run.run_invariant (MainLoop.step b) (fun _ e => EventOk e) (fun s => SlotsOk s.jobs)
    (fun s e he hs => step_slotsOk b s e hs he) s es
    (Run.meets_of_forall (MainLoop.step b) _ s es fun e he _ => hok e he) h

end HashRatio.Slots
