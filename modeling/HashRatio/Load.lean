import HashRatio.Bus

/-!
# Loading a chip

`be200_input_task` reads every register back and stops at the first byte that
differs; `be200_send_work` does not ask how that went. So a chip starts on the
work it is said to have only when the whole load, made without any check, would
have been echoed.
-/

namespace HashRatio.Load
open Bytes Miner Drivers State Packets Results MainLoop Bus

variable {σ : Type} (b : Board σ) (idx : ℕ) (task : List Byte)

/-! ### What the registers echo -/

/-- What is read back when registers are written and read one after the other, whatever comes. -/
def echo : ℕ → ℕ → Dev σ → List Byte
  | 0, _, _ => []
  | n + 1, i, d =>
    let r := be200CmdRd b (be200CmdWr b d idx i (task.getD i 0)) idx i
    r.2 :: echo n (i + 1) r.1

def Echoes (d : Dev σ) : Prop := echo b idx task 44 0 d = (List.range 44).map fun i => task.getD i 0

instance (d : Dev σ) : Decidable (Echoes b idx task d) := inferInstanceAs (Decidable (_ = _))

theorem inputFrom_echo (n i : ℕ) (d : Dev σ) : (inputFrom b idx task n i d).2 = true ↔
    echo b idx task n i d = (List.range' i n).map fun k => task.getD k 0 := by
  induction n generalizing i d with
  | zero => exact ⟨fun _ => rfl, fun _ => rfl⟩
  | succ n ih =>
    rw [inputFrom, echo, List.range'_succ, List.map_cons, List.cons.injEq]
    by_cases h : (be200CmdRd b (be200CmdWr b d idx i (task.getD i 0)) idx i).2 = task.getD i 0
    · simp only [ne_eq, h, not_true_eq_false, if_false, true_and]
      exact ih (i + 1) _
    · simp only [ne_eq, h, not_false_eq_true, if_true, Bool.false_eq_true, false_and]

theorem inputTask_echoes (d : Dev σ) :
    (be200InputTask b d idx task).2 = true ↔ Echoes b idx task d := by
  rw [be200InputTask, inputFrom_echo, Echoes, List.range_eq_range']

/-! ### What is read back on the bus -/

/-- Register `reg` was read back as `v` in one of the transfers. -/
def ReadBack (new : List (Xfer σ)) (reg : ℕ) (v : Byte) : Prop :=
  ∃ y ∈ new, y.chip = idx ∧ Reads y reg ∧ (b.spi y.env y.chip y.sent).2 1 = v

theorem readReg_toNat (i : ℕ) (hi : i < 64) : (be200CmdReadReg i).toNat = 64 + i := by
  revert i
  decide

theorem writeReg_toNat (i : ℕ) (hi : i < 64) : (be200CmdWriteReg i).toNat = 128 + i := by
  revert i
  decide

theorem readReg_inj (i k : ℕ) (hi : i < 64) (hk : k < 64)
    (h : be200CmdReadReg i = be200CmdReadReg k) : i = k := by
  have hnat := congrArg BitVec.toNat h
  rw [readReg_toNat i hi, readReg_toNat k hk] at hnat
  omega

theorem writeReg_ne_read (i k : ℕ) (hi : i < 64) (hk : k < 64) :
    be200CmdWriteReg i ≠ be200CmdReadReg k := by
  intro h
  have hnat := congrArg BitVec.toNat h
  rw [writeReg_toNat i hi, readReg_toNat k hk] at hnat
  omega

theorem readBack_cons (d : Dev σ) (i k : ℕ) (hi : i < 44) (hk : k < 44) (v : Byte)
    (new : List (Xfer σ)) :
    let w := be200CmdWr b d idx i (task.getD i 0)
    ReadBack b idx (new ++ [⟨w.env, idx, [be200CmdReadReg i, 0, 0, 0]⟩,
        ⟨d.env, idx, [be200CmdWriteReg i, task.getD i 0]⟩]) k v ↔
      ReadBack b idx new k v ∨ i = k ∧ (be200CmdRd b w idx i).2 = v := by
  intro w
  constructor
  · rintro ⟨y, hy, hchip, hreads, hval⟩
    simp only [List.mem_append, List.mem_cons, List.not_mem_nil, or_false] at hy
    rcases hy with hy | rfl | rfl
    · exact Or.inl ⟨y, hy, hchip, hreads, hval⟩
    · exact Or.inr ⟨readReg_inj i k (by omega) (by omega) ((sends_iff ..).mp hreads), hval⟩
    · exact absurd ((sends_iff ..).mp hreads) (writeReg_ne_read i k (by omega) (by omega))
  · rintro (⟨y, hy, hread⟩ | ⟨rfl, hval⟩)
    · exact ⟨y, List.mem_append_left _ hy, hread⟩
    · exact ⟨_, List.mem_append_right _ (List.mem_cons_self ..), rfl, (sends_iff ..).mpr rfl, hval⟩

theorem inputFrom_reads (n i : ℕ) (d : Dev σ) (h : i + n ≤ 44) :
    ∃ new, (inputFrom b idx task n i d).1.xfers = new ++ d.xfers ∧
      (∀ x ∈ new, ¬IsClear x ∧ ¬IsStart x) ∧
      ((inputFrom b idx task n i d).2 = true ↔
        ∀ k, i ≤ k → k < i + n → ReadBack b idx new k (task.getD k 0)) := by
  have hplain := inputFrom_plain b idx task n i d h
  suffices hreads : ∀ new, (inputFrom b idx task n i d).1.xfers = new ++ d.xfers →
      ((inputFrom b idx task n i d).2 = true ↔ ∀ k, i ≤ k → k < i + n →
        ReadBack b idx new k (task.getD k 0)) by
    obtain ⟨new, hnew, hnone⟩ := hplain
    exact ⟨new, hnew, hnone, hreads new hnew⟩
  clear hplain
  -- the transfers of a register are in front of those of the registers after it
  induction n generalizing i d with
  | zero => exact fun new _ => ⟨fun _ k _ _ => by omega, fun _ => rfl⟩
  | succ n ih =>
    intro new hnew
    generalize hw : be200CmdWr b d idx i (task.getD i 0) = w
    generalize hr : be200CmdRd b w idx i = r
    have hfirst : r.1.xfers = ⟨w.env, idx, [be200CmdReadReg i, 0, 0, 0]⟩ ::
        ⟨d.env, idx, [be200CmdWriteReg i, task.getD i 0]⟩ :: d.xfers := by
      rw [← hr, rd_xfers, ← hw, wr_xfers]
    have hback (rest : List (Xfer σ)) (k : ℕ) (hk : k < 44) (v : Byte) :=
      readBack_cons b idx task d i k (by omega) hk v rest
    rw [hw] at hback
    simp only [hr] at hback
    rw [inputFrom] at hnew ⊢
    simp only [hw, hr] at hnew ⊢
    by_cases hval : r.2 = task.getD i 0
    · simp only [ne_eq, hval, not_true_eq_false, if_false] at hnew ⊢
      obtain ⟨rest, hrest, _⟩ := inputFrom_plain b idx task n (i + 1) r.1 (by omega)
      have hsplit : new = rest ++ [⟨w.env, idx, [be200CmdReadReg i, 0, 0, 0]⟩,
          ⟨d.env, idx, [be200CmdWriteReg i, task.getD i 0]⟩] := by
        refine (List.append_left_inj d.xfers).mp ?_
        rw [← hnew, hrest, hfirst, List.append_assoc]
        rfl
      rw [ih (i + 1) r.1 (by omega) rest hrest, hsplit]
      constructor
      · intro hall k h1 h2
        rw [hback rest k (by omega)]
        by_cases hik : i = k
        · exact Or.inr ⟨hik, hik ▸ hval⟩
        · exact Or.inl (hall k (by omega) (by omega))
      · intro hall k h1 h2
        have hk := hall k (by omega) (by omega)
        rw [hback rest k (by omega)] at hk
        exact hk.resolve_right fun hik => by omega
    · simp only [ne_eq, hval, not_false_eq_true, if_true] at hnew ⊢
      have hsplit : new = [] ++ [⟨w.env, idx, [be200CmdReadReg i, 0, 0, 0]⟩,
          ⟨d.env, idx, [be200CmdWriteReg i, task.getD i 0]⟩] := by
        refine (List.append_left_inj d.xfers).mp ?_
        rw [← hnew, hfirst]
        rfl
      simp only [Bool.false_eq_true, false_iff]
      intro hall
      have hi := hall i (Nat.le_refl i) (by omega)
      rw [hsplit, hback [] i (by omega)] at hi
      rcases hi with ⟨y, hy, _⟩ | ⟨_, hi⟩
      · cases hy
      · exact hval hi

/-! ### be200_send_work -/

/-- The transfers made on the way from one state of the board to another, newest first. -/
def newXfers (d d' : Dev σ) : List (Xfer σ) := d'.xfers.take (d'.xfers.length - d.xfers.length)

theorem newXfers_eq {d d' : Dev σ} {new : List (Xfer σ)} (h : d'.xfers = new ++ d.xfers) :
    newXfers d d' = new := by
  rw [newXfers, h, List.length_append, Nat.add_sub_cancel, List.take_left]

/-- A chip is started only with all of its work read back, and after a mismatch neither started nor
said to have the work. -/
def LoadsChecked (s : Fw σ) (w : Work) : Prop :=
  let new := newXfers s.dev (be200SendWork b s idx w).dev
  (∀ later x earlier, new = later ++ x :: earlier → x.chip = idx → IsStart x →
    ∀ i < 44, ReadBack b idx earlier i (w.data.getD i 0)) ∧
  ((be200InputTask b (be200CmdRd b s.dev idx be200RegClear).1 idx w.data).2 = false →
    (∀ x ∈ new, x.chip = idx → ¬IsStart x) ∧
      (be200SendWork b s idx w).jobs.minerStatus idx = s.jobs.minerStatus idx)

theorem sendWork_xfers (s : Fw σ) (w : Work) : ∃ input before start after,
    newXfers s.dev (be200SendWork b s idx w).dev = after :: start :: before :: (input ++
      [⟨s.dev.env, idx, [be200CmdReadReg be200RegClear, 0, 0, 0]⟩]) ∧
    (IsCheck after ∧ IsCheck before ∧ start.chip = idx ∧ IsStart start) ∧
    (∀ x ∈ input, ¬IsClear x ∧ ¬IsStart x) ∧
    ((be200InputTask b (be200CmdRd b s.dev idx be200RegClear).1 idx w.data).2 = true ↔
      ∀ k < 44, ReadBack b idx input k (w.data.getD k 0)) := by
  obtain ⟨input, hinput, hplain, hreads⟩ :=
    inputFrom_reads b idx w.data 44 0 (be200CmdRd b s.dev idx be200RegClear).1 (by omega)
  rw [← be200InputTask] at hinput hreads
  generalize hloaded :
    (be200InputTask b (be200CmdRd b s.dev idx be200RegClear).1 idx w.data) = loaded at *
  generalize hchecked : (be200CmdCk b loaded.1 idx).1 = checked
  have hc : checked.xfers = ⟨loaded.1.env, idx, [0, 0, loaded.1.writeBuffer 2]⟩ :: loaded.1.xfers :=
    hchecked ▸ rfl
  generalize hstarted : be200CmdWr b checked idx be200RegStart 0xFF = started
  have hs : started.xfers =
      ⟨checked.env, idx, [be200CmdWriteReg be200RegStart, 0xFF]⟩ :: checked.xfers :=
    hstarted ▸ rfl
  have hdev : (be200SendWork b s idx w).dev = (be200CmdCk b started idx).1 := by
    rw [be200SendWork]
    simp only [hloaded]
    rw [be200Start, hchecked, hstarted]
  refine ⟨input, ⟨loaded.1.env, idx, [0, 0, loaded.1.writeBuffer 2]⟩,
    ⟨checked.env, idx, [be200CmdWriteReg be200RegStart, 0xFF]⟩,
    ⟨started.env, idx, [0, 0, started.writeBuffer 2]⟩,
    ?_, ⟨(sends_iff ..).mpr rfl, (sends_iff ..).mpr rfl, rfl, (sends_iff ..).mpr rfl⟩, hplain, ?_⟩
  · apply newXfers_eq
    rw [hdev, ck_xfers, hs, hc, hinput, rd_xfers]
    simp only [List.cons_append, List.append_assoc, List.nil_append]
  · rw [hreads]
    exact ⟨fun h k hk => h k (Nat.zero_le k) (by omega), fun h k _ hk => h k (by omega)⟩

theorem check_not_start {x : Xfer σ} (h : IsCheck x) : ¬IsStart x := by
  intro hs
  exact absurd (Option.some.inj (h.symm.trans hs)) (by decide)

theorem readBack_rest (s : Fw σ) (input : List (Xfer σ)) (before : Xfer σ)
    (hbefore : IsCheck before) (k : ℕ) (hk : k < 44) (v : Byte) :
    ReadBack b idx (before :: (input ++
      [⟨s.dev.env, idx, [be200CmdReadReg be200RegClear, 0, 0, 0]⟩])) k v ↔
        ReadBack b idx input k v := by
  constructor
  · rintro ⟨y, hy, hchip, hreads, hval⟩
    simp only [List.mem_cons, List.mem_append, List.not_mem_nil, or_false] at hy
    rcases hy with rfl | hy | rfl
    · have hcmd : be200CmdCheck = be200CmdReadReg k := Option.some.inj (hbefore.symm.trans hreads)
      have hnat : 0 = 64 + k := (congrArg BitVec.toNat hcmd).trans (readReg_toNat k (by omega))
      omega
    · exact ⟨y, hy, hchip, hreads, hval⟩
    · have hreg := readReg_inj be200RegClear k (by decide) (by omega) ((sends_iff ..).mp hreads)
      unfold be200RegClear at hreg
      omega
  · rintro ⟨y, hy, hread⟩
    exact ⟨y, List.mem_cons_of_mem _ (List.mem_append_left _ hy), hread⟩

theorem loadsChecked_input (s : Fw σ) (w : Work) : LoadsChecked b idx s w ↔
    (be200InputTask b (be200CmdRd b s.dev idx be200RegClear).1 idx w.data).2 = true := by
  obtain ⟨input, before, start, after, hnew, ⟨hafter, hbefore, hchip, hstart⟩, hplain, hreads⟩ :=
    sendWork_xfers b idx s w
  rw [LoadsChecked, hnew, hreads]
  constructor
  · rintro ⟨hread, _⟩ k hk
    -- START is written whatever the load said
    have hall := hread [after] start _ rfl hchip hstart k hk
    exact (readBack_rest b idx s input before hbefore k hk _).mp hall
  · intro hread
    refine ⟨fun later x earlier hsplit _ hx i hi => ?_, fun hfalse => ?_⟩
    · match later, hsplit with
      | [], hsplit =>
        rw [List.nil_append, List.cons.injEq] at hsplit
        exact absurd (hsplit.1 ▸ hx) (check_not_start hafter)
      | [_], hsplit =>
        simp only [List.cons_append, List.nil_append, List.cons.injEq] at hsplit
        rw [← hsplit.2.2, readBack_rest b idx s input before hbefore i hi]
        exact hread i hi
      | _ :: _ :: later, hsplit =>
        simp only [List.cons_append, List.cons.injEq] at hsplit
        have hmem : x ∈
            before :: (input ++ [⟨s.dev.env, idx, [be200CmdReadReg be200RegClear, 0, 0, 0]⟩]) := by
          rw [hsplit.2.2]
          exact List.mem_append_right _ (List.mem_cons_self ..)
        simp only [List.mem_cons, List.mem_append, List.not_mem_nil, or_false] at hmem
        rcases hmem with rfl | hmem | rfl
        · exact absurd hx (check_not_start hbefore)
        · exact absurd hx (hplain x hmem).2
        · exact absurd ((sends_iff ..).mp hx) (by decide)
    · rw [hreads.mpr hread] at hfalse
      cases hfalse

/-- **A chip is loaded as `be200_input_task` would have it just when it echoes all of its task**:
whatever else comes back, it is started on a mixture and said to have the work. -/
theorem loadsChecked_iff (s : Fw σ) (w : Work) :
    LoadsChecked b idx s w ↔ Echoes b idx w.data (be200CmdRd b s.dev idx be200RegClear).1 := by
  rw [loadsChecked_input, inputTask_echoes]

/-- Every read is answered with zeros. -/
theorem zeros_started :
    ¬LoadsChecked (stillBoard 0) 0 (start (stillBoard 0) ()) ⟨0, 0, List.replicate 44 1, []⟩ := by
  rw [loadsChecked_input]
  decide +kernel

end HashRatio.Load
