import HashRatio.Bus

/-!
# Nonces are read out

A chip flags the nonces it found in its status byte until CLEAR is read. A result
pass reads one nonce of each chip that is ready and clears the chip; the dispatch
loop clears every chip that may be written to. Both go well with chips that flag
one nonce at a time and none while they wait for work.
-/

namespace HashRatio.Unread
open Bytes Protocol Drivers State Packets Results MainLoop Bus

variable {σ : Type}

/-! ### Chips -/

/-- The nonces a status byte shows. -/
def shownMask (c : Byte) : Byte :=
  if c &&& be200StatRReady ≠ 0 then (c &&& be200StatNonceMask) >>> 2 else 0

/-- What the driver says of the chips: the status byte shows the nonces flagged, and they stay
flagged until CLEAR is read. -/
structure Documented (b : Board σ) (flags : σ → ℕ → BitVec 4) : Prop where
  shown : ∀ env idx sent, sent.head? = some be200CmdCheck →
    shownMask ((b.spi env idx sent).2 2) = (flags env idx).setWidth 8
  kept : ∀ env idx sent chip k, (chip = idx → sent.head? ≠ some (be200CmdReadReg be200RegClear)) →
    (flags env chip).getLsbD k = true → (flags (b.spi env idx sent).1 chip).getLsbD k = true

section flags
variable (flags : σ → ℕ → BitVec 4)

/-- The transfers of a chip since its last CLEAR. -/
def sinceClear (idx : ℕ) (xs : List (Xfer σ)) : List (Xfer σ) :=
  (xs.filter fun x => x.chip = idx).takeWhile fun x => ¬IsClear x

/-- The four registers of nonce `k` were read with the nonce flagged. -/
def ReadOut (xs : List (Xfer σ)) (idx k : ℕ) : Prop :=
  ∀ i < 4, ∃ x ∈ sinceClear idx xs, Reads x (46 + 4 * k + i) ∧ (flags x.env idx).getLsbD k = true

/-- No chip is cleared or started while it flags a nonce that was not read out. -/
def NoDiscard : List (Xfer σ) → Prop
  | [] => True
  | x :: xs =>
    (IsClear x ∨ IsStart x → ∀ k < 4, (flags x.env x.chip).getLsbD k = true →
      ReadOut flags xs x.chip k) ∧
      NoDiscard xs

instance (xs : List (Xfer σ)) (idx k : ℕ) : Decidable (ReadOut flags xs idx k) :=
  inferInstanceAs (Decidable (∀ i < 4, ∃ x ∈ sinceClear idx xs, _))

instance decNoDiscard : (xs : List (Xfer σ)) → Decidable (NoDiscard flags xs)
  | [] => .isTrue trivial
  | _ :: xs =>
    have := decNoDiscard xs
    inferInstanceAs (Decidable (_ ∧ _))

/-! ### Calm chips -/

def AtMostOne (m : BitVec 4) : Prop :=
  ∀ k < 4, ∀ k' < 4, m.getLsbD k = true → m.getLsbD k' = true → k = k'

/-- A chip that is started flags no nonce up to then; `started` are the chips started later on. -/
def Rests : List ℕ → List (Xfer σ) → Prop
  | _, [] => True
  | started, x :: xs =>
    (x.chip ∈ (if IsStart x then x.chip :: started else started) → flags x.env x.chip = 0) ∧
      Rests (if IsStart x then x.chip :: started else started) xs

/-- A CLEAR that directly follows a check or a CLEAR of the chip finds no nonce flagged. -/
def Apart : List (Xfer σ) → Prop
  | [] => True
  | x :: xs =>
    (IsClear x → ∀ y ∈ xs.head?, y.chip = x.chip → IsClear y ∨ IsCheck y → flags x.env x.chip = 0) ∧
      Apart xs

/-- Chips that let none of their nonces be lost in these transfers. -/
structure Calm (new : List (Xfer σ)) : Prop where
  one : ∀ x ∈ new, AtMostOne (flags x.env x.chip)
  rests : Rests flags [] new
  apart : Apart flags new

instance (m : BitVec 4) : Decidable (AtMostOne m) :=
  inferInstanceAs (Decidable (∀ k < 4, ∀ k' < 4, _))

instance decRests : (started : List ℕ) → (xs : List (Xfer σ)) → Decidable (Rests flags started xs)
  | _, [] => .isTrue trivial
  | started, x :: xs =>
    have := decRests (if IsStart x then x.chip :: started else started) xs
    inferInstanceAs (Decidable (_ ∧ _))

instance decApart : (xs : List (Xfer σ)) → Decidable (Apart flags xs)
  | [] => .isTrue trivial
  | _ :: xs =>
    have := decApart xs
    inferInstanceAs (Decidable (_ ∧ _))

instance (new : List (Xfer σ)) : Decidable (Calm flags new) :=
  decidable_of_iff ((∀ x ∈ new, AtMostOne (flags x.env x.chip)) ∧
    Rests flags [] new ∧ Apart flags new)
    ⟨fun ⟨h1, h2, h3⟩ => ⟨h1, h2, h3⟩, fun ⟨h1, h2, h3⟩ => ⟨h1, h2, h3⟩⟩

variable {flags}

theorem rests_mono (started started' : List ℕ) (hsub : ∀ i ∈ started, i ∈ started')
    (xs : List (Xfer σ)) (h : Rests flags started' xs) : Rests flags started xs := by
  induction xs generalizing started started' with
  | nil => trivial
  | cons x xs ih =>
    have hcons : ∀ i ∈ (if IsStart x then x.chip :: started else started),
        i ∈ (if IsStart x then x.chip :: started' else started') := by
      intro i hi
      split at hi
      · rename_i hx
        rw [if_pos hx]
        exact (List.mem_cons.mp hi).elim (fun h => h ▸ List.mem_cons_self ..)
          fun h => List.mem_cons_of_mem _ (hsub i h)
      · rename_i hx
        rw [if_neg hx]
        exact hsub i hi
    exact ⟨fun hx => h.1 (hcons _ hx), ih _ _ hcons h.2⟩

theorem rests_left (started : List ℕ) (xs ys : List (Xfer σ)) (h : Rests flags started (xs ++ ys)) :
    Rests flags started xs := by
  induction xs generalizing started with
  | nil => trivial
  | cons x xs ih => exact ⟨h.1, ih _ h.2⟩

theorem rests_right (started : List ℕ) (xs ys : List (Xfer σ))
    (h : Rests flags started (xs ++ ys)) :
    Rests flags [] ys := by
  induction xs generalizing started with
  | nil => exact rests_mono [] started (by simp) ys h
  | cons x xs ih => exact ih _ h.2

theorem rests_mem (started : List ℕ) (xs : List (Xfer σ)) (h : Rests flags started xs)
    (x : Xfer σ) (hx : x ∈ xs) (hchip : x.chip ∈ started) : flags x.env x.chip = 0 := by
  induction xs generalizing started with
  | nil => simp at hx
  | cons y xs ih =>
    have hlater : x.chip ∈ (if IsStart y then y.chip :: started else started) := by
      split
      · exact List.mem_cons_of_mem _ hchip
      · exact hchip
    rcases List.mem_cons.mp hx with rfl | hx
    · exact h.1 hlater
    · exact ih _ h.2 hx hlater

theorem rests_start (started : List ℕ) (x : Xfer σ) (xs : List (Xfer σ))
    (h : Rests flags started (x :: xs)) (hx : IsStart x) :
    flags x.env x.chip = 0 ∧ ∀ y ∈ xs, y.chip = x.chip → flags y.env y.chip = 0 := by
  rw [Rests, if_pos hx] at h
  exact ⟨h.1 (List.mem_cons_self ..),
    fun y hy hchip => rests_mem _ xs h.2 y hy (hchip ▸ List.mem_cons_self ..)⟩

theorem apart_append (xs ys : List (Xfer σ)) (h : Apart flags (xs ++ ys)) :
    Apart flags xs ∧ Apart flags ys := by
  induction xs with
  | nil => exact ⟨trivial, h⟩
  | cons x xs ih =>
    refine ⟨⟨fun hx y hy => h.1 hx y ?_, (ih h.2).1⟩, (ih h.2).2⟩
    cases xs with
    | nil => simp at hy
    | cons z xs => exact hy

theorem Calm.append {xs ys : List (Xfer σ)} (h : Calm flags (xs ++ ys)) :
    Calm flags xs ∧ Calm flags ys :=
  ⟨⟨fun x hx => h.one x (List.mem_append_left _ hx), rests_left _ _ _ h.rests,
    (apart_append _ _ h.apart).1⟩,
      ⟨fun x hx => h.one x (List.mem_append_right _ hx), rests_right _ _ _ h.rests,
        (apart_append _ _ h.apart).2⟩⟩

/-! ### Steps of the drivers -/

variable (flags) in
def Keeps (d d' : Dev σ) : Prop :=
  ∃ new, d'.xfers = new ++ d.xfers ∧
    (Calm flags new → NoDiscard flags d.xfers → NoDiscard flags d'.xfers)

theorem Keeps.trans {d d' d'' : Dev σ} (h : Keeps flags d d') (h' : Keeps flags d' d'') :
    Keeps flags d d'' := by
  obtain ⟨new, hnew, hkeep⟩ := h
  obtain ⟨new', hnew', hkeep'⟩ := h'
  refine ⟨new' ++ new, by rw [hnew', hnew, List.append_assoc], fun hcalm hd => ?_⟩
  exact hkeep' hcalm.append.1 (hkeep hcalm.append.2 hd)

theorem noDiscard_plain (new xs : List (Xfer σ)) (hplain : ∀ x ∈ new, ¬IsClear x ∧ ¬IsStart x)
    (h : NoDiscard flags xs) : NoDiscard flags (new ++ xs) := by
  induction new with
  | nil => exact h
  | cons x new ih =>
    refine ⟨fun hx => ?_, ih fun y hy => hplain y (List.mem_cons_of_mem _ hy)⟩
    have hne := hplain x (List.mem_cons_self ..)
    exact absurd hx (not_or.mpr hne)

theorem keeps_of_plain {d d' : Dev σ} (h : Plain d d') : Keeps flags d d' := by
  obtain ⟨new, hnew, hplain⟩ := h
  exact ⟨new, hnew, fun _ hd => hnew ▸ noDiscard_plain new d.xfers hplain hd⟩

theorem noDiscard_zero {x : Xfer σ} {xs : List (Xfer σ)} (hx : flags x.env x.chip = 0)
    (h : NoDiscard flags xs) :
    NoDiscard flags (x :: xs) :=
  ⟨fun _ k _ hk => by simp [hx] at hk, h⟩

theorem load_keeps (b : Board σ) (d : Dev σ) (idx : ℕ) (task : List Byte) :
    Keeps flags d
      (be200Start b (be200InputTask b (be200CmdRd b d idx be200RegClear).1 idx task).1 idx) := by
  obtain ⟨mid, hmid, hplain⟩ := inputTask_plain b (be200CmdRd b d idx be200RegClear).1 idx task
  generalize hloaded :
    (be200InputTask b (be200CmdRd b d idx be200RegClear).1 idx task).1 = loaded at hmid
  generalize hchecked : (be200CmdCk b loaded idx).1 = checked
  have hc : checked.xfers = ⟨loaded.env, idx, [0, 0, loaded.writeBuffer 2]⟩ :: loaded.xfers :=
    hchecked ▸ rfl
  generalize hstarted : be200CmdWr b checked idx be200RegStart 0xFF = started
  have hs : started.xfers =
      ⟨checked.env, idx, [be200CmdWriteReg be200RegStart, 0xFF]⟩ :: checked.xfers :=
    hstarted ▸ rfl
  have hend : (be200Start b loaded idx).xfers =
      ⟨started.env, idx, [0, 0, started.writeBuffer 2]⟩ :: started.xfers := by
    rw [be200Start, hchecked, hstarted, ck_xfers]
  rw [hc, hmid, rd_xfers] at hs
  -- newest first: a check, START, a check, the registers written and read back, CLEAR
  refine ⟨⟨started.env, idx, [0, 0, started.writeBuffer 2]⟩ ::
      ⟨checked.env, idx, [be200CmdWriteReg be200RegStart, 0xFF]⟩ ::
      ⟨loaded.env, idx, [0, 0, loaded.writeBuffer 2]⟩ ::
      (mid ++ [⟨d.env, idx, [be200CmdReadReg be200RegClear, 0, 0, 0]⟩]), by
        rw [hend, hs]; simp, fun hcalm hd => ?_⟩
  rw [hend, hs]
  have hck (env : σ) (v : Byte) (xs : List (Xfer σ)) (h : NoDiscard flags xs) :
      NoDiscard flags (⟨env, idx, [0, 0, v]⟩ :: xs) := by
    refine ⟨fun hx => ?_, h⟩
    rw [IsClear, Reads, IsStart, sends_iff, sends_iff] at hx
    exact absurd hx (by decide)
  obtain ⟨hstart, hbefore⟩ :=
    rests_start _ _ _ (rests_right _ [_] _ hcalm.rests) ((sends_iff ..).mpr rfl)
  have hclear := hbefore ⟨d.env, idx, [be200CmdReadReg be200RegClear, 0, 0, 0]⟩ (by simp) rfl
  exact hck _ _ _ (noDiscard_zero hstart
    (hck _ _ _ (noDiscard_plain mid _ hplain (noDiscard_zero hclear hd))))

/-! ### Reading a nonce out -/

section documented
variable {b : Board σ} (hdoc : Documented b flags)
include hdoc

theorem done_mask (d : Dev σ) (idx : ℕ) (mask : Byte) (h : (be200GetDone b d idx).2 = some mask) :
    mask = (flags d.env idx).setWidth 8 := by
  have hshown := hdoc.shown d.env idx [0, 0, d.writeBuffer 2] rfl
  have hstatus : (be200CmdCk b d idx).2 = (b.spi d.env idx [0, 0, d.writeBuffer 2]).2 2 := rfl
  rw [be200GetDone] at h
  simp only [hstatus] at h
  rw [shownMask] at hshown
  split at h
  · rename_i hready
    rw [if_pos hready] at hshown
    rw [← Option.some.inj h, hshown]
  · cases h

theorem ck_flag (d : Dev σ) (idx k : ℕ) (h : (flags d.env idx).getLsbD k = true) :
    (flags (be200CmdCk b d idx).1.env idx).getLsbD k = true :=
  hdoc.kept d.env idx [0, 0, d.writeBuffer 2] idx k
    (fun _ hc => absurd (Option.some.inj hc) (by decide)) h

theorem rd_flag (d : Dev σ) (idx reg k : ℕ) (hreg : reg < 62)
    (h : (flags d.env idx).getLsbD k = true) :
    (flags (be200CmdRd b d idx reg).1.env idx).getLsbD k = true :=
  hdoc.kept d.env idx [be200CmdReadReg reg, 0, 0, 0] idx k
    (fun _ hc => (readReg_ne reg hreg).1 (Option.some.inj hc)) h

end documented

theorem nonceStartReg_flags (m : BitVec 4) :
    nonceStartReg (m.setWidth 8) = none ∨
      ∃ k < 4, nonceStartReg (m.setWidth 8) = some (46 + 4 * k) ∧ m.getLsbD k = true := by
  revert m
  decide

theorem sinceClear_cons (idx : ℕ) (env : σ) (c : Byte) (rest : List Byte) (xs : List (Xfer σ))
    (h : c ≠ be200CmdReadReg be200RegClear) :
    sinceClear idx (⟨env, idx, c :: rest⟩ :: xs) = ⟨env, idx, c :: rest⟩ :: sinceClear idx xs := by
  have hne : ¬IsClear (⟨env, idx, c :: rest⟩ : Xfer σ) := fun hc => h ((sends_iff ..).mp hc)
  simp [sinceClear, hne]

def readNonce (b : Board σ) (d : Dev σ) (idx k : ℕ) : Dev σ :=
  let d := (be200CmdRd b d idx (46 + 4 * k + 3)).1
  let d := (be200CmdRd b d idx (46 + 4 * k + 2)).1
  let d := (be200CmdRd b d idx (46 + 4 * k + 1)).1
  (be200CmdRd b d idx (46 + 4 * k + 0)).1

theorem readNonce_plain (b : Board σ) (d : Dev σ) (idx k : ℕ) (hk : k < 4) :
    Plain d (readNonce b d idx k) :=
  (((rd_plain b d idx _ (by omega)).trans (rd_plain b _ idx _ (by omega))).trans
    (rd_plain b _ idx _ (by omega))).trans (rd_plain b _ idx _ (by omega))

theorem readOut_noDiscard {b : Board σ} (hdoc : Documented b flags) (d : Dev σ)
    (idx k : ℕ) (hk : k < 4) (hflag : (flags d.env idx).getLsbD k = true) :
    AtMostOne (flags (readNonce b d idx k).env idx) → NoDiscard flags d.xfers →
      NoDiscard flags (be200CmdRd b (readNonce b d idx k) idx be200RegClear).1.xfers := by
  intro hone hd
  let r3 := (be200CmdRd b d idx (46 + 4 * k + 3)).1
  let r2 := (be200CmdRd b r3 idx (46 + 4 * k + 2)).1
  let r1 := (be200CmdRd b r2 idx (46 + 4 * k + 1)).1
  let r0 := (be200CmdRd b r1 idx (46 + 4 * k + 0)).1
  have h3 : (flags r3.env idx).getLsbD k = true := rd_flag hdoc d idx _ k (by omega) hflag
  have h2 : (flags r2.env idx).getLsbD k = true := rd_flag hdoc r3 idx _ k (by omega) h3
  have h1 : (flags r1.env idx).getLsbD k = true := rd_flag hdoc r2 idx _ k (by omega) h2
  have h0 : (flags r0.env idx).getLsbD k = true := rd_flag hdoc r1 idx _ k (by omega) h1
  obtain ⟨new, hnew, hne⟩ : Plain d r0 := readNonce_plain b d idx k hk
  rw [rd_xfers]
  refine ⟨fun _ k' hk' hflag' => ?_, hnew ▸ noDiscard_plain new d.xfers hne hd⟩
  have heq : k' = k := hone k' hk' k hk hflag' h0
  rw [heq, ReadOut]
  have hcmd (i : ℕ) (hi : i < 4) : be200CmdReadReg (46 + 4 * k + i) ≠
      be200CmdReadReg be200RegClear :=
    (readReg_ne _ (by omega)).1
  have hlog : sinceClear idx (readNonce b d idx k).xfers =
      ⟨r1.env, idx, [be200CmdReadReg (46 + 4 * k + 0), 0, 0, 0]⟩ ::
      ⟨r2.env, idx, [be200CmdReadReg (46 + 4 * k + 1), 0, 0, 0]⟩ ::
      ⟨r3.env, idx, [be200CmdReadReg (46 + 4 * k + 2), 0, 0, 0]⟩ ::
      ⟨d.env, idx, [be200CmdReadReg (46 + 4 * k + 3), 0, 0, 0]⟩ :: sinceClear idx d.xfers := by
    rw [readNonce, rd_xfers, sinceClear_cons _ _ _ _ _ (hcmd 0 (by omega)), rd_xfers,
      sinceClear_cons _ _ _ _ _ (hcmd 1 (by omega)), rd_xfers,
        sinceClear_cons _ _ _ _ _ (hcmd 2 (by omega)),
      rd_xfers, sinceClear_cons _ _ _ _ _ (hcmd 3 (by omega))]
  rw [hlog]
  intro i hi
  obtain rfl | rfl | rfl | rfl : i = 0 ∨ i = 1 ∨ i = 2 ∨ i = 3 := by omega
  · exact ⟨_, .head _, (sends_iff ..).mpr rfl, h1⟩
  · exact ⟨_, .tail _ (.head _), (sends_iff ..).mpr rfl, h2⟩
  · exact ⟨_, .tail _ (.tail _ (.head _)), (sends_iff ..).mpr rfl, h3⟩
  · exact ⟨_, .tail _ (.tail _ (.tail _ (.head _))), (sends_iff ..).mpr rfl, hflag⟩

theorem result_log {b : Board σ} (hdoc : Documented b flags) (d : Dev σ) (idx : ℕ) (mask : Byte)
    (h : (be200GetDone b d idx).2 = some mask) :
    ∃ y ys, (be200GetResult b (be200GetDone b d idx).1 idx mask).1.xfers = (y :: ys) ++ d.xfers ∧
      y.chip = idx ∧
      (IsClear y ∨ IsCheck y) ∧
        ((∀ x ∈ y :: ys, AtMostOne (flags x.env x.chip)) → NoDiscard flags d.xfers →
        NoDiscard flags (be200GetResult b (be200GetDone b d idx).1 idx mask).1.xfers) := by
  have hmask := done_mask hdoc d idx mask h
  have hck : (be200GetDone b d idx).1.xfers = ⟨d.env, idx, [0, 0, d.writeBuffer 2]⟩ :: d.xfers :=
    rfl
  have hplain : Plain d (be200GetDone b d idx).1 := ck_plain b d idx
  obtain ⟨new, hnew, hne⟩ := hplain
  rcases nonceStartReg_flags (flags d.env idx) with hnone | ⟨k, hk, hsome, hflag⟩
  · rw [← hmask] at hnone
    simp only [be200GetResult, hnone]
    exact ⟨_, [], hck, rfl, Or.inr ((sends_iff ..).mpr rfl),
      fun _ hd => hnew ▸ noDiscard_plain new d.xfers hne hd⟩
  · rw [← hmask] at hsome
    simp only [be200GetResult, hsome]
    have hflag1 : (flags (be200GetDone b d idx).1.env idx).getLsbD k = true :=
      ck_flag hdoc d idx k hflag
    have hread := readOut_noDiscard hdoc (be200GetDone b d idx).1 idx k hk hflag1
    obtain ⟨reads, hreads, _⟩ := readNonce_plain b (be200GetDone b d idx).1 idx k hk
    refine ⟨⟨(readNonce b (be200GetDone b d idx).1 idx k).env, idx,
      [be200CmdReadReg be200RegClear, 0, 0, 0]⟩,
      reads ++ [⟨d.env, idx, [0, 0, d.writeBuffer 2]⟩], ?_, rfl, Or.inl ((sends_iff ..).mpr rfl),
        fun hone hd => ?_⟩
    · rw [rd_xfers, ← readNonce, hreads, hck]
      simp
    · exact hread (hone _ (List.mem_cons_self ..)) (hnew ▸ noDiscard_plain new d.xfers hne hd)

/-! ### Steps of the firmware -/

theorem dispatch_keeps (b : Board σ) (s : Fw σ) (idx : ℕ) :
    Keeps flags s.dev (dispatch b s idx).dev := by
  have hck : Keeps flags s.dev (be200IsIdle b s.dev idx).1 := keeps_of_plain (ck_plain b s.dev idx)
  simp only [dispatch]
  split
  · exact hck.trans (load_keeps b _ idx _)
  · exact hck

theorem countResult_plain (b : Board σ) (st : Scan σ) (idx : ℕ)
    (t : Jobs × Miner.NonceCheck × Option Word) :
    Plain st.fw.dev (countResult b st idx t).fw.dev := by
  simp only [countResult]
  split
  · exact plain_of_eq (ledBlink_xfers ..)
  · split
    · exact plain_of_eq rfl
    · simp only [countInvalid]
      split
      · exact Plain.trans (plain_of_eq (by rw [chipHardReset_xfers, ledBlink_xfers]))
          (freqWriteAll_plain b _ _ _)
      · exact plain_of_eq (ledBlink_xfers ..)

section documented
variable {b : Board σ} (hdoc : Documented b flags)
include hdoc

theorem result_keeps (d : Dev σ) (idx : ℕ) (mask : Byte)
    (h : (be200GetDone b d idx).2 = some mask) :
    Keeps flags d (be200GetResult b (be200GetDone b d idx).1 idx mask).1 := by
  obtain ⟨y, ys, hlog, _, _, hkeep⟩ := result_log hdoc d idx mask h
  exact ⟨y :: ys, hlog, fun hcalm hd => hkeep hcalm.one hd⟩

theorem resultChip_keeps (st : Scan σ) (idx : ℕ) :
    Keeps flags st.fw.dev (resultChip b st idx).fw.dev := by
  cases hdone : (be200GetDone b st.fw.dev idx).2 with
  | none =>
    simp only [resultChip, hdone]
    exact keeps_of_plain (ck_plain b st.fw.dev idx)
  | some mask =>
    simp only [resultChip, hdone, readyChip]
    exact (result_keeps hdoc st.fw.dev idx mask hdone).trans
      (keeps_of_plain (countResult_plain b _ idx _))

theorem readResult_keeps (s : Fw σ) : Keeps flags s.dev (be200ReadResult b s).dev := by
  have hfold (is : List ℕ) (st : Scan σ) :
      Keeps flags st.fw.dev (is.foldl (resultChip b) st).fw.dev := by
    induction is generalizing st with
    | nil => exact keeps_of_plain (plain_of_eq rfl)
    | cons i is ih => exact (resultChip_keeps hdoc st i).trans (ih _)
  exact hfold (List.range chipNumber) ⟨s, b.stale s.dev.env, .hw, false⟩

theorem itpResultChip_keeps (expected : Word) (st : ItpState σ) (idx : ℕ) :
    Keeps flags st.dev (itpResultChip b expected st idx).dev := by
  cases hdone : (be200GetDone b st.dev idx).2 with
  | none =>
    simp only [itpResultChip, hdone]
    exact keeps_of_plain (ck_plain b st.dev idx)
  | some mask =>
    obtain ⟨y, ys, hlog, hchip, hlast, hkeep⟩ := result_log hdoc st.dev idx mask hdone
    simp only [itpResultChip, hdone]
    generalize (be200GetResult b (be200GetDone b st.dev idx).1 idx mask).1 = d1 at *
    refine ⟨⟨d1.env, idx, [be200CmdReadReg be200RegClear, 0, 0, 0]⟩ :: y :: ys, ?_,
      fun hcalm hd => ?_⟩
    · rw [rd_xfers, hlog]
      rfl
    · have hzero : flags d1.env idx = 0 := hcalm.apart.1 ((sends_iff ..).mpr rfl) y rfl hchip hlast
      rw [rd_xfers]
      exact noDiscard_zero hzero (hkeep (fun x hx => hcalm.one x (List.mem_cons_of_mem _ hx)) hd)

theorem itpResultAll_keeps (s : Fw σ) (n : ℕ) : Keeps flags s.dev (itpResultAll b s n).dev := by
  have hfold (expected : Word) (is : List ℕ) (st : ItpState σ) :
      Keeps flags st.dev (is.foldl (itpResultChip b expected) st).dev := by
    induction is generalizing st with
    | nil => exact keeps_of_plain (plain_of_eq rfl)
    | cons i is ih => exact (itpResultChip_keeps hdoc expected st i).trans (ih _)
  exact hfold _ (List.range n) ⟨s.dev, s.itpResult, b.stale s.dev.env⟩

omit hdoc in
theorem itpTask_keeps (s : Fw σ) (p : Pkg) (n : ℕ) : Keeps flags s.dev (itpTask b s p n).dev := by
  have hfold (task : List Byte) (is : List ℕ) (d : Dev σ) :
      Keeps flags d (is.foldl (fun d i =>
        be200Start b (be200InputTask b (be200CmdRd b d i be200RegClear).1 i task).1 i) d) := by
    induction is generalizing d with
    | nil => exact keeps_of_plain (plain_of_eq rfl)
    | cons i is ih => exact (load_keeps b d i task).trans (ih _)
  unfold itpTask
  split
  · exact keeps_of_plain (plain_of_eq rfl)
  · split
    · exact (keeps_of_plain (freqWriteAll_plain b s.dev n _)).trans (hfold _ (List.range n) _)
    · exact keeps_of_plain (plain_of_eq rfl)

theorem acceptPkg_keeps (s : Fw σ) (p : Pkg) : Keeps flags s.dev (acceptPkg b s p).dev := by
  have hsame (s' : Fw σ) (h : s'.dev.xfers = s.dev.xfers) : Keeps flags s.dev s'.dev :=
    keeps_of_plain (plain_of_eq h)
  unfold acceptPkg
  split
  case h_7 => exact hsame _ (be200Polling_xfers b s)
  case h_9 => exact keeps_of_plain (handleSet_plain b s p)
  case h_12 => exact itpTask_keeps s p 80
  case h_13 => exact itpResultAll_keeps hdoc s 80
  case h_14 => exact itpTask_keeps s p 16
  case h_15 => exact itpResultAll_keeps hdoc s 16
  case h_17 => exact hsame _ (adjustFan_xfers ..)
  case h_18 => exact hsame _ (adjustFan_xfers ..)
  all_goals exact hsame _ rfl

theorem step_keeps (s : Fw σ) (e : Event) : Keeps flags s.dev (step b s e).dev := by
  cases e with
  | pkg p =>
    simp only [step, handlePkg]
    by_cases h : CrcOk p
    · rw [decodePkg_accept b s p h]
      exact (acceptPkg_keeps hdoc s p).trans (keeps_of_plain (plain_of_eq (reply_xfers b _ p)))
    · rw [decodePkg_reject b s p h]
      exact keeps_of_plain (plain_of_eq rfl)
  | loopHead => exact keeps_of_plain (plain_of_eq (wdgFeedSec_xfers ..))
  | loopCheck => exact keeps_of_plain (plain_of_eq (loopCheck_xfers b s))
  | dispatch idx => exact dispatch_keeps b s idx
  | readResult => exact readResult_keeps hdoc s

end documented

/-! ### Runs -/

def stepXfers (b : Board σ) (s : Fw σ) (e : Event) : List (Xfer σ) :=
  (step b s e).dev.xfers.take ((step b s e).dev.xfers.length - s.dev.xfers.length)

variable (flags) in
def EventCalm (b : Board σ) (s : Fw σ) (e : Event) : Prop := Calm flags (stepXfers b s e)

instance (b : Board σ) (s : Fw σ) (e : Event) : Decidable (EventCalm flags b s e) :=
  inferInstanceAs (Decidable (Calm _ _))

theorem step_noDiscard {b : Board σ} (hdoc : Documented b flags) (s : Fw σ) (e : Event)
    (hcalm : EventCalm flags b s e) (h : NoDiscard flags s.dev.xfers) :
    NoDiscard flags (step b s e).dev.xfers := by
  obtain ⟨new, hnew, hkeep⟩ := step_keeps hdoc s e
  have htake : stepXfers b s e = new := by
    rw [stepXfers, hnew, List.length_append, Nat.add_sub_cancel, List.take_left]
  exact hkeep (htake ▸ hcalm) h

theorem start_noDiscard (b : Board σ) (env : σ) : NoDiscard flags (start b env).dev.xfers := by
  obtain ⟨new, hnew, hplain⟩ := start_plain b env
  rw [hnew]
  exact noDiscard_plain new _ hplain trivial

/-- **No nonce is discarded unread** in every run in which the chips are calm. -/
theorem no_discard (b : Board σ) (flags : σ → ℕ → BitVec 4) (hdoc : Documented b flags)
    (env : σ) (es : List Event) (hes : Run.Meets (step b) (EventCalm flags b) (start b env) es) :
    NoDiscard flags (Run.run (step b) (start b env) es).dev.xfers :=
  Run.run_invariant (step b) (EventCalm flags b) (fun s => NoDiscard flags s.dev.xfers)
    (fun s e he hs => step_noDiscard hdoc s e he hs) (start b env) es hes (start_noDiscard b env)

end flags

/-! ### A board with one chip that finds a nonce

The state of the board is that of chip 0: 0 while it waits for work, then one more at each status
check. From `late` on it flags a nonce and may be written to at the same time. -/

def chipStatus (late n : ℕ) : Byte := if n = 0 then 0x01 else if n < late then 0x00 else 0x07

def chipNext (late n : ℕ) (sent : List Byte) : ℕ :=
  if sent.head? = some be200CmdCheck then (if n = 0 then 0 else n + 1)
  else if sent.head? = some (be200CmdReadReg be200RegClear) then (if n < late then n else 0)
  else if sent.head? = some (be200CmdWriteReg be200RegStart) then (if n < late then 1 else n)
  else n

def chipBoard (late : ℕ) : Board ℕ where
  spi := fun n idx sent => if idx = 0 then (chipNext late n sent, fun _ => chipStatus late n)
    else (n, fun _ => 0)
  readl := fun n _ => (n, 0xffffffff)
  writel := fun n _ _ => n
  twiRead2byte := fun n => (n, 0)
  stale := fun _ => 0
  mmVersion := stillVersion
  mmVersion_length := stillVersion_length

def chipFlags (late n idx : ℕ) : BitVec 4 := if idx = 0 ∧ late ≤ n then 1 else 0

theorem chipNext_late (late n : ℕ) (hlate : 0 < late) (h : late ≤ n) (sent : List Byte)
    (hsent : sent.head? ≠ some (be200CmdReadReg be200RegClear)) : late ≤ chipNext late n sent := by
  rw [chipNext, if_neg hsent]
  split
  · rw [if_neg (by omega)]
    omega
  · rw [if_neg (by omega : ¬n < late), ite_self]
    exact h

theorem chipBoard_documented (late : ℕ) (hlate : 0 < late) :
    Documented (chipBoard late) (chipFlags late) where
  shown := fun n idx sent _ => by
    simp only [chipBoard, chipFlags]
    by_cases hidx : idx = 0
    · by_cases hn : late ≤ n
      · rw [if_pos hidx, if_pos ⟨hidx, hn⟩]
        simp only [chipStatus]
        rw [if_neg (by omega), if_neg (by omega)]
        decide
      · rw [if_pos hidx, if_neg (by omega)]
        simp only [chipStatus]
        split
        · decide
        · rw [if_pos (by omega)]
          decide
    · rw [if_neg hidx, if_neg (by omega)]
      exact (by decide : shownMask 0 = (0 : BitVec 4).setWidth 8)
  kept := fun n idx sent chip k hsent hflag => by
    simp only [chipFlags] at hflag ⊢
    by_cases hn : chip = 0 ∧ late ≤ n
    · rw [if_pos hn] at hflag
      have hlater : late ≤ ((chipBoard late).spi n idx sent).1 := by
        simp only [chipBoard]
        split
        · rename_i hidx
          exact chipNext_late late n hlate hn.2 sent (hsent (by omega))
        · exact hn.2
      rw [if_pos ⟨hn.1, hlater⟩]
      exact hflag
    · rw [if_neg hn] at hflag
      simp at hflag

def oneRun : List Event :=
  [.pkg (staticPkg [8, 0, 4, 36, 0, 1, 1]), .pkg (setPkg [500, 280, 0, 0x1000]), .dispatch 0,
    .pkg (hostPkg .itpResult 1 1 [])]

theorem oneRun_calm :
    Run.Meets (step (chipBoard 2)) (EventCalm (chipFlags 2) (chipBoard 2))
      (start (chipBoard 2) 0) oneRun := by
  decide +kernel

attribute [local irreducible] NoDiscard

theorem no_discard_oneRun :
    NoDiscard (chipFlags 2)
      (Run.run (step (chipBoard 2)) (start (chipBoard 2) 0) oneRun).dev.xfers :=
  no_discard (chipBoard 2) (chipFlags 2) (chipBoard_documented 2 (by decide)) 0 oneRun oneRun_calm

def twoPasses : List Label :=
  [.go, .frame (staticPkg [60, 0, 4, 36, 0, 1, 1]), .frame (setPkg [500, 280, 0, 0x1000])] ++
    List.replicate 86 .go

theorem twoPasses_discard : ¬NoDiscard (chipFlags 3)
    (Run.run (mainStep (chipBoard 3)) (Main.init (chipBoard 3) 0) twoPasses).fw.dev.xfers := by
  decide +kernel

/-- Chip 0 finds a nonce after the result pass; the dispatch loop finds it ready for work and clears
it. -/
theorem found_nonce_lost : Documented (chipBoard 3) (chipFlags 3) ∧
    ¬NoDiscard (chipFlags 3)
      (Run.run (mainStep (chipBoard 3)) (Main.init (chipBoard 3) 0) twoPasses).fw.dev.xfers :=
  ⟨chipBoard_documented 3 (by decide), twoPasses_discard⟩

end HashRatio.Unread
