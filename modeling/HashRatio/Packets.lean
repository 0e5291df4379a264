import HashRatio.Crc16
import HashRatio.State

/-!
# Packets in and out (main.c)

`encode_pkg`, `send_pkg`, `be200_polling`, `decode_pkg` and the reply `get_pkg`
sends for a packet that was accepted.
-/

namespace HashRatio.Packets
open Bytes Memory MmWork Protocol Crc16 Drivers State

variable {σ : Type}

/-! ### Encoding -/

/-- Low byte of the checksum first. -/
def putCrc (p : Pkg) : Pkg :=
  let crc := crc16 (pkgData p)
  pkgWrite p 37 [(crc &&& 0x00ff).setWidth 8, ((crc &&& 0xff00) >>> 8).setWidth 8]

def readTemps (b : Board σ) (d : Dev σ) : Dev σ × Word :=
  let t := readTemp b d
  let u := readTemp b t.1
  (u.1, t.2 <<< 16 ||| u.2)

def readFans (b : Board σ) (d : Dev σ) : Dev σ × Word :=
  let t := readFan0 b d
  let u := readFan1 b t.1
  (u.1, t.2 <<< 16 ||| u.2)

def encodePkg (b : Board σ) (s : Fw σ) (type : Byte) (buf : List Byte)
    (idx cnt : Byte) : Fw σ × Pkg :=
  let p : Pkg := pkgWrite (fun _ => 0) 0 [hrtoH1, hrtoH2, type, idx, cnt]
  match PkgType.ofByte type with
  | some .ackdetect | some .nonce | some .testRet | some .getFreq => (s, putCrc (pkgWrite p 5 buf))
  | some .status =>
    let t := readTemps b s.dev
    let f := readFans b t.1
    let data := wordBytes t.2 ++ wordBytes f.2 ++ wordBytes s.localWork ++ wordBytes s.hwWork
    ({s with dev := f.1}, putCrc (pkgWrite p 5 data))
  | _ => (s, putCrc p)

def sendPkg (b : Board σ) (s : Fw σ) (type : PkgType) (buf : List Byte) (idx cnt : Byte) : Fw σ :=
  let r := encodePkg b s type.code buf idx cnt
  {r.1 with tx := r.1.tx ++ [.frame r.2]}

def nonceData (works : Mem Byte) (data : Be200Result) : List Byte :=
  let mw := slotAddr data.mmIdx
  wordBytes (BitVec.ofNat 32 data.idx) ++ wordBytes (poolNo works mw) ++ wordBytes data.nonce2 ++
    wordBytes data.nonce ++ read works (mw + Field.jobId.off) 4 ++ List.replicate 12 0

def be200Polling (b : Board σ) (s : Fw σ) : Fw σ :=
  match s.jobs.pop with
  | none => {sendPkg b s .status [] 1 1 with localWork := 0, hwWork := 0}
  | some (jobs, data) => sendPkg b {s with jobs := jobs} .nonce (nonceData s.jobs.works data) 1 1

/-! ### Decoding -/

def expectedCrc (p : Pkg) : Word :=
  ((p 38).setWidth 32 &&& 0xff) ||| (((p 37).setWidth 32 &&& 0xff) <<< 8)

def actualCrc (p : Pkg) : Word := (crc16 (pkgData p)).setWidth 32

def storePkg (s : Fw σ) (f : Mem Byte → ℤ → Mem Byte) : Fw σ := {s with jobs := s.jobs.store f}

def idleTime : Byte := 60

def handleSet (b : Board σ) (s : Fw σ) (p : Pkg) : Fw σ :=
  let d := timerSet b s.dev 0 idleTime
  let d := adjustFan b d (dataWord p 0).toInt
  let tmp := dataWord p 1
  let change := 100 < tmp.toNat ∧ tmp.toNat ≤ 750 ∧ tmp ≠ s.asicFreq
  let d :=
    if change then freqWriteAll b d hrtoDefaultMiners (BitVec.ofNat 8 (tmp.toNat / 10 - 1)) else d
  {s with
    dev := ledBlink b d 0x20
    asicFreq := if change then tmp else s.asicFreq
    nonce2Offset := dataWord p 2
    nonce2Range := dataWord p 3
    jobs := s.jobs.set (dataWord p 2) (dataWord p 3)
    newStratum := true}

def itpCopy (itp : ℕ → Byte) (off : ℕ) (p : Pkg) : ℕ → Byte :=
  fun i => if off ≤ i ∧ i < off + 24 then (pkgData p).getD (1 + (i - off)) 0 else itp i

/-- HRTO_P_ITP_TASK on 80 chips and HRTO_P_ITP_SINGLE_TASK on 16. -/
def itpTask (b : Board σ) (s : Fw σ) (p : Pkg) (n : ℕ) : Fw σ :=
  if pkgIdx p = 1 then {s with itpData := itpCopy s.itpData 0 p}
  else if pkgIdx p = 2 then
    let itp := itpCopy s.itpData 24 p
    let d := freqWriteAll b s.dev n (BitVec.ofNat 8 (be200DefaultFreq / 10 - 1))
    let d := (List.range n).foldl (fun d i =>
      let d := (be200CmdRd b d i be200RegClear).1
      let d := (be200InputTask b d i ((List.range 48).map itp)).1
      be200Start b d i) d
    {s with itpData := itp, dev := d}
  else s

structure ItpState (σ : Type) where
  dev : Dev σ
  result : ℕ → Byte
  actualNonce : Word

def itpResultChip (b : Board σ) (expectedNonce : Word) (st : ItpState σ) (i : ℕ) : ItpState σ :=
  let r := be200GetDone b st.dev i
  match r.2 with
  | none => {st with dev := r.1, result := fun k => if k = i then 0x4E else st.result k}
  | some mask =>
    let g := be200GetResult b r.1 i mask
    -- without a mask bit `actual_nonce` is what the chip before left
    let actual := g.2.getD st.actualNonce
    let d := (be200CmdRd b g.1 i be200RegClear).1
    let diff := (actual - expectedNonce).toInt
    ⟨d, fun k => if k = i then (if -4 ≤ diff ∧ diff ≤ 4 then 0x52 else 0x45) else st.result k, 0⟩

def itpResultAll (b : Board σ) (s : Fw σ) (n : ℕ) : Fw σ :=
  let expected := wordAt ((List.range 48).map s.itpData) 11
  let st := (List.range n).foldl (itpResultChip b expected) ⟨s.dev, s.itpResult, b.stale s.dev.env⟩
  {s with dev := st.dev, itpResult := st.result, tx := s.tx ++ [.raw
    ((List.range n).map st.result)]}

def acceptPkg (b : Board σ) (s : Fw σ) (p : Pkg) : Fw σ :=
  match pkgType p with
  | some .detect => {s with newStratum := false}
  | some .static => storePkg s (storeStatic p)
  | some .jobId => storePkg s (storeJobId p)
  | some .coinbase => storePkg s (storeCoinbase p)
  | some .merkles => storePkg s (storeMerkles p)
  | some .header => storePkg s (storeHeader p)
  | some .polling => be200Polling b s
  | some .require => s
  | some .set => handleSet b s p
  | some .target => storePkg s (storeTarget p)
  | some .test => s
  | some .itpTask => itpTask b s p 80
  | some .itpResult => itpResultAll b s 80
  | some .itpSingleTask => itpTask b s p 16
  | some .itpSingleResult => itpResultAll b s 16
  | some .itpSync => {s with tx := s.tx ++ [.raw [0x48, 0x52, 0x54, 0x4F]]}
  | some .itpEnter => {s with dev := adjustFan b s.dev 1000}
  | some .itpExit => {s with dev := adjustFan b s.dev 200}
  | _ => s

/-- `decode_pkg`; the flag is its return value. -/
def decodePkg (b : Board σ) (s : Fw σ) (p : Pkg) : Fw σ × Bool :=
  if expectedCrc p ≠ actualCrc p then (s, true) else (acceptPkg b s p, false)

/-- The `switch` of `get_pkg` after a packet was accepted. -/
def reply (b : Board σ) (s : Fw σ) (p : Pkg) : Fw σ :=
  match pkgType p with
  | some .detect => sendPkg b s .ackdetect b.mmVersion 1 1
  | some .require => sendPkg b s .status [] 1 1
  | _ => s

/-- What `get_pkg` does with a complete packet; the flag says that it returns 1. -/
def handlePkg (b : Board σ) (s : Fw σ) (p : Pkg) : Fw σ × Bool :=
  let r := decodePkg b s p
  if r.2 then r else (reply b r.1 p, false)

/-! ### What a packet does to jobs and to the output -/

def CrcOk (p : Pkg) : Prop := expectedCrc p = actualCrc p

instance (p : Pkg) : Decidable (CrcOk p) := inferInstanceAs (Decidable (_ = _))

theorem crcOk_iff (p : Pkg) : CrcOk p ↔ p 37 ++ p 38 = crc16 (pkgData p) := by
  have hword : expectedCrc p = (p 37 ++ p 38 : BitVec 16).setWidth 32 := by
    apply BitVec.eq_of_getLsbD_eq
    intro i hi
    simp only [expectedCrc, BitVec.getLsbD_or, BitVec.getLsbD_and, BitVec.getLsbD_shiftLeft,
      BitVec.getLsbD_setWidth, BitVec.getLsbD_append]
    interval_cases i <;> simp
  rw [CrcOk, hword, actualCrc]
  constructor
  · intro h
    have hcut := congrArg (BitVec.setWidth 16) h
    simpa using hcut
  · intro h
    rw [h]

/-- A packet as a host frames it: DATA filled up to 32 bytes, the checksum high byte first. -/
def hostPkg (type : PkgType) (idx cnt : Byte) (data : List Byte) : Pkg :=
  let p := pkgWrite (fun _ => 0) 0 ([hrtoH1, hrtoH2, type.code, idx, cnt] ++ data)
  let crc := crc16 (pkgData p)
  pkgWrite p 37 [(crc >>> 8).setWidth 8, crc.setWidth 8]

def staticPkg (ws : List Word) : Pkg := hostPkg .static 1 1 (ofWords ws)
def setPkg (ws : List Word) : Pkg := hostPkg .set 1 1 (ofWords ws)

theorem hostPkg_data (type : PkgType) (idx cnt : Byte) (data : List Byte) :
    pkgData (hostPkg type idx cnt data) =
      pkgData (pkgWrite (fun _ => 0) 0 ([hrtoH1, hrtoH2, type.code, idx, cnt] ++ data)) :=
  pkgData_congr _ _ fun i _ h2 => pkgWrite_out _ 37 _ i (Or.inl h2)

theorem hostPkg_crcOk (type : PkgType) (idx cnt : Byte) (data : List Byte) :
    CrcOk (hostPkg type idx cnt data) := by
  rw [crcOk_iff, hostPkg_data]
  generalize hp : pkgWrite (fun _ => 0) 0 ([hrtoH1, hrtoH2, type.code, idx, cnt] ++ data) = p
  have h37 : hostPkg type idx cnt data 37 = (crc16 (pkgData p) >>> 8).setWidth 8 := by
    rw [← hp]
    rfl
  have h38 : hostPkg type idx cnt data 38 = (crc16 (pkgData p)).setWidth 8 := by
    rw [← hp]
    rfl
  rw [h37, h38]
  exact halves_append (crc16 (pkgData p))

@[simp] theorem hostPkg_type (type : PkgType) (idx cnt : Byte) (data : List Byte) :
    pkgType (hostPkg type idx cnt data) = some type := PkgType.ofByte_code type

theorem decodePkg_accept (b : Board σ) (s : Fw σ) (p : Pkg) (h : CrcOk p) :
    decodePkg b s p = (acceptPkg b s p, false) :=
  if_neg (not_not_intro h)

theorem decodePkg_reject (b : Board σ) (s : Fw σ) (p : Pkg) (h : ¬CrcOk p) :
    decodePkg b s p = (s, true) :=
  if_pos h

def acceptOp (p : Pkg) : JobOp :=
  match pkgType p with
  | some .set => .set (dataWord p 2) (dataWord p 3)
  | some .polling => .pop
  | _ => .store p

theorem encodePkg_jobs (b : Board σ) (s : Fw σ) (type : Byte) (buf : List Byte) (idx cnt : Byte) :
    (encodePkg b s type buf idx cnt).1.jobs = s.jobs := by
  unfold encodePkg
  split <;> rfl

theorem encodePkg_tx (b : Board σ) (s : Fw σ) (type : Byte) (buf : List Byte) (idx cnt : Byte) :
    (encodePkg b s type buf idx cnt).1.tx = s.tx := by
  unfold encodePkg
  split <;> rfl

@[simp] theorem sendPkg_jobs (b : Board σ) (s : Fw σ) (type : PkgType) (buf : List Byte)
    (idx cnt : Byte) :
    (sendPkg b s type buf idx cnt).jobs = s.jobs := encodePkg_jobs b s type.code buf idx cnt

theorem sendPkg_tx (b : Board σ) (s : Fw σ) (type : PkgType) (buf : List Byte) (idx cnt : Byte) :
    (sendPkg b s type buf idx cnt).tx =
      s.tx ++ [.frame (encodePkg b s type.code buf idx cnt).2] := by
  rw [sendPkg, encodePkg_tx]

theorem be200Polling_jobs (b : Board σ) (s : Fw σ) :
    (be200Polling b s).jobs = s.jobs.apply .pop := by
  unfold be200Polling
  cases hpop : s.jobs.pop with
  | none => simp [Jobs.apply, hpop]
  | some r => simp [Jobs.apply, hpop]

theorem store_none (j : Jobs) (p : Pkg) (h : ∀ m mw, pkgStore p m mw = m) :
    j.store (pkgStore p) = j := by
  rw [Jobs.store, h]

theorem itpTask_jobs (b : Board σ) (s : Fw σ) (p : Pkg) (n : ℕ) :
    (itpTask b s p n).jobs = s.jobs := by
  unfold itpTask
  split
  · rfl
  · split <;> rfl

/-- An accepted packet is one operation on the jobs. -/
theorem acceptPkg_jobs (b : Board σ) (s : Fw σ) (p : Pkg) :
    (acceptPkg b s p).jobs = s.jobs.apply (acceptOp p) := by
  unfold acceptPkg acceptOp
  cases ht : pkgType p with
  | none => exact (store_none _ _ fun m mw => by simp [pkgStore, ht]).symm
  | some t =>
    have hid (hs : ∀ m mw, pkgStore p m mw = m) : s.jobs = s.jobs.apply (.store p) :=
      (store_none _ _ hs).symm
    cases t <;>
      first
      | exact be200Polling_jobs b s
      | (simp only [Jobs.apply, storePkg, pkgStore, ht]; done)
      | rfl
      | (simp only [itpTask_jobs]; exact hid fun m mw => by simp [pkgStore, ht])

@[simp] theorem reply_jobs (b : Board σ) (s : Fw σ) (p : Pkg) : (reply b s p).jobs = s.jobs := by
  unfold reply
  split <;> simp

theorem handlePkg_jobs (b : Board σ) (s : Fw σ) (p : Pkg) :
    (handlePkg b s p).1.jobs = if CrcOk p then s.jobs.apply (acceptOp p) else s.jobs := by
  unfold handlePkg
  by_cases h : CrcOk p
  · rw [decodePkg_accept b s p h, if_pos h]
    simp only [Bool.false_eq_true, if_false, reply_jobs, acceptPkg_jobs]
  · rw [decodePkg_reject b s p h, if_neg h]
    rfl

/-! ### When mining is on -/

@[simp] theorem sendPkg_newStratum (b : Board σ) (s : Fw σ) (type : PkgType) (buf : List Byte)
    (idx cnt : Byte) :
    (sendPkg b s type buf idx cnt).newStratum = s.newStratum := by
  simp only [sendPkg, encodePkg]
  split <;> rfl

@[simp] theorem reply_newStratum (b : Board σ) (s : Fw σ) (p : Pkg) :
    (reply b s p).newStratum = s.newStratum := by
  unfold reply
  split <;> simp

theorem be200Polling_newStratum (b : Board σ) (s : Fw σ) :
    (be200Polling b s).newStratum = s.newStratum := by
  unfold be200Polling
  split <;> simp

theorem itpTask_newStratum (b : Board σ) (s : Fw σ) (p : Pkg) (n : ℕ) :
    (itpTask b s p n).newStratum = s.newStratum := by
  unfold itpTask
  split
  · rfl
  · split <;> rfl

theorem acceptPkg_newStratum (b : Board σ) (s : Fw σ) (p : Pkg)
    (h : (acceptPkg b s p).newStratum = true) :
    s.newStratum = true ∨ pkgType p = some .set := by
  by_cases hset : pkgType p = some .set
  · exact Or.inr hset
  · left
    unfold acceptPkg at h
    split at h
    case h_1 => cases h
    case h_7 => exact be200Polling_newStratum b s ▸ h
    case h_9 ht => exact absurd ht hset
    case h_12 => exact itpTask_newStratum b s p 80 ▸ h
    case h_14 => exact itpTask_newStratum b s p 16 ▸ h
    all_goals exact h

theorem handlePkg_newStratum (b : Board σ) (s : Fw σ) (p : Pkg)
    (h : (handlePkg b s p).1.newStratum = true) :
    s.newStratum = true ∨ CrcOk p ∧ pkgType p = some .set := by
  unfold handlePkg at h
  by_cases hcrc : CrcOk p
  · rw [decodePkg_accept b s p hcrc] at h
    simp only [Bool.false_eq_true, if_false, reply_newStratum] at h
    exact (acceptPkg_newStratum b s p h).imp_right fun ht => ⟨hcrc, ht⟩
  · rw [decodePkg_reject b s p hcrc] at h
    exact Or.inl h

end HashRatio.Packets
