import HashRatio.Printf

/-!
# Debug output

`debug32` formats into `printf_buf32`, 32 bytes, and DEBUG is on. What each call
writes is the length of its text and of its numbers; of the calls in `decode_pkg`,
`be200_polling`, `be200_read_result` and `test_nonce` many never fit.
-/

namespace HashRatio.Debug
open Bytes Printf

/-! ### The calls -/

/-- The calls of `debug32` with what they print; `setFreq` is reached under its test only. -/
inductive Call where
  | polling (idx : Byte) (poolNo mmIdx nonce2 nonce : Word)
  | crcFailed (expectedCrc actualCrc : Word)
  | static (newStratum coinbaseLen nonce2Offset nonce2Size merkleOffset nmerkles diff poolNo : Word)
  | jobId (jobId : List Char)
  | coinbase (idx cnt : Byte)
  | merkles (idx cnt : Byte)
  | header (idx cnt : Byte)
  | setFreq (tmp : Word) (h : 100 < tmp.toNat ∧ tmp.toNat ≤ 750)
  | set (idx cnt : Byte)
  | itpTask
  | itpResult
  | chipReady (chipIdx ready : Byte)
  | chipResult (result : Byte)
  | nonces (actualNonce expectedNonce : Word)
  | itpSingleTask
  | itpSingleResult
  | itpSync
  | itpEnter
  | itpExit
  | chipNonce (idx : Byte) (nonce mmIdx : Word)
  | readResult (localWork : Word) (idx : Byte) (mmIdx nonce2 nonce totalNonce : Word)
  | invalidNonce
  | resetChips
  | test (nonce2 nonce : Word)

namespace Call

def format : Call → String
  | polling .. => "polling, miner: %02x, pool_no: %02x, mm_idx: %02x, nonce2: %08x, nonce: %08x\n"
  | crcFailed .. => "PKG: CRC failed (W %08x, R %08x)\n"
  | static .. => "HRTO_P_STATIC: (%d):  coinbase_len: %d, nonce2_offset: %d, nonce2_size: %d, " ++
      "merkle_offset: %d, nmerkles: %d, diff: %d, pool_no: %d\n"
  | jobId .. => "HRTO_P_JOB_ID: job_id: %s\n"
  | coinbase .. => "HRTO_P_COINBASE: idx: %d, cnt: %d\n"
  | merkles .. => "HRTO_P_MERKLES: idx: %d, cnt: %d\n"
  | header .. => "HRTO_P_HEADER: idx: %d, cnt: %d\n"
  | setFreq .. => "set freq: %d, multi: %d"
  | set .. => "HRTO_P_SET: idx: %d, cnt: %d\n"
  | itpTask => "HROT_P_ITP_TASK\n"
  | itpResult => "HROT_P_ITP_RESULT\n"
  | chipReady .. => "chip%02d ready=%d "
  | chipResult .. => "result=%c\n"
  | nonces .. => "a_nonce:%08x e_nonce:%08x\n"
  | itpSingleTask => "HROT_P_ITP_SINGLE_TASK\n"
  | itpSingleResult => "HROT_P_ITP_SINGLE_RESULT\n"
  | itpSync => "HRTO_P_ITP_SYNC\n"
  | itpEnter => "HRTO_P_ITP_ENTER\n"
  | itpExit => "HRTO_P_ITP_EXIT\n"
  | chipNonce .. => "chip idx: %d, nonce: %08x, mm_idx: %02x\n"
  | readResult .. => "be200_read_result, g_local_work: %d, miner: %d, " ++
      "mm_idx: %02x, nonce2: %08x, nonce: %08x, total:%d\n"
  | invalidNonce => "========= invalid nonce =========\n"
  | resetChips => "Reset all chips.\n"
  | test .. => "Test: %08x %08x\n"

def byteArg (b : Byte) : Arg := .int (b.setWidth 32)

def args : Call → List Arg
  | polling idx poolNo mmIdx nonce2 nonce =>
    [byteArg idx, .int poolNo, .int mmIdx, .int nonce2, .int nonce]
  | crcFailed expectedCrc actualCrc => [.int expectedCrc, .int actualCrc]
  | static newStratum coinbaseLen nonce2Offset nonce2Size merkleOffset nmerkles diff poolNo =>
    [.int newStratum, .int coinbaseLen, .int nonce2Offset, .int nonce2Size, .int merkleOffset,
      .int nmerkles, .int diff, .int poolNo]
  | jobId s => [.str (some s)]
  | coinbase idx cnt | merkles idx cnt | header idx cnt | set idx cnt => [byteArg idx, byteArg cnt]
  | setFreq tmp _ => [.int tmp, .int (tmp / 10 - 1)]
  | chipReady chipIdx ready => [byteArg chipIdx, byteArg ready]
  | chipResult result => [byteArg result]
  | nonces actualNonce expectedNonce => [.int actualNonce, .int expectedNonce]
  | chipNonce idx nonce mmIdx => [byteArg idx, .int nonce, .int mmIdx]
  | readResult localWork idx mmIdx nonce2 nonce totalNonce =>
    [.int localWork, byteArg idx, .int mmIdx, .int nonce2, .int nonce, .int totalNonce]
  | test nonce2 nonce => [.int nonce2, .int nonce]
  | _ => []

def printed (c : Call) : Option (List Char) := mSprintf c.format c.args

end Call

def printfBuf32Len : ℕ := 32

def Call.InBuffer (c : Call) : Prop := ∃ out, c.printed = some out ∧ out.length ≤ printfBuf32Len

/-- What the arguments have to be for the call to fit; most calls do not depend on them. -/
def Fits : Call → Prop
  | .jobId s => s.length ≤ 7
  | .merkles idx cnt => idx.toNat < 10 ∧ cnt.toNat < 10
  | .header idx cnt => idx.toNat < 10 ∧ cnt.toNat < 100 ∨ idx.toNat < 100 ∧ cnt.toNat < 10
  | .polling .. | .crcFailed .. | .static .. | .coinbase .. | .nonces .. | .chipNonce
    .. | .readResult ..
  | .invalidNonce => False
  | _ => True

instance (c : Call) : Decidable (Fits c) := by
  cases c <;> simp only [Fits] <;> infer_instance

/-! ### Numbers -/

def decBytes (width : ℕ) (i : Word) : ℕ := max (intLength i 10 true) width
def hexBytes (width : ℕ) (i : Word) : ℕ := max (intLength i 16 false) width
def charBytes (i : Word) : ℕ := if (Char.ofNat (i.setWidth 8).toNat).toNat = 0 then 0 else 1

section numbers
variable (pad : Pad) (width : ℕ) (convs : List (Char × Pad × ℕ)) (i : Word) (rest : List Arg)

theorem convLength_d : convLength (('d', pad, width) :: convs) (.int i :: rest) =
    (convLength convs rest).map fun n => decBytes width i + n := by
  rw [convLength,
    show convert 'd' pad width (.int i :: rest) =
      some (printi i 10 true width pad 'a', rest) from rfl,
    Option.bind_some, printi_length i 10 (Nat.le_refl 10), decBytes]

theorem convLength_x : convLength (('x', pad, width) :: convs) (.int i :: rest) =
    (convLength convs rest).map fun n => hexBytes width i + n := by
  rw [convLength,
    show convert 'x' pad width (.int i :: rest) =
      some (printi i 16 false width pad 'a', rest) from rfl,
    Option.bind_some, printi_length i 16 (by decide), hexBytes]

theorem convLength_s (s : List Char) :
    convLength (('s', pad, width) :: convs) (.str (some s) :: rest) =
    (convLength convs rest).map fun n => max s.length width + n := by
  rw [convLength,
    show convert 's' pad width (.str (some s) :: rest) = some (prints s width pad, rest) from rfl,
    Option.bind_some, prints_length]

theorem convLength_c : convLength (('c', pad, 0) :: convs) (.int i :: rest) =
    (convLength convs rest).map fun n => charBytes i + n := by
  have hlength :
      (prints
        (if (Char.ofNat (i.setWidth 8).toNat).toNat = 0 then []
          else [Char.ofNat (i.setWidth 8).toNat])
      0 pad).length = charBytes i := by
    rw [prints_length, Nat.max_zero, charBytes]
    split <;> rfl
  rw [convLength, ← hlength]
  rfl

theorem convLength_nil : convLength [] rest = some 0 := rfl

end numbers

theorem decBytes_pos (width : ℕ) (i : Word) : 1 ≤ decBytes width i :=
  Nat.le_trans (intLength_pos i 10 true) (Nat.le_max_left _ _)

theorem decBytes_max (width : ℕ) (i : Word) : decBytes width i = max (decBytes 0 i) width := by
  rw [decBytes, decBytes, Nat.max_zero]

theorem hexBytes_word (i : Word) : hexBytes 8 i = 8 :=
  Nat.max_eq_right ((intLength_le_iff i 16 (by decide) false (Or.inl rfl) 8 (by decide)).mpr i.isLt)

theorem charBytes_le (i : Word) : charBytes i ≤ 1 := by
  rw [charBytes]
  split <;> decide

theorem decBytes_le_iff (i : Word) (h : i.toNat < 2 ^ 31) (k : ℕ) (hk : 0 < k) :
    decBytes 0 i ≤ k ↔ i.toNat < 10 ^ k := by
  rw [decBytes, Nat.max_zero]
  exact intLength_le_iff i 10 (by decide) true
    (Or.inr (by rw [BitVec.msb_eq_false_iff_two_mul_lt]; omega)) k hk

theorem byteWord (b : Byte) : (b.setWidth 32 : Word).toNat = b.toNat := by
  rw [BitVec.toNat_setWidth, Nat.mod_eq_of_lt]
  exact Nat.lt_trans b.isLt (by decide)

theorem byteBytes_le_iff (b : Byte) (k : ℕ) (hk : 0 < k) :
    decBytes 0 (b.setWidth 32) ≤ k ↔ b.toNat < 10 ^ k := by
  have hlt := b.isLt
  rw [decBytes_le_iff _ (by rw [byteWord]; omega) k hk, byteWord]

/-- One digit below 10, two below 100, three for the rest. -/
theorem byteBytes_cases (b : Byte) :
    decBytes 0 (b.setWidth 32) = 1 ∧ b.toNat < 10 ∨ decBytes 0 (b.setWidth 32) = 2 ∧
      10 ≤ b.toNat ∧ b.toNat < 100 ∨
      decBytes 0 (b.setWidth 32) = 3 ∧ 100 ≤ b.toNat := by
  have hlt := b.isLt
  have hpos := decBytes_pos 0 (b.setWidth 32)
  have hone := byteBytes_le_iff b 1 (by decide)
  have htwo := byteBytes_le_iff b 2 (by decide)
  have hthree := byteBytes_le_iff b 3 (by decide)
  omega

theorem multi_toNat (tmp : Word) (h : 10 ≤ tmp.toNat) :
    (tmp / 10 - 1).toNat = tmp.toNat / 10 - 1 := by
  rw [BitVec.toNat_sub_of_le, BitVec.toNat_udiv]
  · rfl
  · rw [BitVec.le_def, BitVec.toNat_udiv]
    change 1 ≤ tmp.toNat / 10
    omega

theorem freqBytes_le (tmp : Word) (h : 100 < tmp.toNat ∧ tmp.toNat ≤ 750) :
    decBytes 0 tmp ≤ 3 ∧ decBytes 0 (tmp / 10 - 1) ≤ 3 := by
  have hmulti := multi_toNat tmp (by omega)
  constructor
  · exact (decBytes_le_iff tmp (by omega) 3 (by decide)).mpr (by omega)
  · exact (decBytes_le_iff (tmp / 10 - 1) (by omega) 3 (by decide)).mpr (by omega)

/-! ### What each call writes -/

namespace Call

def zeros : Pad := ⟨false, true⟩

def conv (c : Char) : Char × Pad × ℕ := (c, Pad.none, 0)
def conv0 (width : ℕ) (c : Char) : Char × Pad × ℕ := (c, zeros, width)

def text : Call → ℕ
  | polling .. => 57
  | crcFailed .. => 25
  | static .. => 115
  | jobId .. => 24
  | coinbase .. => 30
  | merkles .. => 29
  | header .. => 28
  | setFreq .. => 19
  | set .. => 25
  | itpTask | itpSync | itpExit => 16
  | itpResult => 18
  | chipReady .. => 12
  | chipResult .. | test .. => 8
  | nonces .. => 18
  | itpSingleTask => 23
  | itpSingleResult => 25
  | itpEnter | resetChips => 17
  | chipNonce .. => 30
  | readResult .. => 80
  | invalidNonce => 34

def convs : Call → List (Char × Pad × ℕ)
  | polling .. => [conv0 2 'x', conv0 2 'x', conv0 2 'x', conv0 8 'x', conv0 8 'x']
  | crcFailed .. | nonces .. | test .. => [conv0 8 'x', conv0 8 'x']
  | static .. => List.replicate 8 (conv 'd')
  | jobId .. => [conv 's']
  | coinbase .. | merkles .. | header .. | setFreq .. | set .. => [conv 'd', conv 'd']
  | chipReady .. => [conv0 2 'd', conv 'd']
  | chipResult .. => [conv 'c']
  | chipNonce .. => [conv 'd', conv0 8 'x', conv0 2 'x']
  | readResult .. => [conv 'd', conv 'd', conv0 2 'x', conv0 8 'x', conv0 8 'x', conv 'd']
  | _ => []

def argBytes : Call → ℕ
  | polling idx poolNo mmIdx nonce2 nonce =>
    hexBytes 2 (idx.setWidth 32) +
      (hexBytes 2 poolNo + (hexBytes 2 mmIdx + (hexBytes 8 nonce2 + hexBytes 8 nonce)))
  | crcFailed u v | nonces u v | test u v => hexBytes 8 u + hexBytes 8 v
  | static newStratum coinbaseLen nonce2Offset nonce2Size merkleOffset nmerkles diff poolNo =>
    decBytes 0 newStratum +
      (decBytes 0 coinbaseLen + (decBytes 0 nonce2Offset + (decBytes 0 nonce2Size +
      (decBytes 0 merkleOffset + (decBytes 0 nmerkles + (decBytes 0 diff + decBytes 0 poolNo))))))
  | jobId s => s.length
  | coinbase idx cnt | merkles idx cnt | header idx cnt | set idx cnt =>
    decBytes 0 (idx.setWidth 32) + decBytes 0 (cnt.setWidth 32)
  | setFreq tmp _ => decBytes 0 tmp + decBytes 0 (tmp / 10 - 1)
  | chipReady chipIdx ready => decBytes 2 (chipIdx.setWidth 32) + decBytes 0 (ready.setWidth 32)
  | chipResult result => charBytes (result.setWidth 32)
  | chipNonce idx nonce mmIdx =>
    decBytes 0 (idx.setWidth 32) + (hexBytes 8 nonce + hexBytes 2 mmIdx)
  | readResult localWork idx mmIdx nonce2 nonce totalNonce =>
    decBytes 0 localWork + (decBytes 0 (idx.setWidth 32) + (hexBytes 2 mmIdx + (hexBytes 8 nonce2 +
      (hexBytes 8 nonce + decBytes 0 totalNonce))))
  | _ => 0

theorem format_parse (c : Call) :
    literals (parse c.format.toList .text) = c.text ∧
      conversions (parse c.format.toList .text) = c.convs := by
  cases c <;> (dsimp only [format, text, convs]; decide +kernel)

theorem args_length (c : Call) : convLength c.convs c.args = some c.argBytes := by
  cases c <;>
    simp only [convs, args, byteArg, argBytes, conv, conv0, List.replicate, convLength_d,
      convLength_x, convLength_s, convLength_c, convLength_nil, Option.map_some,
        Nat.add_zero, Nat.max_zero]

theorem printed_length (c : Call) : c.printed.map List.length = some (c.text + c.argBytes + 1) := by
  rw [printed, mSprintf_length, c.format_parse.1, c.format_parse.2, args_length, Option.map_some]

theorem inBuffer_iff (c : Call) : c.InBuffer ↔ c.text + c.argBytes < printfBuf32Len := by
  obtain ⟨out, hout, hlength⟩ := Option.map_eq_some_iff.mp c.printed_length
  rw [InBuffer, hout]
  constructor
  · rintro ⟨out', hout', hle⟩
    rw [← Option.some.inj hout', hlength] at hle
    exact hle
  · intro hlt
    exact ⟨out, rfl, by rw [hlength]; exact hlt⟩

theorem never (c : Call) (hfits : ¬Fits c) (h : printfBuf32Len ≤ c.text + c.argBytes) :
    c.InBuffer ↔ Fits c := by
  rw [inBuffer_iff]
  exact iff_of_false (Nat.not_lt.mpr h) hfits

theorem always (c : Call) (hfits : Fits c) (h : c.text + c.argBytes < printfBuf32Len) :
    c.InBuffer ↔ Fits c := by
  rw [inBuffer_iff]
  exact iff_of_true h hfits

end Call

/-- **Which calls stay inside `printf_buf32`, for every value of their arguments.** -/
theorem inBuffer_iff_fits (c : Call) : c.InBuffer ↔ Fits c := by
  cases c with
  | jobId s =>
    rw [Call.inBuffer_iff]
    simp only [Call.text, Call.argBytes, printfBuf32Len, Fits]
    omega
  | merkles idx cnt =>
    have hidx := byteBytes_cases idx
    have hcnt := byteBytes_cases cnt
    rw [Call.inBuffer_iff]
    simp only [Call.text, Call.argBytes, printfBuf32Len, Fits]
    omega
  | header idx cnt =>
    have hidx := byteBytes_cases idx
    have hcnt := byteBytes_cases cnt
    rw [Call.inBuffer_iff]
    simp only [Call.text, Call.argBytes, printfBuf32Len, Fits]
    omega
  | coinbase idx cnt =>
    have hidx := byteBytes_cases idx
    have hcnt := byteBytes_cases cnt
    refine Call.never _ id ?_
    simp only [Call.text, Call.argBytes, printfBuf32Len]
    omega
  | set idx cnt =>
    have hidx := byteBytes_cases idx
    have hcnt := byteBytes_cases cnt
    refine Call.always _ trivial ?_
    simp only [Call.text, Call.argBytes, printfBuf32Len]
    omega
  | setFreq tmp h =>
    have hfreq := freqBytes_le tmp h
    refine Call.always _ trivial ?_
    simp only [Call.text, Call.argBytes, printfBuf32Len]
    omega
  | chipReady chipIdx ready =>
    have hchip := byteBytes_cases chipIdx
    have hwidth := decBytes_max 2 (chipIdx.setWidth 32)
    have hready := byteBytes_cases ready
    refine Call.always _ trivial ?_
    simp only [Call.text, Call.argBytes, printfBuf32Len]
    omega
  | chipResult result =>
    have hresult := charBytes_le (result.setWidth 32)
    refine Call.always _ trivial ?_
    simp only [Call.text, Call.argBytes, printfBuf32Len]
    omega
  | test nonce2 nonce =>
    refine Call.always _ trivial ?_
    rw [Call.text, Call.argBytes, hexBytes_word, hexBytes_word]
    decide
  | crcFailed u v | nonces u v =>
    refine Call.never _ id ?_
    rw [Call.text, Call.argBytes, hexBytes_word, hexBytes_word]
    decide
  | chipNonce idx nonce mmIdx =>
    refine Call.never _ id ?_
    rw [Call.text, Call.argBytes, hexBytes_word, printfBuf32Len]
    omega
  | polling | static | readResult =>
    refine Call.never _ id ?_
    rw [Call.text]
    exact Nat.le_add_right_of_le (by decide)
  | invalidNonce => exact Call.never _ id (by decide)
  | itpTask | itpResult | itpSingleTask | itpSingleResult | itpSync | itpEnter | itpExit
  | resetChips =>
    exact Call.always _ trivial (by decide)

/-- `HRTO_P_COINBASE: idx: 1, cnt: 1` and its newline already end at byte 33. -/
theorem coinbase_overruns : ¬(Call.coinbase 1 1).InBuffer := by
  rw [Call.inBuffer_iff]
  decide +kernel

end HashRatio.Debug
