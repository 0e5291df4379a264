import HashRatio.Lib.Bytes

/-!
# The packet format (protocol.h, doc/protocol.md)

`|2B:HEAD|1B:TYPE|1B:IDX|1B:CNT|32B:DATA|2B:CRC|`, thirty-nine bytes. A packet is
an array of that size, as `g_pkg` and `g_act` are.
-/

namespace HashRatio.Protocol
open Bytes

def hrtoH1 : Byte := 0x48
def hrtoH2 : Byte := 0x52

/- HRTO_P_COUNT and HRTO_P_DATA_LEN. -/
def hrtoPCount : ℕ := 39
def hrtoPDataLen : ℕ := 32

instance pkgSize_neZero : NeZero 39 := ⟨by decide⟩

abbrev Pkg := Fin 39 → Byte

inductive PkgType where
  | detect | static | jobId | coinbase | merkles | header | polling | target | require | set | test
  | setFreq | getFreq | ack | nak | nonce | status | ackdetect | testRet
  | itpTask | itpResult | itpSync | itpEnter | itpExit | itpSingleTask | itpSingleResult
  deriving DecidableEq, Repr

def PkgType.code : PkgType → Byte
  | detect => 10
  | static => 11
  | jobId => 12
  | coinbase => 13
  | merkles => 14
  | header => 15
  | polling => 16
  | target => 17
  | require => 18
  | set => 19
  | test => 20
  | setFreq => 21
  | getFreq => 22
  | ack => 51
  | nak => 52
  | nonce => 53
  | status => 54
  | ackdetect => 55
  | testRet => 56
  | itpTask => 80
  | itpResult => 81
  | itpSync => 82
  | itpEnter => 83
  | itpExit => 84
  | itpSingleTask => 85
  | itpSingleResult => 86

def PkgType.all : List PkgType :=
  [detect, static, jobId, coinbase, merkles, header, polling, target, require, set, test, setFreq,
    getFreq, ack, nak, nonce, status, ackdetect, testRet, itpTask, itpResult, itpSync, itpEnter,
    itpExit, itpSingleTask, itpSingleResult]

/-- The case a `switch` on the TYPE byte takes; `none` is its default. -/
def PkgType.ofByte (b : Byte) : Option PkgType := all.find? fun t => t.code == b

@[simp] theorem PkgType.ofByte_code (t : PkgType) : PkgType.ofByte t.code = some t := by
  cases t <;> rfl

/-! ### Fields -/

/-- The type field, as `switch (p[2])` reads it. -/
def pkgType (p : Pkg) : Option PkgType := PkgType.ofByte (p 2)
def pkgIdx (p : Pkg) : ℕ := (p 3).toNat

def pkgData (p : Pkg) : List Byte := List.ofFn fun i : Fin 32 => p ⟨5 + i, by omega⟩

/-- `memcpy(&tmp, data + 4 * k, 4)`. -/
def dataWord (p : Pkg) (k : ℕ) : Word := wordAt (pkgData p) k

def dataBytes (p : Pkg) (k : ℕ) : List Byte := wordBytes (dataWord p k)

@[simp] theorem pkgData_length (p : Pkg) : (pkgData p).length = 32 := by simp [pkgData]

@[simp] theorem dataBytes_length (p : Pkg) (k : ℕ) : (dataBytes p k).length = 4 := rfl

def pkgWrite (p : Pkg) (off : ℕ) (bs : List Byte) : Pkg :=
  fun i => if off ≤ i.val then bs.getD (i.val - off) (p i) else p i

theorem pkgWrite_out (p : Pkg) (off : ℕ) (bs : List Byte) (i : Fin 39)
    (h : i.val < off ∨ off + bs.length ≤ i.val) : pkgWrite p off bs i = p i := by
  unfold pkgWrite
  split
  · exact List.getD_eq_default _ _ (by omega)
  · rfl

theorem pkgWrite_in (p : Pkg) (off : ℕ) (bs : List Byte) (i : Fin 39) (d : Byte)
    (h : off ≤ i.val) (hlt : i.val < off + bs.length) :
    pkgWrite p off bs i = bs.getD (i.val - off) d := by
  unfold pkgWrite
  rw [if_pos h, List.getD_eq_getElem _ _ (by omega), List.getD_eq_getElem _ _ (by omega)]

theorem pkgData_congr (p q : Pkg) (h : ∀ i : Fin 39, 5 ≤ i.val → i.val < 37 → p i = q i) :
    pkgData p = pkgData q := by
  unfold pkgData
  congr 1
  funext i
  exact h _ (by simp) (by simp; omega)

end HashRatio.Protocol
