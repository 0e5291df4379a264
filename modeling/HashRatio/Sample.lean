import HashRatio.Generation
import HashRatio.MainLoop

/-!
# A job with a known nonce

The first block of the chain as the host sends it, on a board whose chips flag
its nonce. The four zero bytes after the coinbase's version serve as nonce2.
-/

namespace HashRatio.Sample
open Bytes Memory MmWork Miner Job Protocol Drivers State Packets Results MainLoop Generation

def sampleCoinbase : List Word := [
  0x01000000, 0x01000000, 0x00000000, 0x00000000, 0x00000000, 0x00000000, 0x00000000,
    0x00000000, 0x00000000,
  0x00ffffff, 0xff4d04ff, 0xff001d01, 0x04455468, 0x65205469, 0x6d657320, 0x30332f4a,
    0x616e2f32, 0x30303920,
  0x4368616e, 0x63656c6c, 0x6f72206f, 0x6e206272, 0x696e6b20, 0x6f662073, 0x65636f6e,
    0x64206261, 0x696c6f75,
  0x7420666f, 0x72206261, 0x6e6b73ff, 0xffffff01, 0x00f2052a, 0x01000000, 0x43410467,
    0x8afdb0fe, 0x55482719,
  0x67f1a671, 0x30b7105c, 0xd6a828e0, 0x3909a679, 0x62e0ea1f, 0x61deb649, 0xf6bc3f4c,
    0xef38c4f3, 0x5504e51e,
  0xc112de5c, 0x384df7ba, 0x0b8d578a, 0x4c702b6b, 0xf11d5fac, 0x00000000]

/-- The header with its words swapped, place holders for the merkle root and the nonce. -/
def sampleHeader : List Word :=
  [0x00000001] ++ List.replicate 16 0 ++ [0x495fab29, 0x1d00ffff, 0] ++ List.replicate 12 0

def sampleNonce : Word := 0x1dac2b7c

def fragment (ws : List Word) (k : ℕ) : List Byte := ofWords ((ws.drop (8 * k)).take 8)

/-- The packets of the job for a target. -/
def jobPackets (target : List Byte) : List Pkg :=
  [staticPkg [204, 5, 4, 36, 0, 1, 1], hostPkg .jobId 1 1 [1, 2, 3, 4],
    hostPkg .target 1 1 target] ++
      ((List.range 7).map fun k =>
        hostPkg .coinbase (BitVec.ofNat 8 (k + 1)) 7 (fragment sampleCoinbase k)) ++
    (List.range 4).map fun k => hostPkg .header (BitVec.ofNat 8 (k + 1)) 4 (fragment sampleHeader k)

def sampleJob (target : List Byte) : JobData where
  coinbase := ofWords sampleCoinbase
  nonce2Offset := 5
  merkleOffset := 36
  branches := []
  header := ofWords sampleHeader
  target := target
  jobId := [1, 2, 3, 4]
  poolNo := 1

/-- Chips that answer a check with `status` and hold `regs` in their first nonce register. -/
def foundBoard (status : ℕ → Byte) (regs : ℕ → Byte) : Board Unit :=
  {stillBoard 0 with
    spi := fun _ idx sent => ((), fun k =>
      if k = 2 then status idx
      else
        match (List.range 4).find? fun i => sent.head? = some (be200CmdReadReg (46 + i)) with
        | some i => regs i
        | none => 0)}

section board
variable (status regs : ℕ → Byte) (d : Dev Unit) (idx : ℕ)

theorem foundBoard_done : (be200GetDone (foundBoard status regs) d idx).2 =
    if status idx &&& be200StatRReady ≠ 0 then
      some ((status idx &&& be200StatNonceMask) >>> 2) else none := rfl

theorem foundBoard_result : (be200GetResult (foundBoard status regs) d idx 1).2 =
    some (nonceValue (regs 0) (regs 1) (regs 2) (regs 3)) := rfl

end board

/-! ### The nonce tested -/

def sampleHash : List Byte := Sha256.dsha256 (swapBuffer ((sampleJob []).work 0) sampleNonce)

theorem sampleHash_eq : sampleHash = ofWords
    [0x6fe28c0a, 0xb6f1b372, 0xc1a6a246, 0xae63f74f, 0x931e8365, 0xe15a089c,
      0x68d61900, 0x00000000] := by
  decide +kernel

theorem sampleJob_check (target : List Byte) :
    jobCheck (sampleJob target) 0 sampleNonce = fulltest sampleHash target := by
  have htop : wordAt sampleHash 7 = 0 := by
    rw [sampleHash_eq]
    decide
  have hcheck : jobCheck (sampleJob target) 0 sampleNonce =
      if wordAt sampleHash 7 ≠ 0 then .hw else fulltest sampleHash target := rfl
  rw [hcheck, if_neg (not_not_intro htop)]

/-! ### The job on the board -/

/-- The job is sent and its first work, with nonce2 0, given to chip 0. -/
def jobRun (target : List Byte) : List Event :=
  (jobPackets target).map .pkg ++ [.pkg (setPkg [500, 280, 0, 0xffffffff]), .dispatch 0]

def firstChip (idx : ℕ) : Byte := if idx = 0 then 7 else 0
def nonceBytes (i : ℕ) : Byte := ([0x7b, 0x2b, 0xac, 0x1d] : List Byte).getD i 0

def sampled (target : List Byte) : Fw Unit :=
  Run.run (step (foundBoard firstChip nonceBytes))
    (start (foundBoard firstChip nonceBytes) ()) (jobRun target)

end HashRatio.Sample
