import HashRatio.Lib.Bytes

/-!
# The board: SPI chips, fan, timers (spi.c, be200.c, twipwm.c, timer.c)

A board is whatever answers the bus. Its state changes on its own behind every
access, so chips may finish at any moment between two transfers. The drivers are
as in the source.
-/

namespace HashRatio.Drivers
open Bytes

inductive Reg where
  | pwm | wdg | fan0 | fan1 | timer | gpio
  deriving DecidableEq, Repr

/-- The bus seen from the firmware. `spi` selects a chip and exchanges bytes with it;
`twiRead2byte` reads the temperature sensor; `stale` is what an uninitialised local variable
holds; `mmVersion` are the MM_VERSION_LEN bytes of MM_VERSION that are sent. -/
structure Board (σ : Type) where
  spi : σ → ℕ → List Byte → σ × (ℕ → Byte)
  readl : σ → Reg → σ × Word
  writel : σ → Reg → Word → σ
  twiRead2byte : σ → σ × Word
  stale : σ → Word
  mmVersion : List Byte
  mmVersion_length : mmVersion.length = 15

/-- A transfer: the board before it, the chip and the bytes sent. -/
structure Xfer (σ : Type) where
  env : σ
  chip : ℕ
  sent : List Byte

/-- The board with the drivers' static data: `write_buffer` of be200.c and `value` of
`adjust_fan`. Ghost: `xfers`, the transfers made, newest first. -/
structure Dev (σ : Type) where
  env : σ
  writeBuffer : ℕ → Byte
  fanValue : ℤ
  xfers : List (Xfer σ)

variable {σ : Type}

/-! ### spi.c and be200.c -/

def be200RegStart : ℕ := 44
def be200RegPll : ℕ := 45
def be200RegClear : ℕ := 62

def be200CmdCheck : Byte := 0x00
def be200CmdReset : Byte := 0xC0
def be200CmdReadReg (n : ℕ) : Byte := 0x40 ||| BitVec.ofNat 8 n
def be200CmdWriteReg (n : ℕ) : Byte := 0x80 ||| BitVec.ofNat 8 n

def be200StatWAllow : Byte := 0x01
def be200StatRReady : Byte := 0x02
def be200StatNonceMask : Byte := 0x3C

def setBuffer (d : Dev σ) (k : ℕ) (v : Byte) : Dev σ :=
  {d with writeBuffer := fun i => if i = k then v else d.writeBuffer i}

def spiTransfer (b : Board σ) (d : Dev σ) (idx cnt : ℕ) : Dev σ × (ℕ → Byte) :=
  let sent := (List.range cnt).map d.writeBuffer
  let r := b.spi d.env idx sent
  ({d with env := r.1, xfers := ⟨d.env, idx, sent⟩ :: d.xfers}, r.2)

/-- Byte 2 of the buffer is left as it was. -/
def be200CmdCk (b : Board σ) (d : Dev σ) (idx : ℕ) : Dev σ × Byte :=
  let d := setBuffer (setBuffer (setBuffer d 0 be200CmdCheck) 1 be200CmdCheck) 3 be200CmdCheck
  let r := spiTransfer b d idx 3
  (r.1, r.2 2)

def be200CmdRd (b : Board σ) (d : Dev σ) (idx reg : ℕ) : Dev σ × Byte :=
  let d := setBuffer (setBuffer (setBuffer (setBuffer d 0 (be200CmdReadReg reg)) 1 0) 2 0) 3 0
  let r := spiTransfer b d idx 4
  (r.1, r.2 1)

def be200CmdWr (b : Board σ) (d : Dev σ) (idx reg : ℕ) (value : Byte) : Dev σ :=
  let d := setBuffer (setBuffer d 0 (be200CmdWriteReg reg)) 1 value
  (spiTransfer b d idx 2).1

def be200CmdRst (b : Board σ) (d : Dev σ) (idx : ℕ) : Dev σ :=
  (spiTransfer b (setBuffer d 0 be200CmdReset) idx 1).1

def be200Reset (b : Board σ) (d : Dev σ) (idx : ℕ) : Dev σ := be200CmdRst b d idx

def be200IsIdle (b : Board σ) (d : Dev σ) (idx : ℕ) : Dev σ × Bool :=
  let r := be200CmdCk b d idx
  (r.1, r.2 &&& be200StatWAllow != 0)

/-- The loop of `be200_input_task` from register `i` on, `n` registers to go. -/
def inputFrom (b : Board σ) (idx : ℕ) (task : List Byte) : ℕ → ℕ → Dev σ → Dev σ × Bool
  | 0, _, d => (d, true)
  | n + 1, i, d =>
    let d := be200CmdWr b d idx i (task.getD i 0)
    let r := be200CmdRd b d idx i
    if r.2 ≠ task.getD i 0 then (r.1, false)
    else inputFrom b idx task n (i + 1) r.1

def be200InputTask (b : Board σ) (d : Dev σ) (idx : ℕ) (task : List Byte) : Dev σ × Bool :=
  inputFrom b idx task 44 0 d

def be200Start (b : Board σ) (d : Dev σ) (idx : ℕ) : Dev σ :=
  let d := (be200CmdCk b d idx).1
  let d := be200CmdWr b d idx be200RegStart 0xFF
  (be200CmdCk b d idx).1

def be200GetDone (b : Board σ) (d : Dev σ) (idx : ℕ) : Dev σ × Option Byte :=
  let r := be200CmdCk b d idx
  (r.1, if r.2 &&& be200StatRReady ≠ 0 then some ((r.2 &&& be200StatNonceMask) >>> 2) else none)

def nonceStartReg (nonceMask : Byte) : Option ℕ :=
  if nonceMask &&& 0x01 ≠ 0 then some 46
  else if nonceMask &&& 0x02 ≠ 0 then some 50
  else if nonceMask &&& 0x04 ≠ 0 then some 54
  else if nonceMask &&& 0x08 ≠ 0 then some 58
  else none

def nonceValue (b0 b1 b2 b3 : Byte) : Word :=
  (b3.setWidth 32 <<< 24) ||| (b2.setWidth 32 <<< 16) ||| (b1.setWidth 32 <<< 8) |||
    (b0.setWidth 32 + 1)

/-- `be200_get_result`; without a mask bit it returns 0 and leaves `*result` alone. The order
of the four reads is the one they are written in. -/
def be200GetResult (b : Board σ) (d : Dev σ) (idx : ℕ) (nonceMask : Byte) : Dev σ × Option Word :=
  match nonceStartReg nonceMask with
  | none => (d, none)
  | some reg =>
    let r3 := be200CmdRd b d idx (reg + 3)
    let r2 := be200CmdRd b r3.1 idx (reg + 2)
    let r1 := be200CmdRd b r2.1 idx (reg + 1)
    let r0 := be200CmdRd b r1.1 idx (reg + 0)
    ((be200CmdRd b r0.1 idx be200RegClear).1, some (nonceValue r0.2 r1.2 r2.2 r3.2))

/-- What it prints is left out. -/
def be200DumpRegister (b : Board σ) (d : Dev σ) (idx : ℕ) : Dev σ :=
  (List.range 64).foldl (fun d i => (be200CmdRd b d idx i).1) d

def be200SetPll (b : Board σ) (d : Dev σ) (idx : ℕ) (mult : Byte) : Dev σ :=
  be200CmdWr b d idx be200RegPll (0x7F &&& mult)

def be200Clear (b : Board σ) (d : Dev σ) (idx : ℕ) : Dev σ := be200CmdWr b d idx be200RegClear 0x00

def freqWrite (b : Board σ) (d : Dev σ) (idx : ℕ) (multi : Byte) : Dev σ :=
  be200SetPll b d idx multi

def be200DefaultFreq : ℕ := 280
def hrtoDefaultMiners : ℕ := 80
def chipNumber : ℕ := 80

def freqWriteAll (b : Board σ) (d : Dev σ) (n : ℕ) (multi : Byte) : Dev σ :=
  (List.range n).foldl (fun d i => freqWrite b d i multi) d

def setAllChipsIdle (b : Board σ) (d : Dev σ) : Dev σ :=
  freqWriteAll b d hrtoDefaultMiners (BitVec.ofNat 8 (be200DefaultFreq / 10 - 1))

/-! ### twipwm.c and timer.c -/

def readl (b : Board σ) (d : Dev σ) (r : Reg) : Dev σ × Word :=
  let v := b.readl d.env r
  ({d with env := v.1}, v.2)

def writel (b : Board σ) (d : Dev σ) (r : Reg) (v : Word) : Dev σ :=
  {d with env := b.writel d.env r v}

def adjustFan (b : Board σ) (d : Dev σ) (pwm : ℤ) : Dev σ :=
  if d.fanValue = pwm then d
  else
    let value := if pwm < 0 then 0 else if pwm > 0x3ff then 0x3ff else pwm
    writel b {d with fanValue := value} .pwm (BitVec.ofInt 32 value)

def readTemp (b : Board σ) (d : Dev σ) : Dev σ × Word :=
  let v := b.twiRead2byte d.env
  ({d with env := v.1}, v.2 >>> 8)

def readFan0 (b : Board σ) (d : Dev σ) : Dev σ × Word :=
  ((readl b d .fan0).1, (readl b d .fan0).2 * 30)
def readFan1 (b : Board σ) (d : Dev σ) : Dev σ × Word :=
  ((readl b d .fan1).1, (readl b d .fan1).2 * 30)

/-- CPU_FREQUENCY is 100 MHz. -/
def wdgFeedSec (b : Board σ) (d : Dev σ) (seconds : Word) : Dev σ :=
  let wdgTime : Word := 100000000 * seconds
  writel b d .wdg (((wdgTime &&& 0x7fffffff) <<< 1) ||| 1)

def timerSet (b : Board σ) (d : Dev σ) (timer : ℕ) (load : Byte) : Dev σ :=
  let r := readl b d .timer
  let tmp := r.2 &&& 0x20002
  let load1 : Word := (load.setWidth 32 <<< 2) ||| 1
  if timer = 0 then writel b r.1 .timer (load1 ||| tmp)
  else writel b r.1 .timer ((load1 <<< 16) ||| tmp)

def timerMaskSet (b : Board σ) (d : Dev σ) (timer : ℕ) : Dev σ :=
  let r := readl b d .timer
  let tmp := r.2 &&& 0x20002
  writel b r.1 .timer (if timer = 0 then tmp ||| 0x2 else tmp ||| 0x20000)

def timerMaskClean (b : Board σ) (d : Dev σ) (timer : ℕ) : Dev σ :=
  let r := readl b d .timer
  let tmp := r.2 &&& 0x20002
  writel b r.1 .timer (if timer = 0 then tmp &&& 0xfffffffd else tmp &&& 0xfffdffff)

/-- The mask bit of the other timer is not kept. -/
def timerIntClean (b : Board σ) (d : Dev σ) (timer : ℕ) : Dev σ :=
  let r := readl b d .timer
  if timer = 0 then writel b r.1 .timer ((r.2 &&& 0x00002) ||| 0x00000100)
  else writel b r.1 .timer ((r.2 &&& 0x20000) ||| 0x01000000)

def irqTimer0 : Word := 0x20
def irqTimer1 : Word := 0x40

/-- With the mask given to `irq_ack`. -/
def timer0Isr (b : Board σ) (d : Dev σ) : Dev σ × Word := (timerIntClean b d 0, irqTimer0)
def timer1Isr (b : Board σ) (d : Dev σ) : Dev σ × Word := (timerIntClean b d 1, irqTimer0)

def timerRead (b : Board σ) (d : Dev σ) (timer : ℕ) : Dev σ × Word :=
  let r := readl b d .timer
  (r.1, (r.2 >>> (if timer = 0 then 2 else 18)) &&& 0x3f)

def gpioModify (b : Board σ) (d : Dev σ) (f : Word → Word) : Dev σ :=
  let r := readl b d .gpio
  writel b r.1 .gpio (f r.2)

def ledOn (b : Board σ) (d : Dev σ) (mask : Byte) : Dev σ :=
  gpioModify b d fun g => g ||| mask.setWidth 32
def ledOff (b : Board σ) (d : Dev σ) (mask : Byte) : Dev σ :=
  gpioModify b d fun g => g &&& ~~~(mask.setWidth 32)

def ledBlink (b : Board σ) (d : Dev σ) (mask : Byte) : Dev σ :=
  gpioModify b (gpioModify b d fun g => g ^^^ mask.setWidth 32) fun g => g ^^^ mask.setWidth 32

def chipHardReset (b : Board σ) (d : Dev σ) : Dev σ :=
  gpioModify b (gpioModify b d fun g => g ||| 0x100) fun g => g &&& 0xFFFFFEFF

/-! ### A board on which nothing happens -/

def stillVersion : List Byte := List.replicate 15 0x30

theorem stillVersion_length : stillVersion.length = 15 := rfl

/-- Every chip answers every byte with `c`; the registers read as all ones. -/
def stillBoard (c : Byte) : Board Unit where
  spi := fun _ _ _ => ((), fun _ => c)
  readl := fun _ _ => ((), 0xffffffff)
  writel := fun _ _ _ => ()
  twiRead2byte := fun _ => ((), 0)
  stale := fun _ => 0
  mmVersion := stillVersion
  mmVersion_length := stillVersion_length

theorem stillBoard_ck (c : Byte) (d : Dev Unit) (idx : ℕ) :
    (be200CmdCk (stillBoard c) d idx).2 = c := rfl

theorem stillBoard_idle (d : Dev Unit) (idx : ℕ) : (be200IsIdle (stillBoard 7) d idx).2 = true := by
  have hck := stillBoard_ck 7 d idx
  rw [be200IsIdle]
  generalize be200CmdCk (stillBoard 7) d idx = r at hck ⊢
  simp only [hck]
  decide

theorem stillBoard_done (d : Dev Unit) (idx : ℕ) :
    (be200GetDone (stillBoard 7) d idx).2 = some 1 := by
  have hck := stillBoard_ck 7 d idx
  rw [be200GetDone]
  generalize be200CmdCk (stillBoard 7) d idx = r at hck ⊢
  simp only [hck]
  decide

end HashRatio.Drivers
