import HashRatio.Lib.Bytes
import HashRatio.Lib.Memory
import HashRatio.Lib.Sha256
import HashRatio.Lib.Crc
import HashRatio.Lib.CrcPoly
import HashRatio.Lib.Run
import HashRatio.Lib.Ring
import HashRatio.Lib.Queue
import HashRatio.Lib.Serial
import HashRatio.Lib.Fifo
import HashRatio.Protocol
import HashRatio.Crc16
import HashRatio.Remainder
import HashRatio.MmWork
import HashRatio.ShaDriver
import HashRatio.Miner
import HashRatio.Job
import HashRatio.Midstate
import HashRatio.Drivers
import HashRatio.Twi
import HashRatio.Watchdog
import HashRatio.Timer
import HashRatio.TimerPair
import HashRatio.TwiCore
import HashRatio.TwiMaster
import HashRatio.TwiPhases
import HashRatio.TwiRuns
import HashRatio.TwiTransfer
import HashRatio.TwiLegal
import HashRatio.State
import HashRatio.Fan
import HashRatio.Packets
import HashRatio.Results
import HashRatio.MainLoop
import HashRatio.Detect
import HashRatio.Bounds
import HashRatio.Slots
import HashRatio.Sizes
import HashRatio.Provenance
import HashRatio.Nonce2
import HashRatio.Bus
import HashRatio.Checks
import HashRatio.Load
import HashRatio.Unread
import HashRatio.Mining
import HashRatio.Assembly
import HashRatio.Uart
import HashRatio.Interrupts
import HashRatio.GetPkg
import HashRatio.Framing
import HashRatio.Resync
import HashRatio.Waiting
import HashRatio.FrameCodec
import HashRatio.Corruption
import HashRatio.FullTest
import HashRatio.Pass
import HashRatio.Memcpy
import HashRatio.Printf
import HashRatio.Debug
import HashRatio.Accounting
import HashRatio.Generation
import HashRatio.Sample
import HashRatio.NonceRead
import HashRatio.Status
import HashRatio.ResultRing
import HashRatio.Frequency
import HashRatio.Works
import HashRatio.Soundness
import HashRatio.ShaCore
import HashRatio.ShaRounds
import HashRatio.Sha
import HashRatio.ShaBus
import HashRatio.ShaSequence
import HashRatio.ShaProgram
import HashRatio.Spi
import HashRatio.SpiFrame
import HashRatio.SpiTransfer
import HashRatio.SpiPhases
import HashRatio.SpiRuns
import HashRatio.SpiLegal
import HashRatio.UartTx
import HashRatio.UartSend
import HashRatio.UartRx
import HashRatio.UartRecv
import HashRatio.UartCore
import HashRatio.UartDriver
import HashRatio.UartWrites
import HashRatio.UartReads
import HashRatio.UartIrq
import HashRatio.Shift
import HashRatio.Shifter
import HashRatio.LoadStore
import HashRatio.MemStage
import HashRatio.SocBus
import HashRatio.BusRuns
import HashRatio.BusTraffic
