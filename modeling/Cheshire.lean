import Cheshire.Lib.Prog
import Cheshire.Lib.Mem
import Cheshire.Lib.AddrMap
import Cheshire.Hw.Config
import Cheshire.Hw.AxiMap
import Cheshire.Hw.RegMap
import Cheshire.Hw.MemoryMap
import Cheshire.Sw.Gpt
import Cheshire.Sw.GptBound
import Cheshire.Sw.Zsl
import Cheshire.Hw.Decode
import Cheshire.Hw.Remap
import Cheshire.Hw.RegIndex
import Cheshire.Hw.Responders
import Cheshire.Boot.Crt0
import Cheshire.Boot.Smp
import Cheshire.Lib.Rv64
import Cheshire.Boot.Rom
import Cheshire.Sw.GptSelect
import Cheshire.Sw.SdBurst
import Cheshire.Sw.SdCleanup
import Cheshire.Sw.SdCrc7
import Cheshire.Sw.SdResponse
import Cheshire.Sw.SdTimeout
import Cheshire.Sw.I2cBus
import Cheshire.Sw.I2c
import Cheshire.Sw.I2cAddress
import Cheshire.Sw.I2cWrite
import Cheshire.Sw.NorFlash
import Cheshire.Lib.Crc
import Cheshire.Sw.SdCrc
import Cheshire.Sw.SdCard
import Cheshire.Sw.SdRead
import Cheshire.Sw.SdFrame
import Cheshire.Hw.Cva6Cfg
import Cheshire.Hw.AmoUser
import Cheshire.Lib.Scan
import Cheshire.Sim.ElfFile
import Cheshire.Sim.ElfLoader
import Cheshire.Sim.ElfSegments
import Cheshire.Sim.ElfBounds
import Cheshire.Sim.ElfErrors
import Cheshire.Sim.ElfSections
import Cheshire.Lib.Span
import Cheshire.Sim.Jtag
import Cheshire.Lib.Axi
import Cheshire.Sim.Slink
import Cheshire.Boot.Passive
import Cheshire.Lib.Channel
import Cheshire.Sw.UartDebug
import Cheshire.Sim.UartDebug
import Cheshire.Sim.UartRun
import Cheshire.Sim.UartLockstep
import Cheshire.Sim.UartExec
import Cheshire.Lib.XorLinear
import Cheshire.Sw.NorRead
import Cheshire.Lib.Halves
import Cheshire.Sw.Clint
import Cheshire.Sw.ClintCompare
import Cheshire.Lib.Ticks
import Cheshire.Sw.ClintFreq
import Cheshire.Lib.Digits
import Cheshire.Hw.BootromGen
import Cheshire.Lib.Layer
import Cheshire.Sw.GptMedium
import Cheshire.Sw.BootMedium
import Cheshire.Sw.NorBoot
import Cheshire.Sw.SdInit
import Cheshire.Sw.SdBoot
import Cheshire.Hw.RegTop
import Cheshire.Sim.UartRegs
import Cheshire.Sw.HelloWorld
import Cheshire.Sw.Uart
import Cheshire.Boot.Trap
import Cheshire.Sw.BootChain
import Cheshire.Sim.ElfPreload
import Cheshire.Sw.I2cBoot
import Cheshire.Sw.SdChain
import Cheshire.Hw.AxiIn
import Cheshire.Sw.SdGoodCard
import Cheshire.Boot.Modes
