import Uix.Lib.Machine
import Uix.Lib.Bytes
import Uix.Lib.Links
import Uix.Lib.Tiles
import Uix.Lib.Radix
import Uix.Lib.Ring
import Uix.Types
import Uix.Memory.Pmm
import Uix.Memory.PmmSpec
import Uix.Memory.PmmRun
import Uix.Memory.Heap
import Uix.Memory.HeapSpec
import Uix.Memory.HeapRun
import Uix.Memory.HeapAlloc
import Uix.Memory.HeapFree
import Uix.Memory.Vmm
import Uix.Memory.Pte
import Uix.Memory.VmmSpec
import Uix.Memory.VmmMap
import Uix.Memory.VmmFork
import Uix.Memory.ForkTranslation
import Uix.Memory.Mmu
import Uix.Memory.VmmClone
import Uix.Memory.Translate
import Uix.Memory.NoExec
import Uix.Memory.Spaces
import Uix.Memory.PageFault
import Uix.Memory.ForkWrite
import Uix.Memory.CowFault
import Uix.Cpu.TeardownInverse
import Uix.Memory.MapPage
import Uix.Memory.Store
import Uix.Memory.Filling
import Uix.Memory.ForkIsolation
import Uix.Cpu.Elf
import Uix.Cpu.ElfSpec
import Uix.Cpu.Exec
import Uix.Cpu.Teardown
import Uix.Cpu.ExecSpec
import Uix.Cpu.ExecFailure
import Uix.Cpu.LivePages
import Uix.Memory.KernelHalf
import Uix.Fs.Uixfs
import Uix.Fs.UixfsSpec
import Uix.Fs.FileBuffer
import Uix.Fs.RoundTrip
import Uix.Fs.Layout
import Uix.Cpu.Sched
import Uix.Cpu.SchedSpec
import Uix.Cpu.SchedPlaced
import Uix.Cpu.SchedRun
import Uix.Cpu.SchedCalm
import Uix.Cpu.SchedRoundRobin
import Uix.Cpu.SchedWait
import Uix.Cpu.SchedHistory
import Uix.Cpu.SchedRegistry
import Uix.Cpu.SchedHope
import Uix.Lib.Logged
import Uix.Lib.X64
import Uix.Lib.Routine
import Uix.Cpu.ElfReads
import Uix.Cpu.ElfConfined
import Uix.Cpu.ImageBytes
import Uix.Cpu.ElfFaithful
import Uix.Cpu.ExecKernelHalf
import Uix.Cpu.ExecPath
import Uix.Cpu.Fd
import Uix.Cpu.SysRead
import Uix.Cpu.SwitchTo
import Uix.Io.Tty
import Uix.Io.Keyboard
import Uix.Io.Font
import Uix.Io.Console
import Uix.Io.VirtioBlk
import Uix.Io.VirtioRequest
import Uix.Io.Pci
import Uix.Memory.Tlb
import Uix.Memory.TlbRun
import Uix.Memory.Demand
import Uix.Memory.ForkDraws
import Uix.Cpu.ImagePages
import Uix.Cpu.TwinImage
import Uix.Cpu.ImageSecrets
import Uix.Cpu.Exhaustion
import Uix.Cpu.ExecFiles
import Uix.Cpu.FlatImage
import Uix.Cpu.UserStack
import Uix.Cpu.KernelStack
import Uix.Cpu.Interrupts
import Uix.Lib.Cstring
import Uix.Lib.Numeral
import Uix.Core.Strings
import Uix.Core.Numerals
import Uix.Core.Kprintf
import Uix.Cpu.SchedReclaim
import Uix.Cpu.SchedSpace
import Uix.Cpu.ActiveSpace
import Uix.Cpu.Syscall
