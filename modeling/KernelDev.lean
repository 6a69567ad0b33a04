import KernelDev.Lib.Memory
import KernelDev.CString
import KernelDev.Lib.Chain
import KernelDev.Lib.Paths
import KernelDev.Lib.Run
import KernelDev.Lib.Cache
import KernelDev.FrameAllocator
import KernelDev.Heap
import KernelDev.AllocFrame
import KernelDev.HeapInvariant
import KernelDev.HeapTables
import KernelDev.HeapPages
import KernelDev.HeapOps
import KernelDev.HeapAccess
import KernelDev.HeapRuns
import KernelDev.HeapMemory
import KernelDev.Tlb
import KernelDev.HeapBuilt
import KernelDev.HeapTlb
import KernelDev.HeapCoherence
import KernelDev.FrameContract
import KernelDev.Console
import KernelDev.Vga
import KernelDev.VgaText
import KernelDev.Lib.Ring
import KernelDev.Serial
import KernelDev.SerialQueue
import KernelDev.Lib.Digits
import KernelDev.Lib.Loop
import KernelDev.Printk
import KernelDev.PrintkDigits
import KernelDev.PrintkOutput
import KernelDev.PrintkFormat
import KernelDev.PrintkCount
import KernelDev.SerialInterrupt
import KernelDev.SerialRuns
import KernelDev.BootMap
import KernelDev.BootRegions
import KernelDev.BootItems
import KernelDev.BootAccounts
import KernelDev.BootRuns
import KernelDev.PageAccounting
import KernelDev.BootReads
import KernelDev.FrameReach
import KernelDev.KernelImage
import KernelDev.Keyboard
import KernelDev.KeyboardModifiers
import KernelDev.KeyboardDrivers
import KernelDev.FreeCounter
import KernelDev.VirtToPhys
import KernelDev.BootTables
import KernelDev.SerialInit
import KernelDev.SerialLog
import KernelDev.Isr
import KernelDev.IsrRuns
import KernelDev.HeapBulk
import KernelDev.HugePages
import KernelDev.LinkedFrames
import KernelDev.ElfSections
import KernelDev.TableMap
import KernelDev.TableGrowth
import KernelDev.MapPage
import KernelDev.AccessFlags
import KernelDev.FreeRange
import KernelDev.AllocFailure
import KernelDev.HeapRange
import KernelDev.Lib.Interrupts
import KernelDev.PrintkSteps
import KernelDev.PrintkCall
import KernelDev.PrintkInterrupted
import KernelDev.TableRuns
import KernelDev.UnmapRuns
import KernelDev.BootLoops
import KernelDev.MapEntries
import KernelDev.SerialHandshake
import KernelDev.SerialUnset
import KernelDev.Accesses
import KernelDev.PrintkMasked
import KernelDev.KeyboardEvents
import KernelDev.KeyboardTyping
import KernelDev.VgaColour
import KernelDev.FormatReads
import KernelDev.DigitLoops
import KernelDev.Lib.Packed
import KernelDev.InterruptTables
import KernelDev.Lib.Device
import KernelDev.Ps2
import KernelDev.Ps2Init
import KernelDev.KbInit
import KernelDev.Lib.Pic8259
import KernelDev.Pic
import KernelDev.IrqInit
import KernelDev.Dispatch
import KernelDev.Lib.Processor
import KernelDev.IrqRuns
import KernelDev.KeyboardLine
import KernelDev.KeyboardScreen
import KernelDev.KeyboardProgress
import KernelDev.StringCopy
import KernelDev.StringSearch
import KernelDev.Kmain
import KernelDev.KmainPages
import KernelDev.KmainTables
import KernelDev.KmainTests
import KernelDev.HeapConfined
import KernelDev.BootHeap
import KernelDev.FreshHeap
import KernelDev.KmainBoot
import KernelDev.HeapCounter
