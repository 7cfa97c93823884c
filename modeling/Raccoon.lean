import Raccoon.Loops
import Raccoon.TableTree
import Raccoon.FreeRuns
import Raccoon.Words
import Raccoon.Mmu
import Raccoon.RecursiveMapping
import Raccoon.PageTables
import Raccoon.Machine
import Raccoon.TableLoops
import Raccoon.Kmmap
import Raccoon.ElfLoader
import Raccoon.ByteMemory
import Raccoon.LoadedPages
import Raccoon.ElfImage
import Raccoon.Kmunmap
import Raccoon.TableScan
import Raccoon.SearchReturns
import Raccoon.SearchTermination
import Raccoon.SearchAvailable
import Raccoon.FreeRunSize
import Raccoon.MapPhysical
import Raccoon.Runs
import Raccoon.Access
import Raccoon.SpaceFree
import Raccoon.CStrings
import Raccoon.Numerals
import Raccoon.Printing
import Raccoon.Ownership
import Raccoon.Capabilities
import Raccoon.CapabilityFile
import Raccoon.Sections
import Raccoon.ParserBounds
import Raccoon.CapabilityRecord
import Raccoon.CoreLaunch
import Raccoon.CoreIds
import Raccoon.KernelMain
import Raccoon.InitFile
import Raccoon.ProgramTable
import Raccoon.InitLines
import Raccoon.Launch
import Raccoon.ProgramStarts
import Raccoon.BlockNumbering
import Raccoon.FrameAllocator
import Raccoon.FramesExclusive
import Raccoon.FrameNumbers
import Raccoon.FrameClearing
import Raccoon.EarlyFrames
import Raccoon.InterruptLock
import Raccoon.Madt
import Raccoon.MadtEntries
import Raccoon.FramePlacement
import Raccoon.FrameExhaustion
import Raccoon.FrameFreeing
import Raccoon.SentinelTables
import Raccoon.RegionTables
import Raccoon.InterruptLevels
import Raccoon.CpuRegs
import Raccoon.MemoryLocks
import Raccoon.DeviceMapping
import Raccoon.LoopEvents
import Raccoon.TableReclaim
import Raccoon.Buffers
import Raccoon.InitFs
import Raccoon.Traced
import Raccoon.Rsdt
import Raccoon.HpetTimer
import Raccoon.InterruptRouting
import Raccoon.FormatRendering
import Raccoon.BootConsole
import Raccoon.BootNumbers
import Raccoon.BootHexes
import Raccoon.NumberParsing
import Raccoon.FrameReads
import Raccoon.FirstHole
import Raccoon.SerialLog
import Raccoon.LogCompletion
import Raccoon.LogExceptions
import Raccoon.PackedFields
import Raccoon.StackMachine
import Raccoon.DescriptorTables
import Raccoon.Instructions
import Raccoon.InterruptStubs
import Raccoon.InterruptDispatch
import Raccoon.SystemCalls
import Raccoon.FrameSupply
import Raccoon.FrameOwnership
import Raccoon.AddressSpaces
import Raccoon.SpaceCreation
import Raccoon.SpaceCalls
import Raccoon.SpaceIsolation
import Raccoon.Pic
import Raccoon.BootHandlers
import Raccoon.BootInterrupts
