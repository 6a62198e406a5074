import ClayFigure.Kernel.Global
import ClayFigure.Math.Acyclic
import ClayFigure.Math.Blind
import ClayFigure.Math.BitRun
import ClayFigure.Math.Chain
import ClayFigure.Math.ListUnion
import ClayFigure.Math.Loop
import ClayFigure.Math.Parts
import ClayFigure.Math.Descent
import ClayFigure.Math.Ranges
import ClayFigure.Math.TableTree
import ClayFigure.Math.Transition
import ClayFigure.Math.Waiting
import ClayFigure.Lib.Bitmap
import ClayFigure.Lib.BitmapSearch
import ClayFigure.Lib.List
import ClayFigure.Lib.ListRuns
import ClayFigure.Mem.Frame
import ClayFigure.Mem.PageInit
import ClayFigure.Mem.PageInitExact
import ClayFigure.Mem.PageTable
import ClayFigure.Mem.Vmm
import ClayFigure.Mem.VmmRanges
import ClayFigure.Mem.VmmRuns
import ClayFigure.Mem.VmmUndo
import ClayFigure.Mem.PageFault
import ClayFigure.Mem.Allocator
import ClayFigure.Mem.Kmalloc
import ClayFigure.Mem.KmallocRuns
import ClayFigure.Mem.KmallocSteps
import ClayFigure.Mem.KmallocLife
import ClayFigure.Mem.TableBlocks
import ClayFigure.Mem.TableOwner
import ClayFigure.Mem.OverCount
import ClayFigure.Task.Family
import ClayFigure.Task.FamilyTree
import ClayFigure.Task.FamilyCount
import ClayFigure.Syscall.Ipc
import ClayFigure.Syscall.IpcInv
import ClayFigure.Syscall.IpcSteps
import ClayFigure.Syscall.IpcDelivery
import ClayFigure.Syscall.Senders
import ClayFigure.Syscall.Deadlock
import ClayFigure.Syscall.IpcLife
import ClayFigure.Task.PageDir
import ClayFigure.Task.ProcTables
import ClayFigure.Task.ProcFrames
import ClayFigure.Task.ProcExit
import ClayFigure.Task.ProcRuns
import ClayFigure.Task.Creation
import ClayFigure.Task.Sleep
import ClayFigure.Graphic.Print
import ClayFigure.Graphic.Utf8
import ClayFigure.Softirq.Softirq
import ClayFigure.Task.Schedule
import ClayFigure.Task.ScheduleLists
import ClayFigure.Task.FairShare
import ClayFigure.Task.VirtualTime
import ClayFigure.Task.PriorityTable
import ClayFigure.Task.SchedPlaced
import ClayFigure.Task.SchedRuns
import ClayFigure.Task.SchedWait
import ClayFigure.Service.ReadTaskMem
import ClayFigure.Service.KernMem
import ClayFigure.Service.KernFree
import ClayFigure.Task.ProcStack
import ClayFigure.Service.View
import ClayFigure.Service.Tick
import ClayFigure.Bootloader.Elf
import ClayFigure.Device.XhciRing
import ClayFigure.Device.XhciCommand
import ClayFigure.Math.Queue
import ClayFigure.Lib.Fifo
import ClayFigure.Lib.FifoTasks
import ClayFigure.Device.XhciEvents
import ClayFigure.Device.XhciHub
import ClayFigure.Device.XhciPipe
import ClayFigure.Device.Apic
import ClayFigure.Device.UsbDesc
import ClayFigure.Device.Pci
import ClayFigure.Device.PciTree
import ClayFigure.Sync.Semaphore
import ClayFigure.Task.Waitpid
import ClayFigure.Bootloader.CreatePage
import ClayFigure.Lib.String
import ClayFigure.Kernel.Config
import ClayFigure.Math.LittleEndian
import ClayFigure.Ramfs.Ramfs
import ClayFigure.Ramfs.RamfsCheck
import ClayFigure.Lib.Stdio
import ClayFigure.Lib.StdioNumber
import ClayFigure.Lib.StdioFormat
import ClayFigure.Lib.StdioValue
import ClayFigure.Lib.Memory
import ClayFigure.Elf.ReadElf
import ClayFigure.Elf.LoadSegment
import ClayFigure.Kernel.ConfigScan
import ClayFigure.Kernel.ConfigBounds
import ClayFigure.Kernel.ConfigLines
import ClayFigure.Kernel.Symbols
