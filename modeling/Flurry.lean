import Flurry.Core.LinkedTree
import Flurry.Core.TreeSurgery
import Flurry.Core.SearchTree
import Flurry.Core.TreeReach
import Flurry.Multitasking.Events
import Flurry.Multitasking.EventQueue
import Flurry.Core.ByteMemory
import Flurry.Memory.Pmm
import Flurry.Memory.FrameAllocation
import Flurry.Memory.FrameConservation
import Flurry.Memory.Paging
import Flurry.Core.BitField
import Flurry.Memory.PageTables
import Flurry.Memory.TableWalk
import Flurry.Memory.PageMap
import Flurry.Memory.Tlb
import Flurry.Memory.PageEntries
import Flurry.Memory.VmmInit
import Flurry.Memory.KernelSpace
import Flurry.Core.CellLayout
import Flurry.Core.DoublyLinked
import Flurry.Memory.Kmalloc
import Flurry.Memory.KmallocChunks
import Flurry.Memory.KmallocOps
import Flurry.Memory.KmallocLayout
import Flurry.Memory.KmallocRuns
import Flurry.Memory.KmallocFree
import Flurry.Memory.KmallocRequests
import Flurry.Memory.KmallocDoubleFree
import Flurry.Memory.HeapPages
import Flurry.Memory.NoExecute
import Flurry.Hardware.Lapic
import Flurry.Hardware.Tsc
import Flurry.Multitasking.Sched
import Flurry.Multitasking.Alarms
import Flurry.Multitasking.StaleLinks
import Flurry.Multitasking.Placement
import Flurry.Multitasking.PlacementSteps
import Flurry.Multitasking.ThreadPlacement
import Flurry.Multitasking.WakeTimes
import Flurry.Multitasking.PreemptionTimer
import Flurry.Multitasking.SwitchInterrupts
import Flurry.Multitasking.IdleThread
import Flurry.Multitasking.InterruptFlag
import Flurry.Multitasking.RoundRobin
import Flurry.Multitasking.SleepWindow
import Flurry.Multitasking.TimerArming
import Flurry.Multitasking.SleepOrder
import Flurry.Multitasking.DueEvents
import Flurry.Hardware.Processor
import Flurry.Multitasking.ThreadStack
import Flurry.Multitasking.ContextSwitch
import Flurry.Core.ByteString
import Flurry.Acpi.Madt
import Flurry.Core.Climb
import Flurry.Acpi.MadtBounds
import Flurry.Hardware.Calibration
import Flurry.Hardware.IoApic
import Flurry.Memory.BootFrames
import Flurry.Memory.MissingTables
import Flurry.Memory.StringOps
import Flurry.Core.Numeral
import Flurry.Log.Itoa
import Flurry.Core.BitSlice
import Flurry.Cpu.Gdt
import Flurry.Hardware.LapicSetup
import Flurry.Core.LinkedQueue
import Flurry.Log.Tty
import Flurry.Memory.KmallocClients
import Flurry.Multitasking.ThreadList
import Flurry.Multitasking.ThreadQueues
import Flurry.Log.Kprintf
import Flurry.Hardware.InterruptDelivery
import Flurry.Interrupts.Isr
import Flurry.Multitasking.Preemption
import Flurry.Interrupts.Dispatch
import Flurry.Memory.HeapMemory
import Flurry.Memory.DeviceWindows
import Flurry.Abi.Elf
import Flurry.Interrupts.IrqRouting
import Flurry.Interrupts.Pic
import Flurry.Multitasking.ReadyList
import Flurry.Multitasking.SwitchRefinement
import Flurry.Multitasking.ThreadCreation
import Flurry.Log.Screen
import Flurry.Multitasking.Progress
