import BruhOS.LinkedRing
import BruhOS.BlockTree
import BruhOS.BuddyMachine
import BruhOS.BuddyLists
import BruhOS.BuddyOperations
import BruhOS.BuddyInit
import BruhOS.BuddyRuns
import BruhOS.BuddySafety
import BruhOS.PfaInit
import BruhOS.PfaZones
import BruhOS.PfaDerive
import BruhOS.PfaCoverage
import BruhOS.PagingMachine
import BruhOS.Spinlock
import BruhOS.PagingMaps
import BruhOS.PagingRights
import BruhOS.PagingUnmaps
import BruhOS.BootMap
import BruhOS.BootPaging
import BruhOS.KernelLayout
import BruhOS.KernelSegments
import BruhOS.IrqRouter
import BruhOS.PointerTree
import BruhOS.VasMachine
import BruhOS.ZoneLocks
import BruhOS.VasNodes
import BruhOS.VasTree
import BruhOS.VasRegions
import BruhOS.VasRefusal
import BruhOS.VasLookup
import BruhOS.IrqInstall
import BruhOS.NodeCodec
import BruhOS.BuddyRegions
import BruhOS.BuddySummaries
import BruhOS.FrameLocks
import BruhOS.BuddyFailures
import BruhOS.BootRegion
import BruhOS.IrqVectors
import BruhOS.RecordWalk
import BruhOS.IrqScan
import BruhOS.BootExhaust
import BruhOS.FrameFrees
import BruhOS.PfaSplit
import BruhOS.NodeRuns
import BruhOS.NodeFrames
import BruhOS.NodeDestroy
import BruhOS.FrameRuns
import BruhOS.FrameAnswers
import BruhOS.FrameCounters
import BruhOS.BootFramebuffer
import BruhOS.KernelFormat
import BruhOS.KernelPrint
import BruhOS.BootFormat
import BruhOS.BootVprintf
import BruhOS.RestartWalk
import BruhOS.TextBlit
import BruhOS.TextLayout
import BruhOS.TextRender
import BruhOS.BootVideo
import BruhOS.HpetTimer
import BruhOS.FiniteStack
import BruhOS.BuddyReserve
import BruhOS.BalancedTree
import BruhOS.AvlTree
import BruhOS.AvlStore
import BruhOS.AvlRotate
import BruhOS.AvlInsert
import BruhOS.AvlRemove
import BruhOS.AvlTraverse
import BruhOS.AvlRuns
import BruhOS.AvlOrdered
import BruhOS.VasBalance
import BruhOS.StackMachine
import BruhOS.InterruptStub
import BruhOS.InterruptReturn
import BruhOS.InterruptTable
import BruhOS.InterruptDispatch
import BruhOS.BootFiles
import BruhOS.IrqDevices
import BruhOS.LocalApic
import BruhOS.LapicTimer
import BruhOS.AcpiTables
import BruhOS.HpetBoot
