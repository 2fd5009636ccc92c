import RheeKernel.Machine
import RheeKernel.Counting
import RheeKernel.Linked
import RheeKernel.PageEntry
import RheeKernel.PageTables
import RheeKernel.PageTablesSteps
import RheeKernel.Memory
import RheeKernel.MemoryTables
import RheeKernel.MemorySpace
import RheeKernel.MemoryFree
import RheeKernel.MemoryCopy
import RheeKernel.MemoryFaults
import RheeKernel.MemoryRun
import RheeKernel.EagerCopy
import RheeKernel.MemoryFrames
import RheeKernel.SystemCalls
import RheeKernel.CallIsolation
import RheeKernel.CallRuns
import RheeKernel.BufferHead
import RheeKernel.HardDisk
import RheeKernel.HardDiskTransfer
import RheeKernel.HardDiskQueue
import RheeKernel.HardDiskInterrupts
import RheeKernel.HardDiskSorting
import RheeKernel.LinkedDouble
import RheeKernel.BufferCache
import RheeKernel.BufferQueues
import RheeKernel.BufferRefs
import RheeKernel.BufferSteps
import RheeKernel.BufferRuns
import RheeKernel.BufferRecycling
import RheeKernel.BufferUnique
import RheeKernel.BufferLocks
import RheeKernel.BufferContents
import RheeKernel.BufferEviction
import RheeKernel.BufferCoherence
import RheeKernel.BufferWriteback
import RheeKernel.FileBlocks
import RheeKernel.Zones
import RheeKernel.Pipe
import RheeKernel.RingBuffer
import RheeKernel.WaitQueue
import RheeKernel.DeadTasks
import RheeKernel.ProcessTree
import RheeKernel.FileCounts
import RheeKernel.AccessModes
import RheeKernel.FileTable
import RheeKernel.ByteMemory
import RheeKernel.ExecArgs
import RheeKernel.ElfLoader
import RheeKernel.ElfImage
import RheeKernel.ElfRefusals
import RheeKernel.ArgRefusals
import RheeKernel.Execve
import RheeKernel.ZoneBitmap
import RheeKernel.ZoneTree
import RheeKernel.ZoneFill
import RheeKernel.ZoneCreate
import RheeKernel.ZoneTruncate
import RheeKernel.ZoneRuns
import RheeKernel.SparseLog
import RheeKernel.FileBytes
import RheeKernel.FileArrays
import RheeKernel.FileRuns
import RheeKernel.Credentials
import RheeKernel.Descriptors
import RheeKernel.DescriptorRuns
import RheeKernel.ParentTree
import RheeKernel.Directory
import RheeKernel.PathWalk
import RheeKernel.Chroot
import RheeKernel.InodeRuns
import RheeKernel.DirectoryCalls
import RheeKernel.DirectoryRaces
import RheeKernel.CoreInodes
import RheeKernel.NameCalls
import RheeKernel.ProcessLedger
import RheeKernel.PipeLedger
import RheeKernel.Triples
import RheeKernel.InodeLedger
import RheeKernel.InodeOps
import RheeKernel.InodeTraces
import RheeKernel.NameLedger
import RheeKernel.DescriptorLedger
import RheeKernel.InodeAccounts
import RheeKernel.CallTraces
import RheeKernel.InodeSlots
import RheeKernel.InodeCache
import RheeKernel.Pids
import RheeKernel.Scheduler
import RheeKernel.MathState
import RheeKernel.WordMemory
import RheeKernel.Console
import RheeKernel.ConsoleRange
import RheeKernel.TtyQueue
import RheeKernel.Tty
import RheeKernel.TtyTurns
import RheeKernel.TtyOutput
import RheeKernel.TtyRoom
import RheeKernel.TtyLines
import RheeKernel.TtyRead
import RheeKernel.TtyTimers
import RheeKernel.TtyCanonical
import RheeKernel.TtyCooked
import RheeKernel.TtyWrite
import RheeKernel.BitArray
import RheeKernel.Bitmaps
import RheeKernel.ZoneNeeds
import RheeKernel.FilePositions
import RheeKernel.SyncCache
import RheeKernel.SyncDurable
import RheeKernel.RawDevice
import RheeKernel.RawTransfer
import RheeKernel.ArgOverruns
import RheeKernel.ElfHeaders
import RheeKernel.BitmapAlloc
import RheeKernel.BitmapExact
import RheeKernel.BlockTruncate
import RheeKernel.TruncateCounts
import RheeKernel.DirScan
import RheeKernel.DirScanRefs
import RheeKernel.DirEntries
import RheeKernel.DirMap
import RheeKernel.MakeDir
import RheeKernel.MakeDirClean
import RheeKernel.ForkUndo
import RheeKernel.CopyProcess
import RheeKernel.FaultAccounts
import RheeKernel.VerifyRange
import RheeKernel.BufferStores
import RheeKernel.Getdents
import RheeKernel.Printk
import RheeKernel.ExecMessage
import RheeKernel.TaskSelection
import RheeKernel.SignalTargets
import RheeKernel.PermissionTriples
import RheeKernel.CreatedOwners
import RheeKernel.Dup2
import RheeKernel.Alarms
import RheeKernel.AscendingRuns
import RheeKernel.HdElevator
import RheeKernel.CursorSaving
import RheeKernel.SignalReturn
import RheeKernel.StarWidth
import RheeKernel.FormatScan
import RheeKernel.FormatRuns
import RheeKernel.PathBytes
import RheeKernel.CurrentInodes
import RheeKernel.TreeView
import RheeKernel.PathResolution
import RheeKernel.Calendar
import RheeKernel.MakeTime
import RheeKernel.TimeInit
import RheeKernel.RegisterBytes
import RheeKernel.Segments
import RheeKernel.KeyQueue
import RheeKernel.RequestInsertion
import RheeKernel.BufferLayout
import RheeKernel.WhileLoop
import RheeKernel.NumberText
import RheeKernel.NumberReading
import RheeKernel.LinkGraph
import RheeKernel.LinkView
import RheeKernel.LinkCalls
import RheeKernel.LinkLaw
import RheeKernel.WordWindow
import RheeKernel.Terminal
import RheeKernel.ConsoleRefinement
import RheeKernel.BootImage
import RheeKernel.BootLoader
import RheeKernel.BootPaging
import RheeKernel.Uart
import RheeKernel.SerialLine
import RheeKernel.Keyboard
import RheeKernel.TaskSegments
import RheeKernel.Partitions
import RheeKernel.JobControl
import RheeKernel.TaskTimes
import RheeKernel.StringInstructions
import RheeKernel.StringSearches
import RheeKernel.StringComparisons
import RheeKernel.StringCopies
import RheeKernel.StringTokens
import RheeKernel.StringCalls
