import MPStuBS.Run
import MPStuBS.Chain
import MPStuBS.Queue
import MPStuBS.QueueFamily
import MPStuBS.GateQueue
import MPStuBS.GateQueueRuns
import MPStuBS.GateQueueDuplicates
import MPStuBS.Bellringer
import MPStuBS.BellringerTiming
import MPStuBS.Kernel
import MPStuBS.KernelRun
import MPStuBS.KernelQueues
import MPStuBS.ThreadMoves
import MPStuBS.ThreadPlaces
import MPStuBS.KernelMoves
import MPStuBS.KernelPlacement
import MPStuBS.KernelKill
import MPStuBS.KernelKilled
import MPStuBS.SemaphoreRuns
import MPStuBS.Ticketlock
import MPStuBS.Guard
import MPStuBS.GuardPhases
import MPStuBS.GuardSafety
import MPStuBS.BBuffer
import MPStuBS.Keyboard
import MPStuBS.KeyboardPipeline
import MPStuBS.KeyboardOrder
import MPStuBS.IdleLoop
import MPStuBS.IdleLoopRuns
import MPStuBS.BlockProgram
import MPStuBS.ByteMemory
import MPStuBS.ProgramLogic
import MPStuBS.DeviceKinds
import MPStuBS.CarefulRuns
import MPStuBS.FsState
import MPStuBS.MinixBitmap
import MPStuBS.MinixTree
import MPStuBS.FileData
import MPStuBS.FileLengths
import MPStuBS.InodeCache
import MPStuBS.MinixDirectory
import MPStuBS.MinixNames
import MPStuBS.Descriptors
import MPStuBS.PathWalk
import MPStuBS.Vfs
import MPStuBS.VfsDevices
import MPStuBS.FsLogic
import MPStuBS.TreeReading
import MPStuBS.FileReading
import MPStuBS.StateLogic
import MPStuBS.QuietSteps
import MPStuBS.References
import MPStuBS.ReferenceCalls
import MPStuBS.ReferenceBalance
import MPStuBS.CallBalance
import MPStuBS.ReferenceRuns
import MPStuBS.ReachableReferences
import MPStuBS.HeapTree
import MPStuBS.BlockViews
import MPStuBS.ZoneBitmap
import MPStuBS.ZoneTree
import MPStuBS.TreeChains
import MPStuBS.TreeEdits
import MPStuBS.ZoneAllocation
import MPStuBS.BlockMapping
import MPStuBS.ReleaseCounts
import MPStuBS.ZoneRelease
import MPStuBS.TreePruning
import MPStuBS.BadDescriptors
import MPStuBS.EndingSteps
import MPStuBS.PathTermination
import MPStuBS.CallSteps
import MPStuBS.CacheIntegrity
import MPStuBS.MountFailure
import MPStuBS.LegalNames
import MPStuBS.HandleLogic
import MPStuBS.HandleSteps
import MPStuBS.DestroyRuns
import MPStuBS.CallFrames
import MPStuBS.Holders
import MPStuBS.HeldMemory
import MPStuBS.VolumeMounts
import MPStuBS.VolumeRuns
import MPStuBS.Unmount
import MPStuBS.FileTree
import MPStuBS.PathRoutes
import MPStuBS.TreeFreeing
import MPStuBS.TreeSharing
import MPStuBS.Truncation
import MPStuBS.TruncationExtent
import MPStuBS.InodeRecords
import MPStuBS.PeekingSteps
import MPStuBS.DirectoryReading
import MPStuBS.DirentRecords
import MPStuBS.TreeImages
import MPStuBS.InodeLoading
import MPStuBS.BlockBitmaps
import MPStuBS.MountedVolume
import MPStuBS.ProgramParts
import MPStuBS.ProgramCosts
import MPStuBS.PathOrder
import MPStuBS.EmptyDirectories
import MPStuBS.FaultLogic
import MPStuBS.IndexRanges
import MPStuBS.WriteRanges
import MPStuBS.AllocatorRuns
import MPStuBS.FirstFit
import MPStuBS.AtomicMapping
import MPStuBS.DescriptorTable
import MPStuBS.MemoryDisks
import MPStuBS.Harddisk
import MPStuBS.DriveSelection
import MPStuBS.SectorConversion
import MPStuBS.QueueRuns
import MPStuBS.TicketRuns
import MPStuBS.BufferInterleavings
import MPStuBS.BellringerCancel
import MPStuBS.TreeStates
import MPStuBS.TreeLookups
import MPStuBS.TreeWalks
import MPStuBS.PathResolution
import MPStuBS.DirectoryListing
import MPStuBS.DirectoryStreams
import MPStuBS.TreeCalls
import MPStuBS.CompleteListing
import MPStuBS.FsImage
import MPStuBS.TreeClimbing
import MPStuBS.WorkingDirectory
import MPStuBS.TimerDivider
import MPStuBS.Numerals
import MPStuBS.OutputStream
import MPStuBS.NumberFormat
import MPStuBS.NegativeNumbers
import MPStuBS.MachineWords
import MPStuBS.TextWindow
import MPStuBS.TextCursor
import MPStuBS.TextStream
import MPStuBS.TextLayout
import MPStuBS.TextConsole
import MPStuBS.GraphicsStream
import MPStuBS.GraphicsCursor
import MPStuBS.GraphicsConsole
import MPStuBS.Calendar
import MPStuBS.DateTime
import MPStuBS.DebugState
import MPStuBS.DebugRoundTrip
import MPStuBS.Sprite
import MPStuBS.BoundedCopy
import MPStuBS.BlockPaths
import MPStuBS.Random
import MPStuBS.MadtScan
import MPStuBS.Framebuffer
import MPStuBS.LineDrawing
import MPStuBS.TextRendering
import MPStuBS.BitFields
import MPStuBS.BitStreams
import MPStuBS.DebugSession
import MPStuBS.DeflateFormat
import MPStuBS.FillLoops
import MPStuBS.FrameSwitching
import MPStuBS.HuffmanBuilding
import MPStuBS.Inflate
import MPStuBS.InflateBlocks
import MPStuBS.InflateEnds
import MPStuBS.InflateHeaders
import MPStuBS.InflateStreams
import MPStuBS.Ioapic
import MPStuBS.IoapicTable
import MPStuBS.KeyDecoder
import MPStuBS.KeyHistory
import MPStuBS.MemoryMoves
import MPStuBS.PngDecoding
import MPStuBS.PngSafety
import MPStuBS.TreeVisits
