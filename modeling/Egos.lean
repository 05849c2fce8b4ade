import Egos.Lib.BlockProg
import Egos.Lib.RadixTree
import Egos.Lib.RadixSpace
import Egos.Lib.FreeList
import Egos.Lib.SparseArray
import Egos.Lib.Transition
import Egos.Lib.Execute
import Egos.Lib.Ends
import Egos.Lib.Budget
import Egos.Lib.Rendezvous
import Egos.Lib.Agents
import Egos.Lib.CopyLoop
import Egos.Lib.Writes
import Egos.Lib.Fields
import Egos.Lib.LineEditor
import Egos.Lib.Pieces
import Egos.Lib.CString
import Egos.Lib.CyclicScan
import Egos.Lib.Halves
import Egos.Lib.Paths
import Egos.TreeDisk.Code
import Egos.TreeDisk.Levels
import Egos.TreeDisk.Alloc
import Egos.TreeDisk.Walk
import Egos.TreeDisk.FileSystem
import Egos.TreeDisk.WriteLoop
import Egos.TreeDisk.Stages
import Egos.TreeDisk.Operations
import Egos.TreeDisk.Create
import Egos.TreeDisk.Drain
import Egos.TreeDisk.Refinement
import Egos.TreeDisk.Interruption
import Egos.TreeDisk.Conservation
import Egos.TreeDisk.Space
import Egos.Grass.Code
import Egos.Grass.Table
import Egos.Grass.Delivery
import Egos.Grass.Entry
import Egos.Grass.Rendezvous
import Egos.Grass.Stale
import Egos.Grass.Lifecycle
import Egos.Grass.Stuck
import Egos.Grass.Servers
import Egos.Grass.Slots
import Egos.Grass.Exits
import Egos.Grass.Overtaking
import Egos.Grass.Bypass
import Egos.Grass.Init
import Egos.Earth.Code
import Egos.Earth.SoftTlb
import Egos.Earth.Alloc
import Egos.Earth.Pool
import Egos.Earth.Timer
import Egos.Earth.Disk
import Egos.Machine.Code
import Egos.Machine.Memory
import Egos.Machine.Teardown
import Egos.Loader.Code
import Egos.Loader.Pages
import Egos.Loader.ArgPage
import Egos.Loader.Segments
import Egos.Loader.Image
import Egos.Loader.Room
import Egos.Trap.Code
import Egos.Trap.Registers
import Egos.Trap.Context
import Egos.Trap.Transparency
import Egos.Apps.Request
import Egos.Apps.System
import Egos.Apps.Foreground
import Egos.Apps.Protocol
import Egos.Apps.Tokens
import Egos.Apps.Arguments
import Egos.Apps.DirLookup
import Egos.Apps.Terminal
import Egos.Apps.Grammar
import Egos.Apps.Batch
import Egos.Apps.LastArgument
import Egos.Apps.DirBounds
import Egos.Apps.Ls
import Egos.Apps.Cd
import Egos.Apps.FileServer
import Egos.Libc.Sbrk
import Egos.Tools.Mkfs
import Egos.Tools.Image
import Egos.Whole.Programs
import Egos.Whole.Talk
import Egos.Whole.Waits
import Egos.Whole.Manage
import Egos.Whole.Runs
import Egos.Whole.Mirror
import Egos.Whole.Abstraction
import Egos.Whole.Start
