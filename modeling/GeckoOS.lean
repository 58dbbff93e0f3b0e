import GeckoOS.Math.ByteMap
import GeckoOS.Math.Lines
import GeckoOS.Math.Loop
import GeckoOS.Math.Outcome
import GeckoOS.Math.Path
import GeckoOS.Math.Ring
import GeckoOS.Math.Bitmap
import GeckoOS.Math.OnesComplement
import GeckoOS.Math.Runs
import GeckoOS.Math.SlotTable
import GeckoOS.Math.Moves
import GeckoOS.Math.RingQueue
import GeckoOS.Mem.Kmalloc
import GeckoOS.Mem.HeapBlocks
import GeckoOS.Mem.HeapTiling
import GeckoOS.Mem.HeapCalls
import GeckoOS.Mem.HeapSafety
import GeckoOS.Mem.FreeList
import GeckoOS.Mem.PhysicalMem
import GeckoOS.Mem.BlockPool
import GeckoOS.Mem.AllocationFailure
import GeckoOS.Mem.BlockRegions
import GeckoOS.Mem.KernelMemory
import GeckoOS.Mem.ByteCopies
import GeckoOS.Net.Stack
import GeckoOS.Net.UdpRoundTrip
import GeckoOS.Net.AccessBounds
import GeckoOS.Net.FrameEffects
import GeckoOS.Net.Reentry
import GeckoOS.Net.Acceptance
import GeckoOS.Net.BitErrors
import GeckoOS.Net.UdpRequest
import GeckoOS.Net.BindingTable
import GeckoOS.Net.ArpCache
import GeckoOS.Net.Dns
import GeckoOS.Net.DnsQuery
import GeckoOS.Net.DnsReply
import GeckoOS.Net.DnsRecords
import GeckoOS.Net.RequestBindings
import GeckoOS.Net.HostFiles
import GeckoOS.Net.PullFile
import GeckoOS.Net.StaleReply
import GeckoOS.Fs.Drive
import GeckoOS.Fs.Fat32
import GeckoOS.Fs.Layout
import GeckoOS.Fs.Table
import GeckoOS.Fs.ChainWrites
import GeckoOS.Fs.Directory
import GeckoOS.Fs.Reading
import GeckoOS.Fs.Calls
import GeckoOS.Fs.Ownership
import GeckoOS.Fs.ClusterAccounting
import GeckoOS.Drivers.E1000Receive
import GeckoOS.Drivers.E1000Send
import GeckoOS.Drivers.Keyboard
import GeckoOS.Drivers.Mouse
import GeckoOS.Drivers.Pci
import GeckoOS.Drivers.PciTree
import GeckoOS.Drivers.BusWalk
import GeckoOS.Gk.Syntax
import GeckoOS.Gk.Lexer
import GeckoOS.Gk.Parser
import GeckoOS.Gk.Interp
import GeckoOS.Gk.ParserSteps
import GeckoOS.Gk.NodePool
import GeckoOS.Gk.Keeping
import GeckoOS.Gk.CallFrame
import GeckoOS.Gk.ExprGrammar
import GeckoOS.Gk.ExprParsing
import GeckoOS.Gk.LexerSteps
import GeckoOS.Gk.Rendering
import GeckoOS.Gk.StmtGrammar
import GeckoOS.Gk.StmtParsing
import GeckoOS.Gk.Liberties
import GeckoOS.Editor.Editor
import GeckoOS.Editor.TextCursor
import GeckoOS.Math.RadixTree
import GeckoOS.Mem.Paging
import GeckoOS.Mem.PageTables
import GeckoOS.Mem.MmioWindows
import GeckoOS.Proc.CreateProcess
import GeckoOS.Proc.ProcessQueue
import GeckoOS.Proc.Elf
import GeckoOS.Fs.FileContent
import GeckoOS.Terminal.Terminal
import GeckoOS.Terminal.Scrollback
import GeckoOS.Terminal.Scrolling
import GeckoOS.Terminal.Clearing
import GeckoOS.Terminal.Pointer
import GeckoOS.Terminal.Input
import GeckoOS.Terminal.LineEditor
import GeckoOS.Terminal.Recall
import GeckoOS.Terminal.Erasing
import GeckoOS.Fs.Lookup
import GeckoOS.Fs.DirEffects
import GeckoOS.Fs.UniqueNames
import GeckoOS.Math.TwoRuns
import GeckoOS.Math.SignedArith
import GeckoOS.Gk.Scoping
import GeckoOS.Math.EventLog
import GeckoOS.Gk.Traced
import GeckoOS.Gk.Erasure
import GeckoOS.Gk.FirstError
import GeckoOS.Gk.CompleteNodes
import GeckoOS.Gk.Indices
import GeckoOS.Fs.NameDisplay
import GeckoOS.Fs.Mounting
import GeckoOS.Fs.DirWalk
import GeckoOS.Fs.FatEntries
import GeckoOS.Fs.FatCopies
import GeckoOS.Fs.Allocation
import GeckoOS.Fs.DirectoryWrites
import GeckoOS.Fs.FileWrite
import GeckoOS.Fs.ListingFaults
import GeckoOS.Fs.ReadFile
import GeckoOS.Gk.Monitored
import GeckoOS.Math.Forest
import GeckoOS.Gk.NodeTree
import GeckoOS.Gk.TokenBounds
import GeckoOS.Gk.ChildBounds
import GeckoOS.Gk.Run
import GeckoOS.Gk.Jumps
import GeckoOS.Gk.Unwinding
import GeckoOS.Gk.LastStatement
import GeckoOS.Gk.Lexemes
import GeckoOS.Gk.Blocks
import GeckoOS.Gk.LexerEvents
import GeckoOS.Gk.Arithmetic
import GeckoOS.Gk.IntText
import GeckoOS.Gk.Redefinition
import GeckoOS.Fs.Replacing
import GeckoOS.Editor.RoundTrip
import GeckoOS.Fs.Appending
import GeckoOS.Fs.Store
import GeckoOS.Fs.StoreFiles
import GeckoOS.Math.Words
import GeckoOS.Shell.CommandLine
import GeckoOS.Shell.FileCommands
import GeckoOS.Shell.FileSessions
import GeckoOS.Editor.Editing
import GeckoOS.Drivers.Ata
import GeckoOS.Gk.StmtTree
import GeckoOS.Gk.TreeParsing
import GeckoOS.Gk.ProgramText
import GeckoOS.Math.Exceptions
import GeckoOS.Gk.Semantics
import GeckoOS.Gk.Frames
import GeckoOS.Gk.Simulation
