import OksSystem.StringMemoryArea.Basic
import OksSystem.Lib.Pieces
import OksSystem.Lib.Run
import OksSystem.Lib.SortedMap
import OksSystem.StringMemoryArea.Codec
import OksSystem.StringMemoryArea.Refine
import OksSystem.StringMemoryArea.RoundTrip
import OksSystem.StringMemoryArea.Failure
import OksSystem.StringMemoryArea.Bounds
import OksSystem.File.Basic
import OksSystem.Lib.FdTable
import OksSystem.Lib.Outcome
import OksSystem.Process.System
import OksSystem.Process.Join
import OksSystem.Executable.Launch
import OksSystem.Executable.SignalMask
import OksSystem.Executable.PipeIn
import OksSystem.Executable.Children
import OksSystem.Executable.Pipes
import OksSystem.User.Basic
import OksSystem.File.System
import OksSystem.File.Stored
import OksSystem.File.Remove
import OksSystem.File.Escape
import OksSystem.Executable.Redirect
import OksSystem.User.Observers
import OksSystem.Lib.Lexical
import OksSystem.File.Canonical
import OksSystem.Lib.Growth
import OksSystem.File.Make
import OksSystem.File.MakePath
import OksSystem.File.MakeDir
import OksSystem.Descriptor.Basic
import OksSystem.Descriptor.Ownership
import OksSystem.Descriptor.Heap
import OksSystem.MapFile.Basic
import OksSystem.MapFile.Observers
import OksSystem.FIFOConnection.Basic
import OksSystem.FIFOConnection.Blocking
import OksSystem.Lib.Chunks
import OksSystem.FIFOConnection.Delivery
import OksSystem.FIFOConnection.Messages
import OksSystem.FIFOConnection.Loss
import OksSystem.StringMemoryArea.Damage
import OksSystem.StringMemoryArea.Sums
import OksSystem.StringMemoryArea.WriteBack
import OksSystem.File.Depth
import OksSystem.File.Url
import OksSystem.File.Names
import OksSystem.Path.Basic
import OksSystem.Path.Copies
import OksSystem.Executable.Environ
import OksSystem.MapFile.Closing
import OksSystem.File.RemoveTree
import OksSystem.File.ExpandHome
import OksSystem.File.Extension
import OksSystem.Lib.Narrow
import OksSystem.File.PrettySize
import OksSystem.Executable.CopyFd
import OksSystem.Executable.Variables
import OksSystem.MapFile.Zero
import OksSystem.MapFile.WriteOnly
import OksSystem.FIFOConnection.Largest
import OksSystem.Executable.Alloc
import OksSystem.StringMemoryArea.CopyWithin
import OksSystem.StringMemoryArea.Replace
import OksSystem.StringMemoryArea.Decode
import OksSystem.Network.Host
import OksSystem.Network.Resolution
import OksSystem.Network.Known
import OksSystem.Executable.Lineage
import OksSystem.Executable.Termination
import OksSystem.Executable.ExecEnvs
import OksSystem.Executable.EnvStore
import OksSystem.File.Fifo
import OksSystem.File.FifoRace
import OksSystem.File.Scratch
import OksSystem.Lib.Moves
import OksSystem.File.Rename
import OksSystem.File.Listing
import OksSystem.Lib.Separate
import OksSystem.Lib.Region
import OksSystem.File.Work
import OksSystem.File.Isolated
import OksSystem.File.WorkingDir
import OksSystem.File.Texts
import OksSystem.Process.Texts
