import Lainos.Library.Bytes
import Lainos.Library.Exec
import Lainos.Library.Projection
import Lainos.Library.Replay
import Lainos.Library.Thread
import Lainos.Library.Ring
import Lainos.Library.Ledger
import Lainos.Library.Fifo
import Lainos.Library.Runs
import Lainos.Disk.Layout
import Lainos.Disk.Inode
import Lainos.Log.Buffer
import Lainos.Log.Journal
import Lainos.Log.Recovery
import Lainos.Log.Crash
import Lainos.Log.Progress
import Lainos.Mkfs.Image
import Lainos.Mkfs.Append
import Lainos.Mkfs.Tree
import Lainos.Mkfs.Regions
import Lainos.Mkfs.Directories
import Lainos.Kernel.State
import Lainos.Kernel.Fs
import Lainos.Kernel.Names
import Lainos.Kernel.Calls
import Lainos.Kernel.Reading
import Lainos.Kernel.Blocks
import Lainos.Kernel.Chunks
import Lainos.Kernel.Filewrite
import Lainos.Kernel.Overflow
import Lainos.Kernel.Contents
import Lainos.Kernel.Arrays
import Lainos.Kernel.Cache
import Lainos.Kernel.Logging
import Lainos.Kernel.Transactions
import Lainos.Kernel.Paths
import Lainos.Kernel.ReadBack
import Lainos.Kernel.UserMemory
import Lainos.Kernel.Bio
import Lainos.Kernel.BufferCache
import Lainos.Kernel.BufferSupply
import Lainos.Kernel.Recency
import Lainos.Vm.Memory
import Lainos.Vm.Tables
import Lainos.Vm.Space
import Lainos.Vm.Grow
import Lainos.Vm.Image
import Lainos.Vm.Plenty
import Lainos.Vm.Confine
import Lainos.Vm.Dealloc
import Lainos.Vm.Ram
import Lainos.Vm.Copyout
import Lainos.Vm.Zeroed
import Lainos.Vm.Sbrk
import Lainos.Vm.Fork
import Lainos.Vm.Scarce
import Lainos.Vm.Process
import Lainos.Vm.Files
import Lainos.Vm.Frames
import Lainos.Vm.Boot
import Lainos.Vm.Runs
import Lainos.Vm.Words
import Lainos.Pipe.Model
import Lainos.Pipe.Queue
import Lainos.Pipe.Wakeup
import Lainos.Proc.Table
import Lainos.Proc.Family
import Lainos.Proc.Kill
import Lainos.Proc.Machine
import Lainos.Proc.Switch
import Lainos.Proc.Sleep
import Lainos.Shell.Parser
import Lainos.Shell.Grammar
import Lainos.Shell.Soundness
import Lainos.Shell.Accepts
import Lainos.Shell.Run
import Lainos.Libc.Sequences
import Lainos.Libc.Setenv
import Lainos.Grep.Lines
import Lainos.Grep.Regex
import Lainos.Libc.Unsetenv
import Lainos.Libc.Requests
import Lainos.Libc.Realloc
import Lainos.Libc.Decimal
import Lainos.Libc.Strtol
import Lainos.Libc.Qsort
import Lainos.Libc.Bsearch
import Lainos.Libc.Strstr
import Lainos.Libc.Primitives
import Lainos.Boot.Mp
