import DBolOS.Lib.Run
import DBolOS.Frames
import DBolOS.Fat.Sync
import DBolOS.Fat.Resolve
import DBolOS.Fat.RoundTrip
import DBolOS.Lib.DList
import DBolOS.Lib.Meets
import DBolOS.Proc.Live
import DBolOS.Proc.Bypass
import DBolOS.Proc.Inherit
import DBolOS.Proc.Tables
import DBolOS.Vfs.Kernel
import DBolOS.Vfs.Syscalls
import DBolOS.Vfs.Descriptors
import DBolOS.Vfs.RefCount
import DBolOS.Vfs.WellFormed
import DBolOS.Vfs.Opening
import DBolOS.Paging.Tables
import DBolOS.Paging.Create
import DBolOS.Paging.Directory
import DBolOS.Paging.UserPages
import DBolOS.Paging.NewSpace
import DBolOS.Paging.Boot
import DBolOS.Paging.Stale
import DBolOS.Paging.Shared
import DBolOS.Paging.KernelHalf
import DBolOS.Dev.Vga
import DBolOS.Vfs.Modes
import DBolOS.Fat.Shrink
import DBolOS.Fat.Load
import DBolOS.Fat.Ranges
import DBolOS.Fat.Geometry
import DBolOS.Fat.Walks
import DBolOS.Fat.LongNames
import DBolOS.Bitmap
import DBolOS.Dev.Terminal
import DBolOS.Paging.Elf
import DBolOS.Paging.Sections
import DBolOS.Vfs.Dirents
import DBolOS.Fat.Atomic
import DBolOS.Fat.Rename
import DBolOS.Fat.Created
import DBolOS.Heap.Session
import DBolOS.Lib.Lexical
import DBolOS.Vfs.StackBytes
import DBolOS.Vfs.Renaming
import DBolOS.Vfs.Allocations
import DBolOS.UsedPages
import DBolOS.Paging.Recursive
import DBolOS.Heap.NewPages
import DBolOS.Heap.Reuse
import DBolOS.Paging.Framed
import DBolOS.Paging.Rollback
import DBolOS.Shell.Commands
import DBolOS.Dev.Pit
import DBolOS.Proc.Search
import DBolOS.Proc.ListCalls
import DBolOS.Dev.LineBuffer
import DBolOS.Dev.Stored
import DBolOS.Fat.Growth
import DBolOS.Fat.Copies
import DBolOS.Paging.Break
import DBolOS.Paging.Running
import DBolOS.Paging.Sbrk
import DBolOS.Paging.Owning
import DBolOS.Paging.Started
import DBolOS.Paging.SbrkFails
import DBolOS.Paging.SbrkGrants
import DBolOS.Proc.Creating
import DBolOS.Proc.Traces
import DBolOS.Itoa
import DBolOS.Vfs.Join
import DBolOS.Fat.FileRuns
import DBolOS.Dev.Ata
import DBolOS.Proc.Alone
import DBolOS.Proc.OwnStack
import DBolOS.Dev.Echo
import DBolOS.Fat.FileFrames
import DBolOS.Vfs.Streams
import DBolOS.Vfs.StreamCalls
import DBolOS.Vfs.StreamRuns
import DBolOS.Dev.Irq
import DBolOS.Gdt
