import Xv6Ext2.Lib.Bytes
import Xv6Ext2.Lib.Exec
import Xv6Ext2.Lib.Writes
import Xv6Ext2.Bio
import Xv6Ext2.Log
import Xv6Ext2.LogInvariant
import Xv6Ext2.LogSteps
import Xv6Ext2.LogCrash
import Xv6Ext2.Icache
import Xv6Ext2.Lib.Schedule
import Xv6Ext2.IputRace
import Xv6Ext2.InodeReuse
import Xv6Ext2.Ext2.Balloc
import Xv6Ext2.Ext2.BlockGroups
import Xv6Ext2.Lib.PtrTree
import Xv6Ext2.Ext2.Bmap
import Xv6Ext2.Ext2.Mapping
import Xv6Ext2.Ext2.BlockTree
import Xv6Ext2.Ext2.File
import Xv6Ext2.Ext2.FileRuns
import Xv6Ext2.Ext2.FileCalls
import Xv6Ext2.Ext2.ReadAfterWrite
import Xv6Ext2.Ext2.Directory
import Xv6Ext2.Ext2.DirRecords
import Xv6Ext2.Ext2.DirCalls
import Xv6Ext2.Ext2.DirMap
import Xv6Ext2.Ext2.WriteThrough
import Xv6Ext2.GroupCommit
import Xv6Ext2.LogSpace
import Xv6Ext2.Fs.Volume
import Xv6Ext2.Fs.Bitmap
import Xv6Ext2.Fs.Bmap
import Xv6Ext2.Fs.Growth
import Xv6Ext2.Fs.File
import Xv6Ext2.Fs.InodeTable
import Xv6Ext2.Fs.Contents
import Xv6Ext2.Fs.FileCalls
import Xv6Ext2.Fs.Commit
import Xv6Ext2.Fs.Cache
import Xv6Ext2.Fs.ByteArrays
import Xv6Ext2.Fs.Directory
import Xv6Ext2.Fs.DirectoryMap
import Xv6Ext2.Ptable
import Xv6Ext2.Kill
import Xv6Ext2.ProcessTree
import Xv6Ext2.ProcessRuns
import Xv6Ext2.Ide
import Xv6Ext2.Bcache
import Xv6Ext2.Mkfs.ReadBack
import Xv6Ext2.PipeWakeups
import Xv6Ext2.Ext2.Bfree
import Xv6Ext2.Ext2.DirSafety
import Xv6Ext2.Ext2.Itrunc
import Xv6Ext2.Ext2.SizeGuard
import Xv6Ext2.Ext2.Ialloc
import Xv6Ext2.Ext2.InodeBitmap
import Xv6Ext2.Ext2.DirScan
import Xv6Ext2.Ext2.DirFormat
import Xv6Ext2.Ext2.DirStack
import Xv6Ext2.Lib.Masks
import Xv6Ext2.Vm.Model
import Xv6Ext2.Vm.Words
import Xv6Ext2.Vm.Spaces
import Xv6Ext2.Vm.Walk
import Xv6Ext2.Vm.Alloc
import Xv6Ext2.Vm.Grow
import Xv6Ext2.Vm.Copyout
import Xv6Ext2.Vm.Freevm
import Xv6Ext2.Vm.Kvm
import Xv6Ext2.Vm.Fork
import Xv6Ext2.Vm.Exec
import Xv6Ext2.Vm.Load
import Xv6Ext2.Vm.Stack
import Xv6Ext2.Vm.Commit
import Xv6Ext2.Vm.Program
import Xv6Ext2.Vm.Args
import Xv6Ext2.Umalloc.Heap
import Xv6Ext2.Umalloc.Free
import Xv6Ext2.Ext2.ZerothBit
import Xv6Ext2.Grep.Lines
import Xv6Ext2.Umalloc.Malloc
import Xv6Ext2.Umalloc.Runs
import Xv6Ext2.Vfs.Skipelem
import Xv6Ext2.Sh.Grammar
import Xv6Ext2.Sh.Nulterminate
import Xv6Ext2.Sh.Print
import Xv6Ext2.ProcessRoot
import Xv6Ext2.Scheduler
import Xv6Ext2.Sleeplock
import Xv6Ext2.Console
