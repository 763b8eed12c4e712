import Xv6Monitor.Disk.Journal
import Xv6Monitor.Lib.Bytes

/-! Why a system call does not return: a panic of one of the files it goes through, or a sleep that
nothing ends. -/

namespace Xv6Monitor.Stops

/-- The panics of `kernel/kalloc.c`, `kernel/vm.c` and `kernel/exec.c`. -/
inductive VmPanic where
  | kfree
  | walk
  | vaNotAligned
  | sizeNotAligned
  | size
  | remap
  | unmapNotAligned
  | unmapWalk
  | notMapped
  | notALeaf
  | moreThanAPage
  | freewalkLeaf
  | pteShouldExist
  | pageNotPresent
  | uvmclear
  | loadseg
  deriving DecidableEq, Repr

/-- The panics of `kernel/fs.c` and of the calls in `kernel/sysfile.c` that use it. -/
inductive FsPanic where
  | freeingFreeBlock
  | noInodes
  | ilock
  | noType
  | iunlock
  | bmapOutOfRange
  | dirlookupNotDir
  | dirlookupRead
  | dirlinkRead
  | isdiremptyReadi
  | nlink
  | unlinkWritei
  deriving DecidableEq, Repr

/-- The panics of `kernel/file.c`. -/
inductive FilePanic where
  | filedup
  | fileclose
  | fileread
  | filewrite
  deriving DecidableEq, Repr

/-- Why a function of the file system does not return. -/
inductive FsStop where
  | panic (panic : FsPanic)
  | log (panic : Disk.Journal.Panic)
  | nullPointer
  | asleep
  /-- The power fails after a commit: what is on the disk, and the inodes that are referred to in memory. -/
  | crash (disk : Nat → Lib.Bytes.Data) (referenced : List Nat)

inductive Halt where
  | vm (panic : VmPanic)
  | fs (why : FsStop)
  | file (panic : FilePanic)
  | initExiting
  /-- A write through a null pointer, which `uvmfirst` makes when there is no memory. -/
  | nullPointer
  /-- A recursion or loop of the source that does not end. -/
  | endless
  | asleep

end Xv6Monitor.Stops
