import Xv6Monitor.Calls.Files

/-! The calls of `kernel/sysfile.c` that take path names. What `argstr` fetches from the user's memory is
an argument of the call, `none` where it cannot be read. -/

namespace Xv6Monitor.Calls.Names
open Lib.Bytes Lib.Program Process.Table Memory.Frames Memory.Tables FileSystem.Format FileSystem.Blocks
  FileSystem.Inodes State Files

/-- `kernel/fcntl.h` -/
def O_WRONLY : UInt32 := 0x001
def O_RDWR : UInt32 := 0x002
def O_CREATE : UInt32 := 0x200
def O_TRUNC : UInt32 := 0x400

/-- `kernel/param.h` -/
def MAXPATH : Nat := 128

def argstr (string : Option Path) : Option Path := string.filter fun s => s.length < MAXPATH

variable [image : Image] [sb : Superblock]

def unlinkBack (ip : Ip) : FsProg Unit := do
  ilock ip
  setCopy ip fun n => { n with nlink := n.nlink - 1 }
  iupdate ip
  iunlockput ip

/-- Whether the inode now has the new name as well. -/
def link (cwd : Option Ip) (old new : Path) : FsProg Bool := do
  match ← namei cwd old with
  | none => pure false
  | some ip =>
    ilock ip
    if ((← get).inode ip).copy.type = T_DIR then
      iunlockput ip
      pure false
    else
      setCopy ip fun n => { n with nlink := n.nlink + 1 }
      iupdate ip
      iunlock ip
      match ← nameiparent cwd new with
      | none =>
        unlinkBack ip
        pure false
      | some (dp, name) =>
        ilock dp
        let s ← get
        let linked ← (if (s.inode dp).dev ≠ (s.inode ip).dev then pure false else dirlink dp name (s.inode ip).inum)
        iunlockput dp
        if linked then iput ip else unlinkBack ip
        pure linked

def isdiremptyFrom (dp : Ip) : (left k : Nat) → FsProg Bool
  | 0, _ => pure true
  | left + 1, k => do
    match ← readEntry dp k with
    | none => stop (.panic .isdiremptyReadi)
    | some e => if e.inum ≠ 0 then pure false else isdiremptyFrom dp left (k + 1)

def isdirempty (dp : Ip) : FsProg Bool := do
  isdiremptyFrom dp (rounds ((← get).inode dp).copy - 2) 2

/-- Whether the inode at the directory's entry `k` has lost that name; it is locked. -/
def unlinkEntry (dp ip : Ip) (k : Nat) : FsProg Bool := do
  let n := ((← get).inode ip).copy
  if n.nlink < 1 then
    stop (.panic .nlink)
  else
    let empty ← (if n.type = T_DIR then isdirempty ip else pure true)
    if empty then
      if (← writei dp (.kernel fun _ => 0) (16 * k) 16) = some 16 then
        if n.type = T_DIR then
          setCopy dp fun d => { d with nlink := d.nlink - 1 }
          iupdate dp
        iunlockput dp
        setCopy ip fun n => { n with nlink := n.nlink - 1 }
        iupdate ip
        iunlockput ip
        pure true
      else
        stop (.panic .unlinkWritei)
    else
      iunlockput ip
      iunlockput dp
      pure false

def unlink (cwd : Option Ip) (path : Path) : FsProg Bool := do
  match ← nameiparent cwd path with
  | none => pure false
  | some (dp, name) =>
    ilock dp
    if name = dot ∨ name = dotdot then
      iunlockput dp
      pure false
    else
      match ← dirlookup dp name with
      | none =>
        iunlockput dp
        pure false
      | some (ip, k) =>
        ilock ip
        unlinkEntry dp ip k

def linkDots (dp ip : Ip) : FsProg Bool := do
  let s ← get
  if ← dirlink ip dot (s.inode ip).inum then dirlink ip dotdot (s.inode dp).inum else pure false

/-- Give a new inode its entries, if it is a directory, and its name. -/
def linkNew (dp ip : Ip) (name : Name) (type : Int16) : FsProg Bool := do
  let inum := ((← get).inode ip).inum
  let dots ← (if type = T_DIR then linkDots dp ip else pure true)
  if dots then dirlink dp name inum else pure false

/-- The inode of a path, locked; a new one unless it is a file or a device that is there already. -/
def create (cwd : Option Ip) (path : Path) (type major minor : Int16) : FsProg (Option Ip) := do
  match ← nameiparent cwd path with
  | none => pure none
  | some (dp, name) =>
    ilock dp
    match ← dirlookup dp name with
    | some (ip, _) =>
      iunlockput dp
      ilock ip
      let t := ((← get).inode ip).copy.type
      if type = T_FILE ∧ (t = T_FILE ∨ t = T_DEVICE) then
        pure (some ip)
      else
        iunlockput ip
        pure none
    | none =>
      match ← ialloc ((← get).inode dp).dev type with
      | none =>
        iunlockput dp
        pure none
      | some ip =>
        ilock ip
        setCopy ip fun n => { n with major := major, minor := minor, nlink := 1 }
        iupdate ip
        if ← linkNew dp ip name type then
          if type = T_DIR then
            setCopy dp fun d => { d with nlink := d.nlink + 1 }
            iupdate dp
          iunlockput dp
          pure (some ip)
        else
          -- Something went wrong: de-allocate `ip`.
          setCopy ip fun n => { n with nlink := 0 }
          iupdate ip
          iunlockput ip
          iunlockput dp
          pure none

def openInode (cwd : Option Ip) (path : Path) (omode : UInt32) : FsProg (Option Ip) := do
  if omode &&& O_CREATE ≠ 0 then
    create cwd path T_FILE 0 0
  else
    match ← namei cwd path with
    | none => pure none
    | some ip =>
      ilock ip
      if ((← get).inode ip).copy.type = T_DIR ∧ omode ≠ 0 then
        iunlockput ip
        pure none
      else
        pure (some ip)

/-- A new file with its descriptor, for an inode that is not a device without a number in the table. -/
def openFile (p : Slot) (n : Dinode) : KProg (Option (Fp × Fin NOFILE)) := do
  if n.type = T_DEVICE ∧ (n.major < 0 ∨ (NDEV : Int) ≤ n.major.toInt) then
    pure none
  else
    match ← filealloc with
    | none => pure none
    | some f =>
      match ← fdalloc p f with
      | none =>
        fileclose f
        pure none
      | some fd => pure (some (f, fd))

def opened (n : Dinode) (ip : Ip) (omode : UInt32) (g : File) : File :=
  let g := { g with ip := some ip, readable := omode &&& O_WRONLY = 0, writable := omode &&& O_WRONLY ≠ 0 ∨ omode &&& O_RDWR ≠ 0 }
  if n.type = T_DEVICE then { g with type := .device, major := n.major } else { g with type := .inode, off := 0 }

def sysOpen (p : Slot) (path : Option Path) (omode : UInt32) : KProg Int := do
  match argstr path with
  | none => pure (-1)
  | some path =>
    onFs beginOp
    match ← onFs (openInode ((← get).proc p).cwd path omode) with
    | none =>
      onFs endOp
      pure (-1)
    | some ip =>
      let n := ((← get).fs.inode ip).copy
      match ← openFile p n with
      | none =>
        onFs (iunlockput ip)
        onFs endOp
        pure (-1)
      | some (f, fd) =>
        setFile f (opened n ip omode)
        if omode &&& O_TRUNC ≠ 0 ∧ n.type = T_FILE then onFs (itrunc ip)
        onFs (iunlock ip)
        onFs endOp
        pure fd

def sysLink (p : Slot) (old new : Option Path) : KProg Int := do
  match argstr old, argstr new with
  | some old, some new =>
    let cwd := ((← get).proc p).cwd
    onFs beginOp
    let linked ← onFs (link cwd old new)
    onFs endOp
    pure (if linked then 0 else -1)
  | _, _ => pure (-1)

def sysUnlink (p : Slot) (path : Option Path) : KProg Int := do
  match argstr path with
  | none => pure (-1)
  | some path =>
    let cwd := ((← get).proc p).cwd
    onFs beginOp
    let unlinked ← onFs (unlink cwd path)
    onFs endOp
    pure (if unlinked then 0 else -1)

def makeInode (p : Slot) (path : Option Path) (type major minor : Int16) : KProg Int := do
  let cwd := ((← get).proc p).cwd
  onFs beginOp
  match ← onFs (match argstr path with | none => pure none | some path => create cwd path type major minor) with
  | none =>
    onFs endOp
    pure (-1)
  | some ip =>
    onFs (iunlockput ip)
    onFs endOp
    pure 0

def sysMkdir (p : Slot) (path : Option Path) : KProg Int := makeInode p path T_DIR 0 0

def sysMknod (p : Slot) (path : Option Path) (major minor : Int16) : KProg Int := makeInode p path T_DEVICE major minor

def namedir (cwd : Option Ip) (path : Path) : FsProg (Option Ip) := do
  match ← namei cwd path with
  | none => pure none
  | some ip =>
    ilock ip
    if ((← get).inode ip).copy.type ≠ T_DIR then
      iunlockput ip
      pure none
    else
      iunlock ip
      pure (some ip)

def putCwd (cwd : Option Ip) : FsProg Unit :=
  match cwd with
  | none => stop .nullPointer
  | some ip => iput ip

def sysChdir (p : Slot) (path : Option Path) : KProg Int := do
  let cwd := ((← get).proc p).cwd
  onFs beginOp
  match ← onFs (match argstr path with | none => pure none | some path => namedir cwd path) with
  | none =>
    onFs endOp
    pure (-1)
  | some ip =>
    onFs (putCwd cwd)
    onFs endOp
    setProc p fun q => { q with cwd := some ip }
    pure 0

/-- `sys_fstat`; the local `struct stat` has 24 bytes and lies on the kernel's `stack`. -/
def sysFstat (p : Slot) (fd : Int) (addr : Nat) (stack : Data) : KProg Int := do
  match argfd (← get) p fd with
  | none => pure (-1)
  | some (_, f) =>
    let k ← get
    if (k.file f).type = .inode ∨ (k.file f).type = .device then
      match (k.file f).ip with
      | none => stop .nullPointer
      | some ip =>
        onFs (ilock ip)
        let i := (← get).fs.inode ip
        onFs (iunlock ip)
        if ← onRam (copyout (k.proc p).pagetable addr (stati i stack) 24) then pure 0 else pure (-1)
    else
      pure (-1)

end Xv6Monitor.Calls.Names
