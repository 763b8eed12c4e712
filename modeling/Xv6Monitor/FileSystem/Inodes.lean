import Xv6Monitor.FileSystem.Blocks

/-! The upper half of `kernel/fs.c`: the inode table, directories and path names. -/

namespace Xv6Monitor.FileSystem.Inodes
open Lib.Bytes Lib.Program Format Blocks
open Disk.Buffers (ROOTDEV)

variable [sb : Superblock]

/-- The table entry for an inode, with one more reference; neither locked nor read from disk. -/
def iget (dev inum : Nat) : FsProg Ip := do
  let s ← get
  match (List.finRange NINODE).find? fun e => 0 < (s.inode e).ref ∧ (s.inode e).dev = dev ∧ (s.inode e).inum = inum with
  | some ip =>
    setInode ip fun i => { i with ref := i.ref + 1 }
    pure ip
  | none =>
    -- Recycle an inode entry.
    match (List.finRange NINODE).find? fun e => (s.inode e).ref = 0 with
    | none => stop (.panic .noInodes)
    | some ip =>
      setInode ip fun i => { i with dev := dev, inum := inum, ref := 1, valid := false }
      pure ip

def ialloc (dev : Nat) (type : Int16) : FsProg (Option Ip) := do
  let s ← get
  match (List.range' 1 (sb.ninodes - 1)).find? fun inum => (dinode s.disk inum).type = 0 with
  | none => pure none
  | some inum =>
    setDinode inum { Dinode.zero with type := type }
    some <$> iget dev inum

def idup (ip : Ip) : FsProg Unit := setInode ip fun i => { i with ref := i.ref + 1 }

def ilock (ip : Ip) : FsProg Unit := do
  let i := (← get).inode ip
  if i.ref < 1 then
    stop (.panic .ilock)
  else if i.locked then
    stop .asleep
  else
    setInode ip fun i => { i with locked := true }
    if i.valid = false then
      let n := dinode (← get).disk i.inum
      setInode ip fun i => { i with copy := n, valid := true }
      if n.type = 0 then stop (.panic .noType)

def iunlock (ip : Ip) : FsProg Unit := do
  let i := (← get).inode ip
  if i.locked = false ∨ i.ref < 1 then
    stop (.panic .iunlock)
  else
    setInode ip fun i => { i with locked := false }

def ifree (ip : Ip) : FsProg Unit := do
  if ((← get).inode ip).locked then
    stop .asleep
  else
    setInode ip fun i => { i with locked := true }
    itrunc ip
    setCopy ip fun n => { n with type := 0 }
    iupdate ip
    setInode ip fun i => { i with valid := false, locked := false }

def iput (ip : Ip) : FsProg Unit := do
  let i := (← get).inode ip
  if i.ref = 1 ∧ i.valid = true ∧ i.copy.nlink = 0 then ifree ip
  setInode ip fun i => { i with ref := i.ref - 1 }

def iunlockput (ip : Ip) : FsProg Unit := do
  iunlock ip
  iput ip

/-- `stati`; between `nlink` and `size` the `struct` has four bytes of padding. -/
def stati (i : Inode) (st : Data) : Data :=
  let st := store 4 st 0 i.dev
  let st := store 4 st 4 i.inum
  let st := store 2 st 8 i.copy.type.toUInt16.toNat
  let st := store 2 st 10 i.copy.nlink.toUInt16.toNat
  store 8 st 16 i.copy.size.toNat

def readEntry (dp : Ip) (k : Nat) : FsProg (Option Dirent) := do
  let got ← readi dp (.kernel fun _ => 0) (16 * k) 16
  if got.total = some 16 then pure (some (Dirent.read got.bytes)) else pure none

def rounds (n : Dinode) : Nat := (n.size.toNat + 15) / 16

/-- The loop of `dirlookup` from entry `k` on: the inode number and the entry where it stands. -/
def lookupFrom (dp : Ip) (name : Name) : (left k : Nat) → FsProg (Option (Nat × Nat))
  | 0, _ => pure none
  | left + 1, k => do
    match ← readEntry dp k with
    | none => stop (.panic .dirlookupRead)
    | some e =>
      if e.inum ≠ 0 ∧ namecmp name e.name = 0 then pure (some (e.inum.toNat, k)) else lookupFrom dp name left (k + 1)

def dirlookup (dp : Ip) (name : Name) : FsProg (Option (Ip × Nat)) := do
  let d := (← get).inode dp
  if d.copy.type ≠ T_DIR then
    stop (.panic .dirlookupNotDir)
  else
    match ← lookupFrom dp name (rounds d.copy) 0 with
    | none => pure none
    | some (inum, k) => (fun ip => some (ip, k)) <$> iget d.dev inum

def emptyFrom (dp : Ip) : (left k : Nat) → FsProg Nat
  | 0, k => pure k
  | left + 1, k => do
    match ← readEntry dp k with
    | none => stop (.panic .dirlinkRead)
    | some e => if e.inum = 0 then pure k else emptyFrom dp left (k + 1)

/-- Whether a new entry was written. -/
def dirlink (dp : Ip) (name : Name) (inum : Nat) : FsProg Bool := do
  match ← dirlookup dp name with
  | some (ip, _) =>
    iput ip
    pure false
  | none =>
    let d := (← get).inode dp
    let k ← emptyFrom dp (rounds d.copy) 0
    let r ← writei dp (.kernel (Dirent.bytes ⟨UInt16.ofNat inum, name⟩)) (16 * k) 16
    pure (r = some 16)

def namexFrom (nameiparent : Bool) (ip : Ip) : List Name → FsProg (Option (Ip × Name))
  | [] => do
    if nameiparent then
      iput ip
      pure none
    else
      pure (some (ip, []))
  | name :: rest => do
    ilock ip
    if ((← get).inode ip).copy.type ≠ T_DIR then
      iunlockput ip
      pure none
    else if nameiparent ∧ rest = [] then
      -- Stop one level early.
      iunlock ip
      pure (some (ip, name))
    else
      match ← dirlookup ip name with
      | none =>
        iunlockput ip
        pure none
      | some (next, _) =>
        iunlockput ip
        namexFrom nameiparent next rest

/-- The inode of a path, or that of its parent with the final element; relative to `cwd`. -/
def namex (cwd : Option Ip) (path : Path) (nameiparent : Bool) : FsProg (Option (Ip × Name)) := do
  if path.head? = some slash then
    let ip ← iget ROOTDEV ROOTINO
    namexFrom nameiparent ip path.elements
  else
    match cwd with
    | none => stop .nullPointer
    | some ip =>
      idup ip
      namexFrom nameiparent ip path.elements

def namei (cwd : Option Ip) (path : Path) : FsProg (Option Ip) := (·.map Prod.fst) <$> namex cwd path false

def nameiparent (cwd : Option Ip) (path : Path) : FsProg (Option (Ip × Name)) := namex cwd path true

end Xv6Monitor.FileSystem.Inodes
