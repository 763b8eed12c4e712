import Xv6Monitor.FileSystem.Extents

/-! `mkfs/mkfs.c`, the program that makes the first file system image. The image is a file of the host: a write behind its
end makes it longer, and a read there fails. Words are in the byte order of the disk, so `xint` and `xshort` do not occur. -/

namespace Xv6Monitor.Mkfs.Image
open Lib.Bytes Lib.Program FileSystem.Format FileSystem.Blocks

/-- `kernel/param.h` -/
def FSSIZE : Nat := 2000

def NINODES : Nat := 200

/-- `kernel/fs.h` -/
def FSMAGIC : Nat := 0x10203040

/-! Disk layout: boot block, super block, log, inode blocks, free bit map, data blocks. -/

def nbitmap : Nat := FSSIZE / BPB + 1
def ninodeblocks : Nat := NINODES / IPB + 1
def nlog : Nat := Disk.Journal.LOGSIZE
def nmeta : Nat := 2 + nlog + ninodeblocks + nbitmap
def nblocks : Nat := FSSIZE - nmeta

abbrev superblock : Superblock where
  size := FSSIZE
  ninodes := NINODES
  nlog := nlog
  logstart := 2
  inodestart := 2 + nlog
  bmapstart := 2 + nlog + ninodeblocks
  bmap_after := by decide
  data_after := by decide
  size_small := by decide

attribute [local instance] superblock

def superblockBytes : Data := fun i =>
  digit (([FSMAGIC, FSSIZE, nblocks, NINODES, nlog, 2, 2 + nlog, 2 + nlog + ninodeblocks][i / 4]?).getD 0) (i % 4)

/-- How `mkfs` ends without success: in `die`, or in an assertion. -/
inductive Failure where
  /-- `die("read")` -/
  | read
  /-- `die(argv[i])` -/
  | noFile (path : FileSystem.Format.Path)
  /-- `assert(rootino == ROOTINO)` -/
  | rootino
  /-- `assert(index(shortname, '/') == 0)` -/
  | slashInName
  /-- `assert(strlen(shortname) <= DIRSIZ)` -/
  | longName
  /-- `assert(fbn < MAXFILE)` -/
  | fbn
  /-- `assert(used < BPB)` -/
  | used
  deriving DecidableEq

structure Img where
  sect : Nat → Data
  /-- The length of the image file in sectors. -/
  sectors : Nat
  freeinode : UInt32
  freeblock : UInt32
  /-- The inode numbers that `ialloc` has returned, the last one first. -/
  inums : List Nat
  /-- The sectors that `winode` has written, the last one first. -/
  inodeWrites : List Nat

abbrev MkProg : Type → Type := Prog Failure Img

/-- The sector that `lseek` goes to: `sec * BSIZE` is a `uint`. -/
def seek (sec : Nat) : Nat := sec % 4194304

def wsect (sec : Nat) (buf : Data) : MkProg Unit :=
  modify fun t => { t with sect := Function.update t.sect (seek sec) buf, sectors := max t.sectors (seek sec + 1) }

def rsect (sec : Nat) : MkProg Data := do
  let t ← get
  if seek sec < t.sectors then pure (t.sect (seek sec)) else stop .read

def winode (inum : Nat) (ip : Dinode) : MkProg Unit := do
  let bn := IBLOCK inum
  let buf ← rsect bn
  wsect bn (Dinode.write buf (64 * (inum % IPB)) ip)
  modify fun t => { t with inodeWrites := seek bn :: t.inodeWrites }

def rinode (inum : Nat) : MkProg Dinode := do
  let buf ← rsect (IBLOCK inum)
  pure (Dinode.read buf (64 * (inum % IPB)))

def ialloc (type : Int16) : MkProg Nat := do
  let inum := (← get).freeinode
  modify fun t => { t with freeinode := t.freeinode + 1, inums := inum.toNat :: t.inums }
  winode inum.toNat { Dinode.zero with type := type, nlink := 1 }
  pure inum.toNat

def balloc (used : Int32) : MkProg Unit :=
  if used.toInt < BPB then
    wsect superblock.bmapstart ((List.range used.toInt.toNat).foldl setBit fun _ => 0)
  else
    stop .used

def newBlock : MkProg UInt32 := do
  let b := (← get).freeblock
  modify fun t => { t with freeblock := t.freeblock + 1 }
  pure b

def withAddr (din : Dinode) (k : Fin 13) : MkProg Dinode := do
  if din.addrs k = 0 then
    let b ← newBlock
    pure { din with addrs := Function.update din.addrs k b }
  else
    pure din

def entryFor (block j : Nat) : MkProg UInt32 := do
  let indirect ← rsect block
  if entry indirect j = 0 then
    let b ← newBlock
    wsect block (store32 indirect (4 * j) b)
    pure b
  else
    pure (entry indirect j)

def blockFor (din : Dinode) (fbn : Nat) : MkProg (UInt32 × Dinode) := do
  if direct : fbn < NDIRECT then
    let din ← withAddr din ⟨fbn, Nat.lt_succ_of_lt direct⟩
    pure (din.addrs ⟨fbn, Nat.lt_succ_of_lt direct⟩, din)
  else
    let din ← withAddr din 12
    let x ← entryFor (din.addrs 12).toNat (fbn - NDIRECT)
    pure (x, din)

def appendFrom : (rounds : Nat) → (p : List UInt8) → (off : Nat) → (din : Dinode) → MkProg (Nat × Dinode)
  | 0, _, off, din => pure (off, din)
  | rounds + 1, p, off, din => do
    if p = [] then
      pure (off, din)
    else
      let fbn := off / BSIZE
      if fbn < MAXFILE then
        let (x, din) ← blockFor din fbn
        let n1 := min p.length ((fbn + 1) * BSIZE - off)
        let buf ← rsect x.toNat
        wsect x.toNat (splice buf (off - fbn * BSIZE) n1 (chars p))
        appendFrom rounds (p.drop n1) (off + n1) din
      else
        stop .fbn

def iappend (inum : Nat) (p : List UInt8) : MkProg Unit := do
  let din ← rinode inum
  let (off, din) ← appendFrom p.length p din.size.toNat din
  winode inum { din with size := UInt32.ofNat off }

abbrev Chunk : Type := { bytes : List UInt8 // bytes ≠ [] ∧ bytes.length ≤ BSIZE }

/-- An argument: the path, and what the reads from the file return if it can be opened. -/
structure Source where
  path : FileSystem.Format.Path
  text : 0 ∉ path
  chunks : Option (List Chunk)

theorem letter_text : (0 : UInt8) ∉ [97] := by decide

/-- `"user/"` -/
def userDir : FileSystem.Format.Path := [117, 115, 101, 114, 47]

def shortname (path : FileSystem.Format.Path) : FileSystem.Format.Path := if path.take 5 = userDir then path.drop 5 else path

def skipUnderscore : FileSystem.Format.Path → Name
  | [] => []
  | c :: rest => if c = 95 then rest else c :: rest

def Source.name (src : Source) : Name := skipUnderscore (shortname src.path)

def direntBytes (e : Dirent) : List UInt8 := (List.range 16).map e.bytes

def addFile (rootino : Nat) (src : Source) : MkProg Unit := do
  if slash ∈ shortname src.path then
    stop .slashInName
  else
    match src.chunks with
    | none => stop (.noFile src.path)
    | some chunks =>
      if DIRSIZ < src.name.length then
        stop .longName
      else
        let inum ← ialloc T_FILE
        iappend rootino (direntBytes ⟨UInt16.ofNat inum, src.name⟩)
        chunks.forM fun chunk => iappend inum chunk.val

def roundUp (off : Nat) : Nat := (off / BSIZE + 1) * BSIZE

@[irreducible] def wipe (n : Nat) : MkProg Unit := (List.range n).forM fun i => wsect i fun _ => 0

def main (files : List Source) : MkProg Unit := do
  wipe FSSIZE
  wsect 1 superblockBytes
  let rootino ← ialloc T_DIR
  if rootino ≠ ROOTINO then
    stop .rootino
  else
    iappend rootino (direntBytes ⟨UInt16.ofNat rootino, dot⟩)
    iappend rootino (direntBytes ⟨UInt16.ofNat rootino, dotdot⟩)
    files.forM (addFile rootino)
    -- Fix the size of the root directory.
    let din ← rinode rootino
    winode rootino { din with size := UInt32.ofNat (roundUp din.size.toNat) }
    balloc (← get).freeblock.toInt32

def start : Img where
  sect := fun _ _ => 0
  sectors := 0
  freeinode := 1
  freeblock := UInt32.ofNat nmeta
  inums := []
  inodeWrites := []

end Xv6Monitor.Mkfs.Image
