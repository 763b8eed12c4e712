import Mathlib.Data.Fintype.Basic
import Xv6Monitor.Disk.Buffers
import Xv6Monitor.Lib.Bytes

/-! The format of the file system on disk, `kernel/fs.h`: where the super block puts things, and how an
inode, a bit of the free map and a directory entry are laid out in a block. -/

namespace Xv6Monitor.FileSystem.Format
open Lib.Bytes

/-- `kernel/fs.h` -/
def ROOTINO : Nat := 1
def BSIZE : Nat := 1024
def NDIRECT : Nat := 12
def NINDIRECT : Nat := 256
def MAXFILE : Nat := NDIRECT + NINDIRECT
def DIRSIZ : Nat := 14

def IPB : Nat := 16

def BPB : Nat := BSIZE * 8

/-- `kernel/stat.h` -/
def T_DIR : Int16 := 1
def T_FILE : Int16 := 2
def T_DEVICE : Int16 := 3

/-- `struct superblock`, with what `mkfs` sees to: the free map lies behind the inodes, the data behind the free
map, and block numbers fit an `int`. -/
class Superblock where
  size : Nat
  ninodes : Nat
  nlog : Nat
  logstart : Nat
  inodestart : Nat
  bmapstart : Nat
  bmap_after : inodestart + ninodes / IPB + 1 ≤ bmapstart
  data_after : bmapstart + size / BPB + 1 ≤ size
  size_small : size < 2 ^ 31

section Geometry

variable [sb : Superblock]

def IBLOCK (i : Nat) : Nat := i / IPB + sb.inodestart

def BBLOCK (b : Nat) : Nat := b / BPB + sb.bmapstart

/-- The end of the metadata area: `mkfs` gives the free map `size / BPB + 1` blocks. -/
def datastart : Nat := sb.bmapstart + sb.size / BPB + 1

end Geometry

@[ext] structure Dinode where
  type : Int16
  major : Int16
  minor : Int16
  nlink : Int16
  size : UInt32
  addrs : Fin 13 → UInt32

instance addrs_nonempty : NeZero 13 := ⟨by decide⟩

def Dinode.zero : Dinode := ⟨0, 0, 0, 0, 0, fun _ => 0⟩

def Dinode.read (b : Data) (o : Nat) : Dinode where
  type := (load16 b o).toInt16
  major := (load16 b (o + 2)).toInt16
  minor := (load16 b (o + 4)).toInt16
  nlink := (load16 b (o + 6)).toInt16
  size := load32 b (o + 8)
  addrs := fun k => load32 b (o + 12 + 4 * k)

def digit (v k : Nat) : UInt8 := UInt8.ofNat (v / 256 ^ k)

def Dinode.bytes (n : Dinode) : Data := fun i =>
  if i < 2 then digit n.type.toUInt16.toNat i
  else if i < 4 then digit n.major.toUInt16.toNat (i - 2)
  else if i < 6 then digit n.minor.toUInt16.toNat (i - 4)
  else if i < 8 then digit n.nlink.toUInt16.toNat (i - 6)
  else if i < 12 then digit n.size.toNat (i - 8)
  else if inside : (i - 12) / 4 < 13 then digit (n.addrs ⟨(i - 12) / 4, inside⟩).toNat ((i - 12) % 4)
  else 0

def Dinode.write (b : Data) (o : Nat) (n : Dinode) : Data := splice b o 64 n.bytes

def bit (b : Data) (n : Nat) : Bool := (b (n / 8)).toNat.testBit (n % 8)

def setBit (b : Data) (n : Nat) : Data :=
  Function.update b (n / 8) (UInt8.ofNat ((b (n / 8)).toNat ||| 1 <<< (n % 8)))

/-- `data[n/8] &= ~(1 << (n%8))` -/
def clearBit (b : Data) (n : Nat) : Data :=
  Function.update b (n / 8) (UInt8.ofNat ((b (n / 8)).toNat - ((b (n / 8)).toNat &&& 1 <<< (n % 8))))

/-- The bytes of a file name up to the terminating null byte, at most `DIRSIZ`. -/
abbrev Name : Type := List UInt8

structure Dirent where
  inum : UInt16
  name : Name
  deriving DecidableEq

def Dirent.read (b : Data) : Dirent where
  inum := load16 b 0
  name := ((List.range DIRSIZ).map fun i => b (2 + i)).takeWhile (· ≠ 0)

/-- The entry as `strncpy` fills it in, padded with null bytes. -/
def Dirent.bytes (e : Dirent) : Data := fun i => if i < 2 then digit e.inum.toNat i else (e.name[i - 2]?).getD 0

/-- The characters of a string, and the null bytes that end it. -/
def chars (s : List UInt8) : Data := fun i => (s[i]?).getD 0

/-- `kernel/string.c` -/
def strncmp : (n : Nat) → (p q : Data) → Int
  | 0, _, _ => 0
  | n + 1, p, q =>
    if p 0 ≠ 0 ∧ p 0 = q 0 then strncmp n (fun i => p (i + 1)) (fun i => q (i + 1)) else (p 0).toNat - (q 0).toNat

def namecmp (s t : Name) : Int := strncmp DIRSIZ (chars s) (chars t)

/-- A null-terminated string, without the null byte. -/
abbrev Path : Type := List UInt8

def slash : UInt8 := 47

/-- The path that follows the first element, and that element. -/
def skipelem (path : Path) : Option (Path × Name) :=
  match path.dropWhile (· = slash) with
  | [] => none
  | path => some ((path.dropWhile (· ≠ slash)).dropWhile (· = slash), (path.takeWhile (· ≠ slash)).take DIRSIZ)

/-- The elements that repeated calls of `skipelem` take off a path. -/
def elements : (calls : Nat) → Path → List Name
  | 0, _ => []
  | calls + 1, path =>
    match skipelem path with
    | none => []
    | some (rest, name) => name :: elements calls rest

def Path.elements (path : Path) : List Name := Format.elements path.length path

def dot : Name := [46]

def dotdot : Name := [46, 46]

end Xv6Monitor.FileSystem.Format
