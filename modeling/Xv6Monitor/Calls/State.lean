import Xv6Monitor.FileSystem.Inodes
import Xv6Monitor.Memory.Tables

/-! The state that system calls work on: memory, the file system, the file table and the processes. -/

namespace Xv6Monitor.Calls.State
open Function Lib.Bytes Lib.Program Stops Process.Table Memory.Frames FileSystem.Blocks

/-- `kernel/param.h` -/
def NOFILE : Nat := 16
def NFILE : Nat := 100
def NDEV : Nat := 10
def MAXARG : Nat := 32
def USERSTACK : Nat := 1

abbrev Fp : Type := Fin NFILE

inductive FileType where
  | none
  | pipe
  | inode
  | device
  deriving DecidableEq, Repr

structure File where
  type : FileType
  ref : Int
  readable : Bool
  writable : Bool
  /-- The page that holds the `struct pipe`. -/
  pipe : Nat
  ip : Option Ip
  off : Nat
  major : Int16

/-- The fields of `struct proc` that the calls use. `0` is the null pointer. -/
structure Proc where
  state : Procstate
  pid : Nat
  parent : Option Slot
  xstate : Int
  sz : Nat
  pagetable : Nat
  trapframe : Nat
  ofile : Fin NOFILE → Option Fp
  cwd : Option Ip
  /-- The string in the field, without its null byte. -/
  name : List UInt8

structure Kernel where
  ram : Ram
  fs : Fs
  file : Fp → File
  proc : Slot → Proc
  initproc : Option Slot
  nextpid : Nat

abbrev KProg (α : Type) : Type := Prog Halt Kernel α

def ramPart : Part Kernel Ram := ⟨Kernel.ram, fun k m => { k with ram := m }⟩

def fsPart : Part Kernel Fs := ⟨Kernel.fs, fun k s => { k with fs := s }⟩

def onRam {α : Type} (x : Prog Halt Ram α) : KProg α := ramPart.run id x

def onFs {α : Type} (x : FsProg α) : KProg α := fsPart.run .fs x

def setProc (p : Slot) (f : Proc → Proc) : KProg Unit :=
  modify fun k => { k with proc := update k.proc p (f (k.proc p)) }

def setFile (f : Fp) (g : File → File) : KProg Unit :=
  modify fun k => { k with file := update k.file f (g (k.file f)) }

def setFd (p : Slot) (fd : Fin NOFILE) (f : Option Fp) : KProg Unit :=
  setProc p fun q => { q with ofile := update q.ofile fd f }

/-- The layout of `struct pipe` in its page. -/
def PIPESIZE : Nat := 512
def pipeData : Nat := 24
def pipeNread : Nat := 536
def pipeNwrite : Nat := 540
def pipeReadopen : Nat := 544
def pipeWriteopen : Nat := 548

def pipeField (k : Kernel) (pi o : Nat) : Nat := load 4 (k.ram.page pi) o

def setPage (pa : Nat) (f : Data → Data) : KProg Unit :=
  modify fun k => { k with ram := { k.ram with page := update k.ram.page pa (f (k.ram.page pa)) } }

def setPipeField (pi o v : Nat) : KProg Unit := setPage pi fun b => store 4 b o v

def Kernel.withFd (k : Kernel) (p : Slot) (fd : Fin NOFILE) (v : Option Fp) : Kernel :=
  { k with proc := update k.proc p { k.proc p with ofile := update (k.proc p).ofile fd v } }

def Kernel.withRef (k : Kernel) (f : Fp) (r : Int) : Kernel :=
  { k with file := update k.file f { k.file f with ref := r } }

theorem Kernel.withRef_type (k : Kernel) (f : Fp) (r : Int) (g : Fp) : ((k.withRef f r).file g).type = (k.file g).type := by
  by_cases here : g = f <;> simp [Kernel.withRef, here]

theorem Kernel.withRef_self (k : Kernel) (f : Fp) (r : Int) : ((k.withRef f r).file f).ref = r := by
  simp [Kernel.withRef]

theorem Kernel.withRef_other {k : Kernel} {f g : Fp} {r : Int} (apart : g ≠ f) :
    ((k.withRef f r).file g).ref = (k.file g).ref := by
  simp [Kernel.withRef, apart]

/-- Only memory, files and the file system were changed. -/
structure Aside (k t : Kernel) : Prop where
  proc : t.proc = k.proc
  initproc : t.initproc = k.initproc

theorem Aside.refl (k : Kernel) : Aside k k := ⟨rfl, rfl⟩

theorem Aside.trans {k t u : Kernel} (first : Aside k t) (second : Aside t u) : Aside k u :=
  ⟨second.proc.trans first.proc, second.initproc.trans first.initproc⟩

section Rules

variable {α : Type} {E : Halt → Prop} {k : Kernel} {g : Unit → KProg α} {Q : α → Kernel → Prop} {R : Unit → Kernel → Prop}

@[simp] theorem ends_setProc_bind {p : Slot} {f : Proc → Proc} :
    Ends E (setProc p f >>= g) k Q ↔ Ends E (g ()) { k with proc := update k.proc p (f (k.proc p)) } Q := Iff.rfl

@[simp] theorem ends_setFile_bind {f : Fp} {h : File → File} :
    Ends E (setFile f h >>= g) k Q ↔ Ends E (g ()) { k with file := update k.file f (h (k.file f)) } Q := Iff.rfl

@[simp] theorem ends_setFile {f : Fp} {h : File → File} :
    Ends E (setFile f h) k R ↔ R () { k with file := update k.file f (h (k.file f)) } := Iff.rfl

@[simp] theorem ends_setPage_bind {pa : Nat} {f : Data → Data} :
    Ends E (setPage pa f >>= g) k Q ↔
      Ends E (g ()) { k with ram := { k.ram with page := update k.ram.page pa (f (k.ram.page pa)) } } Q := Iff.rfl

@[simp] theorem ends_setFd_bind {p : Slot} {fd : Fin NOFILE} {v : Option Fp} :
    Ends E (setFd p fd v >>= g) k Q ↔ Ends E (g ()) (k.withFd p fd v) Q := Iff.rfl

@[simp] theorem ends_setFd {p : Slot} {fd : Fin NOFILE} {v : Option Fp} :
    Ends E (setFd p fd v) k R ↔ R () (k.withFd p fd v) := Iff.rfl

theorem ends_onRam {x : Prog Halt Ram α} :
    Ends E (onRam x) k Q ↔ Ends E x k.ram fun a m => Q a { k with ram := m } := Part.ends

theorem ends_onRam_bind {β : Type} {x : Prog Halt Ram β} {f : β → KProg α} :
    Ends E (onRam x >>= f) k Q ↔ Ends E x k.ram fun b m => Ends E (f b) { k with ram := m } Q :=
  ends_bind.trans ends_onRam

theorem ends_onFs {x : FsProg α} :
    Ends E (onFs x) k Q ↔ Ends (fun e => E (.fs e)) x k.fs fun a s => Q a { k with fs := s } := Part.ends

theorem ends_onFs_bind {β : Type} {x : FsProg β} {f : β → KProg α} :
    Ends E (onFs x >>= f) k Q ↔ Ends (fun e => E (.fs e)) x k.fs fun b s => Ends E (f b) { k with fs := s } Q :=
  ends_bind.trans ends_onFs

theorem onFs_any {x : FsProg α} (stops : ∀ e, E (.fs e)) (next : ∀ a s, Q a { k with fs := s }) : Ends E (onFs x) k Q :=
  ends_onFs.mpr (ends_of (fun a s _ => next a s) fun e _ => stops e)

theorem onFs_any_bind {β : Type} {x : FsProg β} {f : β → KProg α} (stops : ∀ e, E (.fs e))
    (next : ∀ b s, Ends E (f b) { k with fs := s } Q) : Ends E (onFs x >>= f) k Q :=
  ends_onFs_bind.mpr (ends_of (fun b s _ => next b s) fun e _ => stops e)

end Rules

end Xv6Monitor.Calls.State
