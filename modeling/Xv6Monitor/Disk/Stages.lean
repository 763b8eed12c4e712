import Xv6Monitor.Disk.Sections

/-! What is known at each point of a commit, and that the steps of other processes do not disturb it. -/

namespace Xv6Monitor.Disk.Stages
open Process.Table Concurrent Holding Sections
open Buffers (NBUF ROOTDEV Handle)
open Journal (Block Log Layout readHead storeHead)

/-- `bread` has returned the buffer of block `n`, and it was not changed since it was read or recorded. -/
structure Has (c : Cache) (p : Slot) (b : Handle) (n : Nat) : Prop where
  caches : Caches c b n
  lock : (c.buf b).lock = some p
  valid : (c.buf b).valid = true
  settled : c.dirty b = false

def Gets (c : Cache) (p : Slot) (b : Handle) (n : Nat) : Prop :=
  c.pc p = .locking b n ∨ c.pc p = .filling b n ∨ c.pc p = .ready ∧ Has c p b n

structure Changed (c : Cache) (p : Slot) (b : Handle) (n : Nat) (data : Block) : Prop where
  caches : Caches c b n
  lock : (c.buf b).lock = some p
  valid : (c.buf b).valid = true
  data : (c.buf b).data = data

/-- The step leaves the process what it has, and `bread` goes on. -/
structure Follows (c c' : Cache) (p : Slot) : Prop where
  keeps : Keeps c c' p
  gets : ∀ b n, Gets c p b n → Gets c' p b n

def logBlock (log : Log) (i : Nat) : Nat := log.start + i + 1

/-- The contents of the disk as the processes see them: the log shows its own blocks. -/
def view (log : Log) (disk recorded : Nat → Block) (n : Nat) : Block := if log.home n then recorded n else disk n

/-- How many blocks `install_trans` has taken off the header. -/
def installed : Copying → Nat
  | .released _ => 1
  | _ => 0

def pinned (log : Log) : Job → List Nat
  | .install _ tail place => log.lh.drop (tail + installed place)
  | _ => log.lh

def written : Copying → Nat
  | .written _ _ | .released _ => 1
  | _ => 0

def copied (log : Log) : Job → Nat
  | .writeLog tail place => tail + written place
  | .writeHead _ | .install _ _ _ => log.lh.length
  | _ => 0

section Follows

variable {c c' : Cache} {p q : Slot} {b : Handle} {n : Nat}

theorem Has.keep (has : Has c p b n) (keeps : Keeps c c' p) : Has c' p b n := by
  obtain ⟨marks, _, same⟩ := keeps b has.lock has.valid
  refine ⟨?_, ?_, ?_, marks.trans has.settled⟩
  · rw [Caches, same]
    exact has.caches
  · rw [same]
    exact has.lock
  · rw [same]
    exact has.valid

theorem Changed.keep {data : Block} (changed : Changed c p b n data) (keeps : Keeps c c' p) : Changed c' p b n data := by
  obtain ⟨-, _, same⟩ := keeps b changed.lock changed.valid
  refine ⟨?_, ?_, ?_, ?_⟩
  · rw [Caches, same]
    exact changed.caches
  · rw [same]
    exact changed.lock
  · rw [same]
    exact changed.valid
  · rw [same]
    exact changed.data

theorem follows_other (keeps : Keeps c c' p) (place : c'.pc p = c.pc p) : Follows c c' p := by
  refine ⟨keeps, fun b n gets => ?_⟩
  unfold Gets at gets ⊢
  rw [place]
  exact gets.imp_right (Or.imp_right fun ⟨ready, has⟩ => ⟨ready, has.keep keeps⟩)

variable {view : Nat → Block} {pinned : List Nat}

theorem follows_acquiresleep (sound : Sound c view pinned) (done : c.acquiresleep q = some c') (p : Slot) : Follows c c' p := by
  obtain ⟨-, others, keeps, b, n, place, caches, lock, settled, state⟩ := acquiresleep_sound sound done
  by_cases mine : p = q
  · subst mine
    refine ⟨keeps p, fun b' n' gets => ?_⟩
    rcases gets with waits | reads | ⟨ready, -⟩
    · obtain ⟨rfl, rfl⟩ := Pc.locking.inj (place.symm.trans waits)
      rcases state with ⟨ready, valid⟩ | reads
      · exact Or.inr (Or.inr ⟨ready, caches, lock, valid, settled⟩)
      · exact Or.inr (Or.inl reads)
    · exact nomatch place.symm.trans reads
    · exact nomatch place.symm.trans ready
  · exact follows_other (keeps p) (others p mine)

theorem follows_fill {disk : Nat → Block} (sound : Sound c view pinned) (clean : ∀ m, m ∉ pinned → view m = disk m)
    (done : c.fill disk q = some c') (p : Slot) : Follows c c' p := by
  obtain ⟨-, others, keeps, b, n, place, ready, caches, lock, valid, settled⟩ := fill_sound sound clean done
  by_cases mine : p = q
  · subst mine
    refine ⟨keeps p, fun b' n' gets => ?_⟩
    rcases gets with waits | reads | ⟨before, -⟩
    · exact nomatch place.symm.trans waits
    · obtain ⟨rfl, rfl⟩ := Pc.filling.inj (place.symm.trans reads)
      exact Or.inr (Or.inr ⟨ready, caches, lock, valid, settled⟩)
    · exact nomatch place.symm.trans before
  · exact follows_other (keeps p) (others p mine)

theorem follows_drop (sound : Sound c view pinned) (done : c.drop q = some c') (p : Slot) : Follows c c' p := by
  obtain ⟨-, others, keeps, -⟩ := drop_sound sound done
  by_cases mine : p = q
  · subst mine
    refine ⟨keeps p, fun b n gets => ?_⟩
    obtain ⟨b', place⟩ : ∃ b', c.pc p = .dropping b' := by
      unfold Cache.drop at done
      cases place : c.pc p with
      | dropping b' => exact ⟨b', rfl⟩
      | _ =>
        rw [place] at done
        exact nomatch done
    rcases gets with waits | reads | ⟨ready, -⟩
    · exact nomatch place.symm.trans waits
    · exact nomatch place.symm.trans reads
    · exact nomatch place.symm.trans ready
  · exact follows_other (keeps p) (others p mine)

end Follows

/-- What is known in an iteration of `write_log` for the block `n` of the header. -/
def Writing (c : Cache) (w : Slot) (l n : Nat) (data : Block) : Copying → Prop
  | .start => True
  | .first x => Gets c w x l
  | .both x y => Has c w x l ∧ Gets c w y n
  | .copied x y => Changed c w x l data ∧ Has c w y n
  | .written x y => Has c w x l ∧ Has c w y n
  | .released x => Has c w x l

def Installing (c : Cache) (w : Slot) (l n : Nat) (data home : Block) : Copying → Prop
  | .start => True
  | .first x => Gets c w x l
  | .both x y => Has c w x l ∧ Gets c w y n
  | .copied x y => Has c w x l ∧ Changed c w y n data
  | .written x y => Has c w x l ∧ Has c w y n ∧ home = data
  | .released y => Has c w y n

def Heads (c : Cache) (w : Slot) (n : Nat) : Heading → Prop
  | .start => True
  | .first b => Gets c w b n
  | .filled b => ∃ data, Changed c w b n data
  | .written b => Has c w b n

def Within (lh : List Nat) (tail : Nat) : Copying → Prop
  | .start => True
  | _ => tail < lh.length

/-- What is known at each point of the commit and of the recovery. -/
def Stage (c : Cache) (log : Log) (disk recorded : Nat → Block) (w : Slot) : Job → Prop
  | .idle => True
  | .readHead => log.lh = [] ∧ readHead (disk log.start) = []
  | .loadHead b => log.lh = [] ∧ readHead (disk log.start) = [] ∧ Gets c w b log.start
  | .commit => True
  | .writeLog tail place => Within log.lh tail place ∧ tail ≤ log.lh.length ∧
      Writing c w (logBlock log tail) (log.lh.getD tail 0) (recorded (log.lh.getD tail 0)) place
  | .writeHead place => Heads c w log.start place
  | .install recovering tail place => (recovering = true → log.lh = []) ∧ Within log.lh tail place ∧ tail ≤ log.lh.length ∧
      Installing c w (logBlock log tail) (log.lh.getD tail 0) (recorded (log.lh.getD tail 0)) (disk (log.lh.getD tail 0)) place
  | .erase _ place => log.lh = [] ∧ Heads c w log.start place
  | .finish => log.lh = []

section Follow

variable {c c' : Cache} {w : Slot} {log : Log} {disk recorded : Nat → Block}

theorem Writing.follow {l n : Nat} {data : Block} {place : Copying} (writing : Writing c w l n data place)
    (follows : Follows c c' w) : Writing c' w l n data place := by
  cases place with
  | start => trivial
  | first x => exact follows.gets _ _ writing
  | both x y => exact ⟨writing.1.keep follows.keeps, follows.gets _ _ writing.2⟩
  | copied x y => exact ⟨writing.1.keep follows.keeps, writing.2.keep follows.keeps⟩
  | written x y => exact ⟨writing.1.keep follows.keeps, writing.2.keep follows.keeps⟩
  | released x => exact Has.keep writing follows.keeps

theorem Installing.follow {l n : Nat} {data home : Block} {place : Copying} (installing : Installing c w l n data home place)
    (follows : Follows c c' w) : Installing c' w l n data home place := by
  cases place with
  | start => trivial
  | first x => exact follows.gets _ _ installing
  | both x y => exact ⟨installing.1.keep follows.keeps, follows.gets _ _ installing.2⟩
  | copied x y => exact ⟨installing.1.keep follows.keeps, installing.2.keep follows.keeps⟩
  | written x y => exact ⟨installing.1.keep follows.keeps, installing.2.1.keep follows.keeps, installing.2.2⟩
  | released x => exact Has.keep installing follows.keeps

theorem Heads.follow {n : Nat} {place : Heading} (heads : Heads c w n place) (follows : Follows c c' w) : Heads c' w n place := by
  cases place with
  | start => trivial
  | first b => exact follows.gets _ _ heads
  | filled b =>
    obtain ⟨data, changed⟩ := heads
    exact ⟨data, changed.keep follows.keeps⟩
  | written b => exact Has.keep heads follows.keeps

theorem Stage.follow {job : Job} (stage : Stage c log disk recorded w job) (follows : Follows c c' w) :
    Stage c' log disk recorded w job := by
  cases job with
  | idle => trivial
  | readHead => exact stage
  | loadHead _ => exact ⟨stage.1, stage.2.1, follows.gets _ _ stage.2.2⟩
  | commit => trivial
  | writeLog tail place => exact ⟨stage.1, stage.2.1, stage.2.2.follow follows⟩
  | writeHead place => exact Heads.follow stage follows
  | install recovering tail place => exact ⟨stage.1, stage.2.1, stage.2.2.1, stage.2.2.2.follow follows⟩
  | erase recovering place => exact ⟨stage.1, Heads.follow stage.2 follows⟩
  | finish => exact stage

end Follow

end Xv6Monitor.Disk.Stages
