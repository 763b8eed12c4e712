import Xv6Monitor.Lib.Redo
import Xv6Monitor.Disk.Journal

/-! What one iteration of `write_log`, `install_trans` and the header functions does to the disk and
the cache, and what the log on disk stands for: the home locations as `recover_from_log` would
leave them. -/

namespace Xv6Monitor.Disk.Replay
open Function Lib.Redo Buffers Journal

variable {s t : Sys} {view : Nat → Block} {pinned : List Nat} {tail n : Nat}

def entries (log : Log) (disk : Nat → Block) : List (Nat × Block) :=
  (readHead (disk log.start)).mapIdx fun i n => (n, disk (log.start + i + 1))

def recovered (log : Log) (disk : Nat → Block) : Nat → Block := write (entries log disk) disk

theorem writeHead_spec (sound : Sound s.cache view pinned) (clean : ∀ m, m ∉ pinned → view m = s.disk m)
    (done : writeHead s = some t) :
    ∃ cache, t = { s with
        disk := update s.disk s.log.start (storeHead s.log.lh (view s.log.start)), cache := cache } ∧
      Sound cache (update view s.log.start (storeHead s.log.lh (view s.log.start))) pinned := by
  simp only [writeHead, Option.bind_eq_bind, Option.bind_eq_some_iff, Prod.exists, Option.some.injEq] at done
  obtain ⟨_, _, read, disk, written, last, released, rfl⟩ := done
  obtain ⟨sound, holds, -⟩ := bread_sound sound clean read
  rw [holds.data] at written released
  obtain ⟨moved, held⟩ := memmove_sound sound holds (storeHead s.log.lh (view s.log.start))
  simp only [bwrite, held.lock, if_true, Option.some.injEq, held.caches.blockno, held.data] at written
  obtain ⟨cache, result, kept, -⟩ := brelse_sound moved held
  rw [result] at released
  cases released
  exact ⟨last, by rw [← written], kept⟩

theorem readHeadBlock_spec (sound : Sound s.cache view pinned) (clean : ∀ m, m ∉ pinned → view m = s.disk m)
    (done : readHeadBlock s = some t) :
    ∃ cache, t = { s with cache := cache, log := { s.log with lh := readHead (view s.log.start) } } ∧
      Sound cache view pinned := by
  simp only [readHeadBlock, Option.bind_eq_bind, Option.bind_eq_some_iff, Prod.exists, Option.some.injEq] at done
  obtain ⟨_, _, read, last, released, rfl⟩ := done
  obtain ⟨sound, holds, -⟩ := bread_sound sound clean read
  obtain ⟨cache, result, kept, -⟩ := brelse_sound sound holds
  rw [result] at released
  cases released
  exact ⟨last, by rw [holds.data], kept⟩

theorem writeLogBlock_spec (sound : Sound s.cache view pinned) (clean : ∀ m, m ∉ pinned → view m = s.disk m)
    (done : writeLogBlock s tail n = some t) :
    ∃ cache, t = { s with
        disk := update s.disk (s.log.start + tail + 1) (view n), cache := cache } ∧
      Sound cache (update view (s.log.start + tail + 1) (view n)) pinned := by
  simp only [writeLogBlock, Option.bind_eq_bind, Option.bind_eq_some_iff, Prod.exists, Option.some.injEq] at done
  obtain ⟨dst, _, readDst, src, second, readSrc, disk, written, _, releasedSrc, last, releasedDst, rfl⟩ := done
  obtain ⟨sound, holdsDst, -⟩ := bread_sound sound clean readDst
  obtain ⟨sound, holdsSrc, frame⟩ := bread_sound sound clean readSrc
  obtain ⟨other, same⟩ := frame dst (by simp [holdsDst.lock])
  have holdsDst := holdsDst.stays same
  rw [holdsSrc.data] at written releasedSrc
  obtain ⟨moved, held⟩ := memmove_sound sound holdsDst (view n)
  simp only [bwrite, held.lock, if_true, Option.some.injEq, held.caches.blockno, held.data] at written
  have holdsSrc : Holds (memmove second dst (view n)) s.worker src n (view n) :=
    holdsSrc.stays (by simp [memmove, Ne.symm other])
  obtain ⟨_, result, kept, rest⟩ := brelse_sound moved holdsSrc
  rw [result] at releasedSrc
  cases releasedSrc
  obtain ⟨cache, result, kept, -⟩ := brelse_sound kept (held.stays (rest dst other))
  rw [result] at releasedDst
  cases releasedDst
  exact ⟨last, by rw [← written], kept⟩

theorem installBlock_spec (recovering : Bool) (rest : List Nat) (sound : Sound s.cache view pinned)
    (clean : ∀ m, m ∉ pinned → view m = s.disk m) (pins : pinned = if recovering then rest else n :: rest)
    (loose : n ∉ rest) (done : installBlock s recovering tail n = some t) :
    ∃ cache, t = { s with
        disk := update s.disk n (view (s.log.start + tail + 1)), cache := cache } ∧
      Sound cache (update view n (view (s.log.start + tail + 1))) rest := by
  simp only [installBlock, Option.bind_eq_bind, Option.bind_eq_some_iff, Prod.exists, Option.some.injEq] at done
  obtain ⟨lbuf, _, readLog, dbuf, second, readHome, disk, written, _, releasedLog, last, releasedHome, rfl⟩ := done
  obtain ⟨sound, holdsLog, -⟩ := bread_sound sound clean readLog
  obtain ⟨sound, holdsHome, frame⟩ := bread_sound sound clean readHome
  obtain ⟨other, same⟩ := frame lbuf (by simp [holdsLog.lock])
  have holdsLog := holdsLog.stays same
  rw [holdsLog.data] at written releasedLog
  obtain ⟨moved, held⟩ := memmove_sound sound holdsHome (view (s.log.start + tail + 1))
  simp only [bwrite, held.lock, if_true, Option.some.injEq, held.caches.blockno, held.data] at written
  have holdsLog : Holds (memmove second dbuf (view (s.log.start + tail + 1))) s.worker lbuf (s.log.start + tail + 1)
      (view (s.log.start + tail + 1)) := holdsLog.stays (by simp [memmove, other])
  -- the pin goes, or there was none
  obtain ⟨loosened, pinsGone, holdsHome, holdsLog⟩ :
      ∃ loosened, (if recovering then memmove second dbuf (view (s.log.start + tail + 1))
          else bunpin (memmove second dbuf (view (s.log.start + tail + 1))) dbuf) = loosened ∧
        (Sound loosened (update view n (view (s.log.start + tail + 1))) rest ∧
          Holds loosened s.worker dbuf n (view (s.log.start + tail + 1))) ∧
        Holds loosened s.worker lbuf (s.log.start + tail + 1) (view (s.log.start + tail + 1)) := by
    cases recovering with
    | true =>
      obtain rfl : pinned = rest := pins
      exact ⟨_, rfl, ⟨moved, held⟩, holdsLog⟩
    | false =>
      obtain rfl : pinned = n :: rest := pins
      exact ⟨_, rfl, bunpin_sound moved held loose, holdsLog.stays (by simp [bunpin, other])⟩
  rw [pinsGone] at releasedLog
  obtain ⟨_, result, kept, frame⟩ := brelse_sound holdsHome.1 holdsLog
  rw [result] at releasedLog
  cases releasedLog
  obtain ⟨cache, result, kept, -⟩ := brelse_sound kept (holdsHome.2.stays (frame dbuf (Ne.symm other)))
  rw [result] at releasedHome
  cases releasedHome
  exact ⟨last, by rw [← written], kept⟩

section Entries

variable {log : Log} {disk : Nat → Block}

/-- Block numbers that a header may hold: the log has room for them, they lie outside it, and none
is there twice. -/
structure Placed (log : Log) (blocks : List Nat) : Prop where
  short : blocks.length < log.size
  home : ∀ n ∈ blocks, log.home n
  distinct : blocks.Nodup

theorem mem_entries {w : Nat × Block} : w ∈ entries log disk ↔
    ∃ i, (readHead (disk log.start))[i]? = some w.1 ∧ w.2 = disk (log.start + i + 1) := by
  simp only [entries, List.mem_mapIdx]
  constructor
  · rintro ⟨i, inside, rfl⟩
    exact ⟨i, List.getElem?_eq_getElem inside, rfl⟩
  · rintro ⟨i, found, value⟩
    obtain ⟨inside, same⟩ := List.getElem?_eq_some_iff.mp found
    exact ⟨i, inside, Prod.ext same value.symm⟩

theorem entries_nil (empty : readHead (disk log.start) = []) : entries log disk = [] := by
  simp [entries, empty]

theorem recovered_nil (empty : readHead (disk log.start) = []) : recovered log disk = disk := by
  rw [recovered, entries_nil empty, write_nil]

theorem entries_update (data : Block) (apart : n ≠ log.start)
    (unused : ∀ i, i < (readHead (disk log.start)).length → n ≠ log.start + i + 1) :
    entries log (update disk n data) = entries log disk := by
  unfold entries
  rw [update_of_ne apart.symm]
  apply List.ext_getElem
  · simp
  · intro i first second
    simp only [List.length_mapIdx] at first
    simp [update_of_ne (unused i first).symm]

theorem entries_home (data : Block) (placed : Placed log (readHead (disk log.start))) (home : log.home n) :
    entries log (update disk n data) = entries log disk := by
  have short := placed.short
  unfold Log.home at home
  refine entries_update data ?_ fun i inside => ?_ <;> omega

theorem recovered_install {w : Nat × Block} (placed : Placed log (readHead (disk log.start)))
    (mem : w ∈ entries log disk) : recovered log (update disk w.1 w.2) = recovered log disk := by
  obtain ⟨_, found, -⟩ := mem_entries.mp mem
  unfold recovered
  rw [entries_home _ placed (placed.home w.1 (List.mem_of_getElem? found)), write_update mem]

end Entries

end Xv6Monitor.Disk.Replay
