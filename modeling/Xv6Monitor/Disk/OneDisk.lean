import Xv6Monitor.Disk.Progress

/-! The buffer cache and the log present one disk: every `bread` returns what was last recorded for its block. -/

namespace Xv6Monitor.Disk.OneDisk
open Function Lib.Links Lib.Program Lib.Tally Lib.Transition Process.Table Concurrent Holding Sections Stages Coherence Progress
open Buffers (NBUF ROOTDEV Handle)
open Journal (Block Log Layout readHead)

variable {layout : Layout} {s t : Sys} {recorded : Nat → Block} {p : Slot} {b : Handle} {n : Nat} {a : Action}

theorem sound_binit (view : Nat → Block) : Sound binit view [] where
  listed := listed_binit
  devs b := Or.inl rfl
  unique a b n cached := nomatch cached.1
  counted b := by
    have none : tally (fun p => counts (binit.pc p)) b = 0 := by
      rw [tally_apply]
      simp [binit, counts]
    rw [references, none]
    rfl
  kept n mem := nomatch mem
  content b n cached := nomatch cached.1
  rooted p b counted := nomatch counted
  locking p b n waits := nomatch waits
  filling p b n reads := nomatch reads
  locked b p locked := nomatch locked
  dirtied b dirty := nomatch dirty

theorem boot_coherent (start : Clean layout) : Coherent layout (boot layout start.disk) start.disk where
  start := rfl
  size := rfl
  home _ mem := nomatch mem
  nodup := List.nodup_nil
  short := Nat.zero_le _
  outstanding := rfl
  quiet _ := rfl
  committing := rfl
  sound := sound_binit _
  clean _ _ _ := rfl
  copies i less := absurd less (Nat.not_lt_zero i)
  stage := ⟨rfl, start.clean⟩

inductive Acts (s : Sys) : Action → Sys → Prop where
  | beginOp {q log} (idle : s.idle q) (begun : s.log.beginOp = some log) :
      Acts s (.beginOp q) { s with log := log, ops := q :: s.ops }
  | bread {q m} (idle : s.idle q) : Acts s (.bread q m) (s.exec do let _ ← bget q m)
  | acquiresleep {q cache} (taken : s.cache.acquiresleep q = some cache) : Acts s (.acquiresleep q) { s with cache := cache }
  | fill {q cache} (filled : s.cache.fill s.disk q = some cache) : Acts s (.fill q) { s with cache := cache }
  | change {q d data} (idle : s.idle q) (holds : s.holds q d) :
      Acts s (.change q d data) { s with cache := s.cache.memmove d data }
  | logWrite {q d} (idle : s.idle q) (mem : q ∈ s.ops) (holds : s.holds q d) :
      Acts s (.logWrite q d) (s.exec (Concurrent.logWrite d))
  | brelse {q d} (idle : s.idle q) (locked : (s.cache.buf d).lock = some q) (settled : s.cache.dirty d = false) :
      Acts s (.brelse q d) (s.exec (Concurrent.brelse q d))
  | drop {q cache} (dropped : s.cache.drop q = some cache) : Acts s (.drop q) { s with cache := cache }
  | endOp {q log doCommit} (mem : q ∈ s.ops) (ended : s.log.endOp = .ok (log, doCommit)) :
      Acts s (.endOp q) { s with
        log := log, ops := s.ops.erase q, worker := if doCommit then q else s.worker
        job := if doCommit then .commit else s.job }
  | stuck {q reason} : Acts s (.endOp q) { s with panicked := some (.log reason) }
  | work (ready : s.cache.pc s.worker = .ready) : Acts s .work (s.exec (Concurrent.work s.job))

theorem act_acts (done : act s a = some t) : Acts s a t := by
  cases a <;> simp only [act, Option.ite_none_right_eq_some, Option.map_eq_some_iff, Option.some.injEq] at done
  case beginOp =>
    obtain ⟨⟨idle, -⟩, _, begun, rfl⟩ := done
    exact .beginOp idle begun
  case bread =>
    obtain ⟨idle, rfl⟩ := done
    exact .bread idle
  case acquiresleep =>
    obtain ⟨_, taken, rfl⟩ := done
    exact .acquiresleep taken
  case fill =>
    obtain ⟨_, filled, rfl⟩ := done
    exact .fill filled
  case change =>
    obtain ⟨⟨idle, -, holds⟩, rfl⟩ := done
    exact .change idle holds
  case logWrite =>
    obtain ⟨⟨idle, mem, holds⟩, rfl⟩ := done
    exact .logWrite idle mem holds
  case brelse =>
    obtain ⟨⟨idle, locked, settled⟩, rfl⟩ := done
    exact .brelse idle locked settled
  case drop =>
    obtain ⟨_, dropped, rfl⟩ := done
    exact .drop dropped
  case endOp =>
    obtain ⟨⟨-, mem, -⟩, done⟩ := done
    split at done
    next ended =>
      cases done
      exact .endOp mem ended
    next =>
      cases done
      exact .stuck
  case work =>
    obtain ⟨⟨ready, -⟩, rfl⟩ := done
    exact .work ready

variable (inv : Coherent layout s recorded)
include inv

theorem act_coherent (alive : s.panicked = none) (done : act s a = some t) :
    Coherent layout t (record s a t recorded) := by
  cases act_acts done with
  | beginOp idle begun => exact coherent_beginOp inv idle begun
  | bread idle => exact coherent_bread inv idle
  | acquiresleep taken => exact coherent_acquiresleep inv taken
  | fill filled => exact coherent_fill inv filled
  | change idle holds => exact coherent_change inv idle holds.1 _
  | logWrite idle mem holds => exact coherent_logWrite inv alive idle mem holds
  | brelse idle locked settled => exact coherent_brelse inv idle locked settled
  | drop dropped => exact coherent_drop inv dropped
  | endOp mem ended => exact coherent_endOp inv mem ended
  | stuck =>
    exact ⟨inv.start, inv.size, inv.home, inv.nodup, inv.short, inv.outstanding, inv.quiet, inv.committing, inv.sound,
      inv.clean, inv.copies, inv.stage⟩
  | work ready => exact exec_coherent inv (work_coherent inv ready) fun _ _ => rfl

omit inv

def history {start : Clean layout} (run : Run (machine layout start) s) : Nat → Block := run.fold record start.disk

theorem step_act (moved : step s a = some t) : s.panicked = none ∧ act s a = some t := by
  unfold step at moved
  split at moved
  next alive => exact ⟨alive, moved⟩
  · exact nomatch moved

theorem run_coherent {start : Clean layout} (run : Run (machine layout start) s) : Coherent layout s (history run) := by
  refine run.fold_invariant (I := fun s recorded => Coherent layout s recorded) ?_ (boot_coherent start)
  intro s a t recorded moved inv
  obtain ⟨alive, done⟩ := step_act moved
  exact act_coherent inv alive done

def Still (s t : Sys) : Prop :=
  ∀ b, (t.cache.buf b).dev = (s.cache.buf b).dev ∧ (t.cache.buf b).blockno = (s.cache.buf b).blockno

def Firm (s t : Sys) : Prop := ∀ b, (s.cache.buf b).refcnt ≠ 0 →
  (t.cache.buf b).dev = (s.cache.buf b).dev ∧ (t.cache.buf b).blockno = (s.cache.buf b).blockno

instance : IsPreorder Sys Still where
  refl _ _ := ⟨rfl, rfl⟩
  trans _ _ _ first second b := ⟨(second b).1.trans (first b).1, (second b).2.trans (first b).2⟩

theorem Still.firm (still : Still s t) : Firm s t := fun b _ => still b

theorem still_put {entry : Buf} (bufs : t.cache.buf = update s.cache.buf b entry)
    (dev : entry.dev = (s.cache.buf b).dev) (blockno : entry.blockno = (s.cache.buf b).blockno) : Still s t := by
  intro a
  rw [bufs]
  by_cases here : a = b
  · subst here
    rw [update_self]
    exact ⟨dev, blockno⟩
  · rw [update_of_ne here]
    exact ⟨rfl, rfl⟩

theorem goto_still (job : Job) : Along Still (goto job) := along_modify fun _ _ => ⟨rfl, rfl⟩

theorem memmove_still (b : Handle) (data : Block) : Along Still (memmove b data) := along_modify fun _ => still_put rfl rfl rfl

theorem bunpin_still (b : Handle) : Along Still (bunpin b) := along_modify fun _ => still_put rfl rfl rfl

theorem bwrite_still (p : Slot) (b : Handle) : Along Still (bwrite p b) := by
  intro s
  unfold bwrite
  rw [ends_get_bind]
  dsimp only
  split
  · exact fun _ => ⟨rfl, rfl⟩
  · exact trivial

theorem brelse_still (p : Slot) (b : Handle) : Along Still (brelse p b) := by
  intro s
  unfold brelse
  rw [ends_get_bind]
  split
  · exact still_put (s := s) rfl rfl rfl
  · exact trivial

theorem logWrite_still (b : Handle) : Along Still (logWrite b) := by
  intro s
  unfold logWrite
  rw [ends_get_bind]
  dsimp only
  split
  · split
    · exact fun _ => ⟨rfl, rfl⟩
    · exact still_put (s := s) rfl rfl rfl
  · exact trivial

include inv

theorem bget_firm : Ends Any (bget p n) s fun _ t => Firm s t := by
  refine bget_ends trivial fun b cache got => ?_
  rcases bget_cases inv.sound p n with ⟨b', -, state⟩ | ⟨-, b', idle, state⟩ | ⟨-, -, none⟩
  · obtain ⟨rfl, rfl⟩ := Prod.mk.inj (Option.some.inj (got.symm.trans state))
    exact Still.firm (still_put (s := s) rfl rfl rfl)
  · obtain ⟨rfl, rfl⟩ := Prod.mk.inj (Option.some.inj (got.symm.trans state))
    intro a used
    have other : a ≠ b := by
      rintro rfl
      exact used idle
    have same : ((s.cache.put b { s.cache.buf b with dev := ROOTDEV, blockno := n, valid := false, refcnt := 1 }).goto p
        (.locking b n)).buf a = s.cache.buf a := update_of_ne other ..
    rw [same]
    exact ⟨rfl, rfl⟩
  · exact nomatch got.symm.trans none

theorem get_firm (next : Handle → Job) : Ends Any (bget p n >>= fun b => goto (next b)) s fun _ t => Firm s t :=
  (bget_firm inv).bind fun _ _ firm => firm

theorem writeLog_firm (tail : Nat) (place : Copying) :
    Ends Any (writeLog tail place) s fun _ t => Firm s t := by
  cases place with
  | start =>
    unfold writeLog
    rw [ends_get_bind]
    split
    · exact get_firm inv _
    · exact fun _ _ => ⟨rfl, rfl⟩
  | first l =>
    unfold writeLog
    rw [ends_get_bind]
    exact get_firm inv _
  | both l d => exact (along_bind (memmove_still _ _) (fun _ => goto_still _) s).imp fun _ _ still => still.firm
  | copied l d => exact (along_bind (bwrite_still _ _) (fun _ => goto_still _) s).imp fun _ _ still => still.firm
  | written l d => exact (along_bind (brelse_still _ _) (fun _ => goto_still _) s).imp fun _ _ still => still.firm
  | released l => exact (along_bind (brelse_still _ _) (fun _ => goto_still _) s).imp fun _ _ still => still.firm

theorem install_firm (recovering : Bool) (tail : Nat) (place : Copying) :
    Ends Any (install recovering tail place) s fun _ t => Firm s t := by
  cases place with
  | start =>
    unfold install
    rw [ends_get_bind]
    split
    · exact get_firm inv _
    · exact fun _ _ => ⟨rfl, rfl⟩
  | first l =>
    unfold install
    rw [ends_get_bind]
    exact get_firm inv _
  | both l d => exact (along_bind (memmove_still _ _) (fun _ => goto_still _) s).imp fun _ _ still => still.firm
  | copied l d => exact (along_bind (bwrite_still _ _) (fun _ => goto_still _) s).imp fun _ _ still => still.firm
  | written l d =>
    have rest := along_bind (brelse_still s.worker l) fun _ => goto_still (.install recovering tail (.released d))
    cases recovering with
    | true => exact (rest s).imp fun _ _ still => still.firm
    | false => exact (along_bind (bunpin_still d) (fun _ => rest) s).imp fun _ _ still => still.firm
  | released l => exact (along_bind (brelse_still _ _) (fun _ => goto_still _) s).imp fun _ _ still => still.firm

theorem writeHead_firm (next : Job) (here : Heading → Job) (place : Heading) :
    Ends Any (writeHead next here place) s fun _ t => Firm s t := by
  cases place with
  | start =>
    unfold Concurrent.writeHead
    rw [ends_get_bind]
    exact get_firm inv _
  | first b => exact (along_bind (memmove_still _ _) (fun _ => goto_still _) s).imp fun _ _ still => still.firm
  | filled b => exact (along_bind (bwrite_still _ _) (fun _ => goto_still _) s).imp fun _ _ still => still.firm
  | written b => exact (along_bind (brelse_still _ _) (fun _ => goto_still _) s).imp fun _ _ still => still.firm

theorem work_firm : Ends Any (work s.job) s fun _ t => Firm s t := by
  cases s.job with
  | idle => exact fun _ _ => ⟨rfl, rfl⟩
  | readHead =>
    unfold work
    rw [ends_get_bind]
    exact get_firm inv _
  | loadHead b =>
    exact (along_bind (brelse_still s.worker b) (fun _ => goto_still _) { s with log := _ }).imp fun _ _ still => still.firm
  | commit =>
    unfold work
    rw [ends_get_bind]
    split <;> exact fun _ _ => ⟨rfl, rfl⟩
  | writeLog tail place => exact writeLog_firm inv tail place
  | writeHead place => exact writeHead_firm inv _ _ place
  | install recovering tail place => exact install_firm inv recovering tail place
  | erase recovering place => exact writeHead_firm inv _ _ place
  | finish => exact fun _ _ => ⟨rfl, rfl⟩

omit inv

theorem exec_firm {x : Section Unit} (ends : Ends Any x s fun _ t => Firm s t) : Firm s (s.exec x) := by
  unfold Sys.exec
  cases ran : x s with
  | ok _ => exact ends.ok ran
  | error _ => exact fun _ _ => ⟨rfl, rfl⟩

include inv

/-- No step gives a buffer that is referred to to another block. -/
theorem act_firm (done : act s a = some t) : Firm s t := by
  cases act_acts done with
  | beginOp | endOp | stuck => exact fun _ _ => ⟨rfl, rfl⟩
  | bread => exact exec_firm ((bget_firm inv).bind fun _ _ firm => firm)
  | acquiresleep taken =>
    unfold Cache.acquiresleep at taken
    split at taken
    · obtain ⟨-, ⟨⟩⟩ := Option.ite_none_right_eq_some.mp taken
      exact Still.firm (still_put (s := s) rfl rfl rfl)
    · exact nomatch taken
  | fill filled =>
    unfold Cache.fill at filled
    split at filled
    · obtain rfl := Option.some.inj filled
      exact Still.firm (still_put (s := s) rfl rfl rfl)
    · exact nomatch filled
  | change => exact Still.firm (still_put (s := s) rfl rfl rfl)
  | logWrite => exact exec_firm ((logWrite_still _ s).imp fun _ _ still => still.firm)
  | brelse => exact exec_firm ((brelse_still _ _ s).imp fun _ _ still => still.firm)
  | drop dropped =>
    unfold Cache.drop at dropped
    split at dropped
    · obtain rfl := Option.some.inj dropped
      exact Still.firm (still_put (s := s) rfl rfl rfl)
    · exact nomatch dropped
  | work => exact exec_firm (work_firm inv)

def Returns (s : Sys) (a : Action) (t : Sys) (p : Slot) (b : Handle) (n : Nat) : Prop :=
  (s.cache.pc p = .locking b n ∧ a = .acquiresleep p ∨ s.cache.pc p = .filling b n ∧ a = .fill p) ∧ t.cache.pc p = .ready

theorem returns_has (done : act s a = some t) (returns : Returns s a t p b n) : Has t.cache p b n := by
  obtain ⟨⟨place, rfl⟩ | ⟨place, rfl⟩, ready⟩ := returns
  · cases act_acts done with
    | acquiresleep taken => exact Gets.has ((follows_acquiresleep inv.sound taken p).gets b n (Or.inl place)) ready
  cases act_acts done with
  | fill filled =>
    exact Gets.has ((follows_fill inv.sound inv.settled filled p).gets b n (Or.inr (Or.inl place))) ready

theorem returns_data (alive : s.panicked = none) (done : act s a = some t)
    (returns : Returns s a t p b n) (home : t.log.home n) : (t.cache.buf b).data = recorded n := by
  have after := act_coherent inv alive done
  have same : record s a t recorded = recorded := by
    obtain ⟨⟨-, rfl⟩ | ⟨-, rfl⟩, -⟩ := returns <;> rfl
  rw [same] at after
  exact (Has.data after (returns_has inv done returns)).trans (if_pos home)

theorem pinned_used (dev : (s.cache.buf b).dev = ROOTDEV)
    (mem : (s.cache.buf b).blockno ∈ pinned s.log s.job) : (s.cache.buf b).refcnt ≠ 0 :=
  fun idle => (inv.sound.idle_free idle).2.1 _ ⟨dev, rfl⟩ mem

omit inv

/-- In every run of the cache and the log a block has one buffer, the list is in order in both directions, a block
of the header keeps its buffer until it is installed, and `bread` returns what was last recorded. -/
theorem one_disk (layout : Layout) (start : Clean layout) {s : Sys} (run : Run (machine layout start) s) :
    (∀ a b, (s.cache.buf a).dev ≠ 0 → (s.cache.buf a).dev = (s.cache.buf b).dev →
      (s.cache.buf a).blockno = (s.cache.buf b).blockno → a = b) ∧
    (∃ order : List Handle, order.Perm (List.finRange NBUF) ∧ Ring s.cache.links.next (none :: order.map some) ∧
      ∀ b, s.cache.links.prev (s.cache.links.next b) = b) ∧
    (∀ a t, step s a = some t → ∀ b, (s.cache.buf b).dev = ROOTDEV → (s.cache.buf b).blockno ∈ pinned s.log s.job →
      (t.cache.buf b).dev = ROOTDEV ∧ (t.cache.buf b).blockno = (s.cache.buf b).blockno) ∧
    ∀ a t p b n, step s a = some t → Returns s a t p b n →
      (t.cache.buf b).blockno = n ∧ (t.cache.buf b).lock = some p ∧ (t.log.home n → (t.cache.buf b).data = history run n) := by
  have inv := run_coherent run
  refine ⟨?_, ?_, ?_, ?_⟩
  · intro a b used dev blockno
    have rooted := (inv.sound.devs a).resolve_left used
    exact inv.sound.unique a b _ ⟨rooted, blockno⟩ ⟨dev.symm.trans rooted, rfl⟩
  · obtain ⟨order, all, double⟩ := inv.sound.listed
    refine ⟨order, all, double.forth, fun b => double.inverse ?_⟩
    cases b with
    | none => exact List.mem_cons_self ..
    | some b => exact List.mem_cons_of_mem _ (List.mem_map_of_mem (mem_order all b))
  · intro a t moved b dev mem
    have firm := act_firm inv (step_act moved).2 b (pinned_used inv dev mem)
    exact ⟨firm.1.trans dev, firm.2⟩
  · intro a t p b n moved returns
    obtain ⟨alive, done⟩ := step_act moved
    have has := returns_has inv done returns
    exact ⟨has.caches.2, has.lock, returns_data inv alive done returns⟩

/-- In every run `refcnt` counts the processes that wait for the lock of a buffer or let go of it, the one that has the
lock and the log; and a buffer that is referred to keeps its block. -/
theorem buffer_references (layout : Layout) (start : Clean layout) {s : Sys} (run : Run (machine layout start) s) (b : Handle) :
    (s.cache.buf b).refcnt = (Finset.univ.filter fun p => counts (s.cache.pc p) = some b).card +
      (if (s.cache.buf b).lock = none then 0 else 1) +
      (if (s.cache.buf b).dev = ROOTDEV ∧ (s.cache.buf b).blockno ∈ pinned s.log s.job then 1 else 0) ∧
    ∀ a t, step s a = some t → (s.cache.buf b).refcnt ≠ 0 →
      (t.cache.buf b).dev = (s.cache.buf b).dev ∧ (t.cache.buf b).blockno = (s.cache.buf b).blockno := by
  have inv := run_coherent run
  refine ⟨?_, fun a t moved => act_firm inv (step_act moved).2 b⟩
  have counted := inv.sound.counted b
  rw [references, tally_apply, owned, logged] at counted
  exact_mod_cast counted

/-- In every run `commit` works alone: nobody is between `begin_op` and `end_op`, as `outstanding` says, and the header
lists different blocks, as many as there is room for, none of them in the log. -/
theorem commit_alone (layout : Layout) (start : Clean layout) {s : Sys} (run : Run (machine layout start) s) :
    s.log.outstanding = s.ops.length ∧ (s.log.committing = true → s.ops = []) ∧
    s.log.lh.Nodup ∧ s.log.lh.length ≤ s.log.size - 1 ∧ ∀ n ∈ s.log.lh, s.log.home n := by
  have inv := run_coherent run
  refine ⟨inv.outstanding, fun committing => inv.quiet fun idle => ?_, inv.nodup, inv.short, inv.home⟩
  rw [inv.committing, idle] at committing
  cases committing

end Xv6Monitor.Disk.OneDisk
