import Xv6Monitor.FileSystem.Blocks
import Xv6Monitor.Disk.Crash
import Xv6Monitor.Disk.OneDisk

/-! What the file system takes the log to do, both models below it do: the log with its crashes, and the buffer
cache and the log with every interleaving of the processes. Each of their steps is one of the file system's calls
or changes nothing that the file system sees. -/

namespace Xv6Monitor.FileSystem.Storage
open Function Lib.Bytes Lib.Program Lib.Transition Blocks Disk
open Journal (Block Log Layout journal)

def words (data : Data) : Block := fun i => load 4 data (4 * i)

inductive Call where
  | beginOp
  | logWrite (n : Nat) (data : Data)
  | endOp

def Call.run : Call → FsProg Unit
  | .beginOp => Blocks.beginOp
  | .logWrite n data => Blocks.logWrite n data
  | .endOp => Blocks.endOp

def calls (s : Fs) : Machine Fs Call := ⟨s, fun s call => (call.run s).toOption.map Prod.snd⟩

/-- The log as it is when a commit that is on its way has ended. -/
def settled (log : Log) : Log := if log.committing then { log with lh := [], committing := false } else log

/-- The file system has the log, the blocks as they are shown to it and the blocks that a crash leaves. -/
structure Stands (s : Fs) (log : Log) (shown durable : Nat → Block) : Prop where
  power : s.power = none
  header : s.log = settled log
  shown : ∀ n, log.home n → words (s.disk n) = shown n
  durable : ∀ n, log.home n → words (s.durable n) = durable n

section Calls

variable {s : Fs} {log log' : Log} {shown durable : Nat → Block}

theorem call_path (origin : Fs) (call : Call) {Q : Unit → Fs → Prop} (ends : Ends (fun _ => False) call.run s Q) :
    ∃ t, Nonempty (Path (calls origin) s t) ∧ Q () t := by
  obtain ⟨_, t, ran, holds⟩ := ends.returns
  refine ⟨t, ⟨Path.nil.snoc call ?_⟩, holds⟩
  show ((call.run s).toOption.map Prod.snd) = some t
  rw [ran]
  rfl

theorem settled_free (free : log.committing = false) : settled log = log := by
  rw [settled, free]
  rfl

theorem settled_busy (busy : log.committing = true) : settled log = { log with lh := [], committing := false } := if_pos busy

variable (stands : Stands s log shown durable)
include stands

theorem Stands.relog (same : settled log' = settled log) (start : log'.start = log.start) (size : log'.size = log.size) :
    Stands s log' shown durable := by
  have homes : ∀ n, log'.home n → log.home n := by
    unfold Log.home
    rw [start, size]
    exact fun _ => id
  exact ⟨stands.power, stands.header.trans same.symm, fun n home => stands.shown n (homes n home),
    fun n home => stands.durable n (homes n home)⟩

theorem beginOp_stands (begun : log.beginOp = some log') :
    Ends (fun _ => False) beginOp s fun _ t => Stands t log' shown durable := by
  have same := begun
  simp only [Log.beginOp, Option.ite_none_left_eq_some, Option.some.injEq, Bool.not_eq_true] at same
  obtain ⟨free, -, rfl⟩ := same
  unfold Blocks.beginOp
  rw [ends_get_bind, stands.header, settled_free free, begun]
  exact ⟨stands.power, Eq.symm (settled_free free), stands.shown, stands.durable⟩

theorem logWrite_stands {n : Nat} (data : Data) (free : log.committing = false) (logged : log.logWrite n = .ok log') :
    Ends (fun _ => False) (logWrite n data) s fun _ t => Stands t log' (update shown n (words data)) durable := by
  obtain ⟨-, same⟩ := Log.logWrite_ok logged
  unfold Blocks.logWrite
  rw [ends_get_bind, stands.header, settled_free free, logged]
  subst same
  refine ⟨stands.power, Eq.symm (settled_free free), fun m home => ?_, stands.durable⟩
  show words (update s.disk n data m) = _
  rw [apply_update fun _ => words]
  by_cases here : m = n
  · subst here
    rw [update_self, update_self]
  · rw [update_of_ne here, update_of_ne here]
    exact stands.shown m home

theorem endOp_stands {doCommit : Bool} (ended : log.endOp = .ok (log', doCommit)) :
    log'.committing = doCommit ∧ Ends (fun _ => False) endOp s fun _ t => Stands t log' shown
      (if doCommit then fun n => if n ∈ log.lh then shown n else durable n else durable) := by
  have same := ended
  unfold Log.endOp at same
  dsimp only at same
  split at same
  · exact nomatch same
  next free =>
  rw [Bool.not_eq_true] at free
  unfold Blocks.endOp
  rw [ends_get_bind, stands.header, settled_free free, ended]
  split at same
  all_goals
    obtain ⟨rfl, rfl⟩ := Prod.mk.inj (Except.ok.inj same)
  · refine ⟨rfl, ?_⟩
    rw [if_pos rfl, stands.power]
    refine ⟨rfl, rfl, stands.shown, fun n home => ?_⟩
    dsimp only
    rw [apply_ite words, stands.shown n home, stands.durable n home]
  · refine ⟨free, ?_⟩
    rw [if_neg Bool.false_ne_true]
    exact ⟨stands.power, Eq.symm (settled_free free), stands.shown, stands.durable⟩

end Calls

section Journal

open Journal Recovery Commit

variable {layout : Layout} {s : Fs} {j k : Journal.Sys} {h : History} {n : Nat}

/-- The file system over the log, which is not in its recovery. -/
structure Journaled (layout : Layout) (s : Fs) (j : Journal.Sys) (h : History) : Prop where
  consistent : Consistent layout j h
  up : j.job.recovering = false
  stands : Stands s j.log h.logical (h.after h.committed.length)

/-- There is no crash, and what is written to a block are bytes. -/
def Plain (_ : Journal.Sys) (a : Action) (_ : Journal.Sys) : Prop :=
  match a with
  | .write _ _ data => ∃ bytes, data = words bytes
  | .crash => False
  | _ => True

theorem committing_up (inv : Consistent layout j h) (busy : j.log.committing = true) : j.job.recovering = false := by
  have stage := inv.stage
  by_contra down
  have free : j.log.committing = false := by
    unfold Stage at stage
    split at stage
    case h_8 => exact stage.committing
    case h_9 => exact stage.1.committing
    case h_10 => exact stage.1.committing
    all_goals simp_all [Job.recovering]
  rw [busy] at free
  cases free

variable (journaled : Journaled layout s j h)
include journaled

/-- The steps of a commit change nothing that the file system sees: for it the commit is over. -/
theorem journaled_work (moved : step j .work = some k) : Journaled layout s k (observe j .work k h) := by
  obtain ⟨inv, up, stands⟩ := journaled
  have after := consistent_step inv moved
  have busy : j.log.committing = true := by
    by_contra free
    rw [Bool.not_eq_true] at free
    simp only [step, work, (Consistent.idle inv up free).1] at moved
    cases moved
  have same : (observe j .work k h).logical = h.logical ∧
      (observe j .work k h).after (observe j .work k h).committed.length = h.after h.committed.length := by
    have erasing : j.job ≠ .erase true := by
      intro erasing
      rw [erasing] at up
      cases up
    unfold observe
    dsimp only
    rw [if_neg erasing]
    split <;> exact ⟨rfl, rfl⟩
  by_cases last : j.job = .finish
  · simp only [step, work, last, Option.some.injEq] at moved
    have stage := inv.stage
    rw [last] at stage
    subst moved
    refine ⟨after, rfl, ?_⟩
    rw [same.1, same.2]
    refine stands.relog ?_ rfl rfl
    rw [settled_busy busy, ← stage.erased]
    rfl
  · obtain ⟨lh, log⟩ := (Crash.work_keeps moved).2 last
    have still : k.log.committing = true := by rw [log, busy]
    refine ⟨after, committing_up after still, ?_⟩
    rw [same.1, same.2]
    refine stands.relog ?_ (by rw [log]) (by rw [log])
    rw [settled_busy still, settled_busy busy, log]

theorem journaled_step (origin : Fs) {a : Action} (moved : step j a = some k) (plain : Plain j a k) :
    ∃ t, Nonempty (Path (calls origin) s t) ∧ Journaled layout t k (observe j a k h) := by
  obtain ⟨inv, up, stands⟩ := journaled
  have after := consistent_step inv moved
  cases a with
  | beginOp w =>
    simp only [step, Option.ite_none_left_eq_some, Option.map_eq_some_iff] at moved
    obtain ⟨-, log, begun, rfl⟩ := moved
    obtain ⟨t, path, stands⟩ := call_path origin .beginOp (beginOp_stands stands begun)
    exact ⟨t, path, after, up, stands⟩
  | bread w n =>
    simp only [step, Option.ite_none_left_eq_some, Option.map_eq_some_iff] at moved
    obtain ⟨-, _, -, rfl⟩ := moved
    exact ⟨s, ⟨.nil⟩, after, up, stands⟩
  | brelse w b =>
    simp only [step, Option.map_eq_some_iff] at moved
    obtain ⟨_, -, rfl⟩ := moved
    exact ⟨s, ⟨.nil⟩, after, up, stands⟩
  | write w b data =>
    obtain ⟨bytes, rfl⟩ := plain
    simp only [step, Option.ite_none_right_eq_some] at moved
    obtain ⟨⟨member, -⟩, moved⟩ := moved
    have free := (Consistent.running inv (List.ne_nil_of_mem member)).2.committing
    split at moved
    next log logged =>
      obtain ⟨t, path, stands⟩ := call_path origin (.logWrite _ bytes) (logWrite_stands stands bytes free logged)
      obtain rfl := Option.some.inj moved
      refine ⟨t, path, after, up, ?_⟩
      show Stands t log (History.logical { h with current := h.current ++ [⟨_, _, _⟩] }) _
      rw [logical_push]
      exact stands
    next => cases moved
  | endOp w =>
    simp only [step, Option.ite_none_right_eq_some] at moved
    obtain ⟨member, moved⟩ := moved
    obtain ⟨idle, running⟩ := Consistent.running inv (List.ne_nil_of_mem member)
    split at moved
    next log doCommit ended =>
      obtain ⟨flag, ends⟩ := endOp_stands stands ended
      obtain ⟨t, path, stands⟩ := call_path origin .endOp ends
      have seen : observe j (.endOp w) k h = if doCommit then h.close else h := by
        rw [← Option.some.inj moved, ← flag]
        rfl
      rw [seen] at after ⊢
      obtain rfl := Option.some.inj moved
      refine ⟨t, path, after, ?_, ?_⟩
      · rw [idle]
        cases doCommit <;> rfl
      cases doCommit with
      | false => exact stands
      | true =>
        have all : (fun n => if n ∈ j.log.lh then h.logical n else h.after h.committed.length n) = h.logical := by
          funext n
          split
          · rfl
          next clean => exact (logical_other fun u made here => clean ((running.dirty n).mpr ⟨u, made, here⟩)).symm
        rw [if_pos rfl, all] at stands
        change Stands t log h.close.logical (h.close.after h.close.committed.length)
        rw [← logical_settled (h := h.close) rfl, logical_close]
        exact stands
    next => cases moved
  | work => exact ⟨s, ⟨.nil⟩, journaled_work ⟨inv, up, stands⟩ moved⟩
  | crash => exact plain.elim

theorem journaled_view (home : j.log.home n) : view j.disk (pinned j.job j.log) h n = words (s.disk n) := by
  obtain ⟨inv, up, stands⟩ := journaled
  rw [stands.shown n home]
  unfold view
  split
  next => rfl
  next loose =>
  have stage := inv.stage
  unfold Stage at stage
  split at stage
  next job =>
    rw [stage.settled n home, logical_other]
    exact fun u made here => loose (by rw [job]; exact (stage.dirty n).mpr ⟨u, made, here⟩)
  case h_2 job | h_3 job | h_4 job | h_5 job | h_6 job =>
    exact stage.1.clean n home (by rwa [job] at loose)
  next => rw [stage.settled n home, logical_settled stage.current]
  all_goals simp_all [Job.recovering]

theorem journaled_bread {w : Buffers.Tid} {b : Buffers.Handle} {cache : Buffers.Bcache Block}
    (read : Buffers.bread j.disk j.cache w Buffers.ROOTDEV n = some (b, cache)) (home : j.log.home n) :
    (cache.buf b).data = words (s.disk n) := by
  obtain ⟨-, holds, -⟩ := Buffers.bread_sound journaled.consistent.sound (view_clean _ _ h) read
  exact holds.data.trans (journaled_view journaled home)

/-- After a crash between commits recovery restores what the file system has as durable. -/
theorem journaled_crash (idle : j.job = .idle) (home : j.log.home n) :
    Replay.recovered j.log j.disk n = words (s.durable n) := by
  obtain ⟨inv, up, stands⟩ := journaled
  have stage := inv.stage
  rw [idle] at stage
  rw [Replay.recovered_nil stage.empty, stage.settled n home, stands.durable n home]

/-- As long as it does not crash, the log does what the file system takes it to do. -/
theorem journal_refines {disk : Nat → Block} (path : Path (journal layout disk) j k) (plain : path.Every Plain) :
    ∃ t, Nonempty (Run (calls s) t) ∧ Journaled layout t k (path.fold observe h) := by
  refine Path.simulated (R := Journaled layout) ?_ journaled path plain
  intro j a k h t moved plain journaled
  exact journaled_step journaled s moved plain

end Journal

section Cache

open Concurrent Coherence OneDisk Process.Table
open Buffers (Handle)

variable {layout : Layout} {s : Fs} {c d : Concurrent.Sys} {recorded : Nat → Block} {n : Nat}

/-- The file system over the cache and the log. Until the last operation ends, the disk has what a crash leaves. -/
structure Cached (layout : Layout) (s : Fs) (c : Concurrent.Sys) (recorded : Nat → Block) : Prop where
  coherent : Coherent layout c recorded
  stands : Stands s c.log recorded (if c.log.committing then recorded else c.disk)

/-- What is logged of a block are bytes. -/
def Bytes (c : Concurrent.Sys) (a : Action) (_ : Concurrent.Sys) : Prop :=
  match a with
  | .logWrite _ b => ∃ bytes, (c.cache.buf b).data = words bytes
  | _ => True

/-- The work goes on. -/
def Busies {α : Type} (x : Section α) : Prop := ∀ s, Ends Any x s fun _ t => t.job ≠ .idle

theorem busies_goto {job : Job} (busy : job ≠ .idle) : Busies (goto job) := fun _ => busy

theorem busies_bind {α β : Type} {x : Section α} {f : α → Section β} (rest : ∀ a, Busies (f a)) : Busies (x >>= f) :=
  fun _ => Ends.bind (R := fun _ _ => True) (ends_of (fun _ _ _ => trivial) fun _ _ => trivial) fun a t _ => rest a t

theorem writeLog_busies (tail : Nat) (place : Copying) : Busies (writeLog tail place) := by
  cases place with
  | start =>
    refine busies_bind fun s => ?_
    split
    · exact busies_bind fun _ => busies_goto nofun
    · exact busies_goto nofun
  | _ => exact busies_bind fun _ => busies_bind fun _ => busies_goto nofun

theorem install_busies (recovering : Bool) (tail : Nat) (place : Copying) : Busies (install recovering tail place) := by
  cases place with
  | start =>
    refine busies_bind fun s => ?_
    split <;> exact busies_bind fun _ => busies_goto nofun
  | written l d =>
    cases recovering with
    | true => exact busies_bind fun _ => busies_bind fun _ => busies_goto nofun
    | false => exact busies_bind fun _ => busies_bind fun _ => busies_bind fun _ => busies_goto nofun
  | _ => exact busies_bind fun _ => busies_bind fun _ => busies_goto nofun

theorem writeHead_busies {next : Job} {here : Heading → Job} (after : next ≠ .idle) (within : ∀ place, here place ≠ .idle)
    (place : Heading) : Busies (writeHead next here place) := by
  cases place with
  | written b => exact busies_bind fun _ => busies_bind fun _ => busies_goto after
  | _ => exact busies_bind fun _ => busies_bind fun _ => busies_goto (within _)

theorem work_busies {job : Job} (busy : job ≠ .idle) (committed : job ≠ .finish) (recovered : ∀ b, job ≠ .erase true (.written b)) :
    Busies (work job) := by
  cases job with
  | idle => exact absurd rfl busy
  | readHead => exact busies_bind fun _ => busies_bind fun _ => busies_goto nofun
  | loadHead b => exact busies_bind fun _ => busies_bind fun _ => busies_bind fun _ => busies_goto nofun
  | commit =>
    refine busies_bind fun s => ?_
    split <;> exact busies_goto nofun
  | writeLog tail place => exact writeLog_busies tail place
  | writeHead place =>
    refine writeHead_busies ?_ (fun _ => ?_) place
    all_goals exact nofun
  | install recovering tail place => exact install_busies recovering tail place
  | erase recovering place =>
    cases recovering with
    | false =>
      refine writeHead_busies ?_ (fun _ => ?_) place
      all_goals exact nofun
    | true =>
      cases place with
      | written b => exact absurd rfl (recovered b)
      | _ => exact busies_bind fun _ => busies_bind fun _ => busies_goto nofun
  | finish => exact absurd rfl committed

/-- The commit is on its way, or nothing is to be committed. -/
def Over (log : Log) : Prop := log.committing = false → log.lh = []

section Over

variable (inv : Coherent layout c recorded)
include inv

theorem over_busy (busy : c.job ≠ .idle) : Over c.log := by
  intro free
  have flag := inv.committing
  have stage := inv.stage
  rw [free] at flag
  cases job : c.job <;> rw [job] at flag stage
  case idle => exact absurd job busy
  case readHead => exact stage.1
  case loadHead => exact stage.1
  case install recovering _ _ =>
    cases recovering with
    | true => exact stage.1 rfl
    | false => exact nomatch flag
  case erase => exact stage.1
  all_goals exact nomatch flag

theorem over_disk (past : Over c.log) (home : c.log.home n) :
    (if c.log.committing then recorded else c.disk) n = recorded n := by
  split
  next => rfl
  next free =>
  have empty := past (Bool.not_eq_true _ ▸ free)
  refine inv.clean n home ?_
  unfold Stages.pinned
  split <;> simp [empty]

theorem settled_work (busy : c.job ≠ .idle) : settled c.log = ⟨layout.start, layout.size, 0, false, []⟩ := by
  have none : c.log.outstanding = 0 := by rw [inv.outstanding, inv.quiet busy, List.length_nil]
  rw [← inv.start, ← inv.size, ← none]
  cases flag : c.log.committing with
  | true => exact settled_busy flag
  | false => rw [settled_free flag, ← over_busy inv busy flag, ← flag]

theorem work_over (busy : c.job ≠ .idle) :
    Ends Any (work c.job) c fun _ d => Coherent layout d recorded → settled d.log = settled c.log ∧ Over d.log := by
  have stage := inv.stage
  by_cases last : c.job = .finish
  · have flag := inv.committing
    rw [last] at flag stage ⊢
    refine fun _ => ⟨?_, fun _ => stage⟩
    rw [settled_busy flag, ← show c.log.lh = [] from stage]
    rfl
  by_cases erased : ∃ b, c.job = .erase true (.written b)
  · obtain ⟨b, erased⟩ := erased
    rw [erased] at stage ⊢
    unfold work Concurrent.writeHead
    rw [ends_get_bind, ends_bind]
    exact brelse_ends (Stages.Has.lock stage.2) fun _ => ⟨rfl, fun _ => stage.1⟩
  refine (work_busies busy last (fun b here => erased ⟨b, here⟩) c).imp fun _ d more after => ?_
  exact ⟨(settled_work after more).trans (settled_work inv busy).symm, over_busy after more⟩

end Over

variable (cached : Cached layout s c recorded)
include cached

theorem cached_homes (after : Coherent layout d recorded) (home : d.log.home n) : c.log.home n := by
  unfold Log.home at home ⊢
  rwa [cached.coherent.start, cached.coherent.size, ← after.start, ← after.size]

theorem cached_over (after : Coherent layout d recorded) (same : settled d.log = settled c.log) (before : Over c.log)
    (past : Over d.log) : Cached layout s d recorded := by
  have inv := cached.coherent
  have stands := cached.stands.relog same (after.start.trans inv.start.symm) (after.size.trans inv.size.symm)
  refine ⟨after, stands.power, stands.header, stands.shown, fun n home => ?_⟩
  rw [stands.durable n home, over_disk inv before (cached_homes cached after home), over_disk after past home]

theorem cached_exec {x : Section Unit} (after : Coherent layout (c.exec x) recorded)
    (ends : Ends Any x c fun _ d => Coherent layout d recorded → Cached layout s d recorded) :
    Cached layout s (c.exec x) recorded := by
  unfold Sys.exec at after ⊢
  cases ran : x c with
  | ok _ =>
    rw [ran] at after
    exact ends.ok ran after
  | error e =>
    -- a panic leaves everything as it was
    rw [ran] at after
    exact ⟨after, cached.stands⟩

theorem cached_free {p : Slot} (mem : p ∈ c.ops) : c.log.committing = false := by
  rw [cached.coherent.committing, cached.coherent.running mem]
  rfl

theorem cached_step (origin : Fs) {a : Action} (moved : step c a = some d) (bytes : Bytes c a d) :
    ∃ t, Nonempty (Path (calls origin) s t) ∧ Cached layout t d (record c a d recorded) := by
  obtain ⟨alive, moved⟩ := step_act moved
  have after := act_coherent cached.coherent alive moved
  cases act_acts moved with
  | beginOp idle begun =>
    obtain ⟨t, path, stands⟩ := call_path origin .beginOp (beginOp_stands cached.stands begun)
    refine ⟨t, path, after, ?_⟩
    rw [← after.committing.trans cached.coherent.committing.symm] at stands
    exact stands
  | bread =>
    refine ⟨s, ⟨.nil⟩, cached_exec cached after (Ends.bind (bget_ends trivial fun _ _ _ => ?_) fun _ _ kept => kept)⟩
    exact fun after => ⟨after, cached.stands⟩
  | brelse idle locked settled =>
    exact ⟨s, ⟨.nil⟩, cached_exec cached after (brelse_ends locked fun after => ⟨after, cached.stands⟩)⟩
  | acquiresleep => exact ⟨s, ⟨.nil⟩, after, cached.stands⟩
  | fill => exact ⟨s, ⟨.nil⟩, after, cached.stands⟩
  | change => exact ⟨s, ⟨.nil⟩, after, cached.stands⟩
  | drop => exact ⟨s, ⟨.nil⟩, after, cached.stands⟩
  | stuck => exact ⟨s, ⟨.nil⟩, after, cached.stands⟩
  | logWrite idle mem holds =>
    obtain ⟨bytes, data⟩ := bytes
    have free := cached_free cached mem
    rw [exec_logWrite] at after ⊢
    cases logged : c.log.logWrite (c.cache.buf _).blockno with
    | error reason =>
      rw [logged] at after
      exact ⟨s, ⟨.nil⟩, after, cached.stands⟩
    | ok log =>
      obtain ⟨t, path, stands⟩ := call_path origin (.logWrite _ bytes) (logWrite_stands cached.stands bytes free logged)
      rw [logged] at after
      refine ⟨t, path, after, ?_⟩
      obtain ⟨-, rfl⟩ := Log.logWrite_ok logged
      unfold record
      dsimp only
      rw [free, if_neg Bool.false_ne_true] at stands ⊢
      rw [if_pos alive, data]
      exact stands
  | @endOp _ _ doCommit mem ended =>
    obtain ⟨flag, ends⟩ := endOp_stands cached.stands ended
    obtain ⟨t, path, stands⟩ := call_path origin .endOp ends
    refine ⟨t, path, after, stands.power, stands.header, stands.shown, fun n home => ?_⟩
    rw [stands.durable n home, cached_free cached mem]
    dsimp only
    rw [flag, if_neg Bool.false_ne_true]
    cases doCommit with
    | false => rfl
    | true =>
      rw [if_pos rfl, if_pos rfl]
      split
      next => rfl
      next clean => exact cached.coherent.clean n (cached_homes cached after home) (by rwa [cached.coherent.running mem])
  | work ready =>
    simp only [act, Option.ite_none_right_eq_some] at moved
    refine ⟨s, ⟨.nil⟩, cached_exec cached after ((work_over cached.coherent moved.1.2).imp fun _ d past after => ?_)⟩
    exact cached_over cached after (past after).1 (over_busy cached.coherent moved.1.2) (past after).2

theorem cached_bread {a : Action} {p : Slot} {b : Handle} (moved : step c a = some d) (returns : Returns c a d p b n)
    (home : d.log.home n) : (d.cache.buf b).data = words (s.disk n) := by
  obtain ⟨alive, moved⟩ := step_act moved
  have same : record c a d recorded = recorded := by obtain ⟨⟨-, rfl⟩ | ⟨-, rfl⟩, -⟩ := returns <;> rfl
  have after := act_coherent cached.coherent alive moved
  rw [same] at after
  rw [returns_data cached.coherent alive moved returns home, cached.stands.shown n (cached_homes cached after home)]

omit cached

/-- Every run of the cache and the log is one of the calls of the file system, which has what was last recorded. -/
theorem cache_refines {start : Clean layout} (log : s.log = ⟨layout.start, layout.size, 0, false, []⟩) (power : s.power = none)
    (shown : ∀ n, words (s.disk n) = start.disk n) (durable : ∀ n, words (s.durable n) = start.disk n)
    (run : Run (machine layout start) c) (bytes : run.Every Bytes) :
    ∃ t, Nonempty (Run (calls s) t) ∧ Cached layout t c (history run) := by
  refine Path.simulated (R := Cached layout) ?_ ?_ run bytes
  · intro c a d recorded t moved bytes cached
    exact cached_step cached s moved bytes
  · exact ⟨boot_coherent start, power, log, fun n _ => shown n, fun n _ => durable n⟩

end Cache

end Xv6Monitor.FileSystem.Storage
