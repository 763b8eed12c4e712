import Xv6Monitor.Disk.OneDisk

/-! When the buffer cache runs dry: exactly when a block without a buffer is asked for while every buffer is with a
process or pinned by the log. Processes that read are not counted against `NBUF`. -/

namespace Xv6Monitor.Disk.Exhaustion
open Lib.Program Lib.Tally Lib.Transition Process.Table Concurrent Holding Sections Stages Coherence OneDisk
open Buffers (NBUF ROOTDEV Handle)
open Journal (Block Log Layout)

variable {layout : Layout} {s t : Sys} {recorded : Nat → Block} {p : Slot} {b : Handle} {n : Nat} {a : Action}

def Taken (s : Sys) (b : Handle) : Prop := (∃ p, counts (s.cache.pc p) = some b) ∨ (s.cache.buf b).lock ≠ none

instance (s : Sys) (b : Handle) : Decidable (Taken s b) := inferInstanceAs (Decidable (_ ∨ _))

def Pinned (s : Sys) (b : Handle) : Prop :=
  (s.cache.buf b).dev = ROOTDEV ∧ (s.cache.buf b).blockno ∈ pinned s.log s.job

instance (s : Sys) (b : Handle) : Decidable (Pinned s b) := inferInstanceAs (Decidable (_ ∧ _))

def Supplied (s : Sys) (n : Nat) : Prop := (∃ b, Caches s.cache b n) ∨ ∃ b, ¬Taken s b ∧ ¬Pinned s b

def wanted (log : Log) : Job → Option Nat
  | .readHead | .writeHead .start | .erase _ .start => some log.start
  | .writeLog tail .start | .install _ tail .start => if tail < log.lh.length then some (log.start + tail + 1) else none
  | .writeLog tail (.first _) | .install _ tail (.first _) => some (log.lh.getD tail 0)
  | _ => none

def requested (s : Sys) : Action → Option Nat
  | .bread _ n => some n
  | .work => wanted s.log s.job
  | _ => none

variable (inv : Coherent layout s recorded)
include inv

theorem refcnt_zero : (s.cache.buf b).refcnt = 0 ↔ ¬Taken s b ∧ ¬Pinned s b := by
  constructor
  · intro idle
    obtain ⟨free, unpinned, uncounted⟩ := inv.sound.idle_free idle
    refine ⟨?_, fun pin => unpinned _ ⟨pin.1, rfl⟩ pin.2⟩
    rintro (⟨q, counted⟩ | locked)
    · exact uncounted q counted
    · exact locked free
  · rintro ⟨untaken, unpinned⟩
    obtain ⟨uncounted, free⟩ := not_or.mp untaken
    have none : tally (fun q => counts (s.cache.pc q)) b = 0 := by
      rw [tally_apply, Nat.cast_eq_zero, Finset.card_eq_zero, Finset.filter_eq_empty_iff]
      exact fun q _ counted => uncounted ⟨q, counted⟩
    have count := inv.sound.counted b
    have lock : owned (s.cache.buf b).lock = 0 := if_pos (not_not.mp free)
    have pin : logged (pinned s.log s.job) (s.cache.buf b) = 0 := if_neg unpinned
    rw [references, none, lock, pin] at count
    exact_mod_cast count

theorem bget_none : s.cache.bget p n = none ↔ ¬Supplied s n := by
  have idle : (∃ b, (s.cache.buf b).refcnt = 0) ↔ ∃ b, ¬Taken s b ∧ ¬Pinned s b := exists_congr fun b => refcnt_zero inv
  unfold Supplied
  rw [← idle, not_or, not_exists, not_exists]
  rcases bget_cases inv.sound p n with ⟨b, cached, found⟩ | ⟨-, b, free, found⟩ | ⟨nowhere, used, failed⟩
  · rw [found]
    exact iff_of_false nofun fun both => both.1 b cached
  · rw [found]
    exact iff_of_false nofun fun both => both.2 b free
  · rw [failed]
    exact iff_of_true rfl ⟨nowhere, used⟩

theorem supplied_of_few
    (few : (Finset.univ.filter (Taken s)).card + (pinned s.log s.job).length < NBUF) : Supplied s n := by
  by_contra dry
  have needed : ∀ b, Taken s b ∨ Pinned s b := by
    intro b
    by_contra neither
    exact dry (Or.inr ⟨b, not_or.mp neither⟩)
  have pins : (Finset.univ.filter (Pinned s)).card ≤ (pinned s.log s.job).length := by
    refine le_trans (Finset.card_le_card_of_injOn (t := (pinned s.log s.job).toFinset) (fun b => (s.cache.buf b).blockno) ?_ ?_)
      (List.toFinset_card_le _)
    · intro b mem
      exact List.mem_toFinset.mpr (Finset.mem_filter.mp mem).2.2
    · intro b mem b' mem' same
      exact inv.sound.unique b b' _ ⟨(Finset.mem_filter.mp mem).2.1, same⟩ ⟨(Finset.mem_filter.mp mem').2.1, rfl⟩
  have all : (Finset.univ : Finset Handle) ⊆ Finset.univ.filter (Taken s) ∪ Finset.univ.filter (Pinned s) := by
    intro b _
    rw [Finset.mem_union, Finset.mem_filter, Finset.mem_filter]
    exact (needed b).imp (fun taken => ⟨Finset.mem_univ b, taken⟩) fun pin => ⟨Finset.mem_univ b, pin⟩
  have total := (Finset.card_le_card all).trans (Finset.card_union_le _ _)
  rw [Finset.card_univ, Fintype.card_fin] at total
  omega

omit inv

/-- A section that does not call `bget` does not run out of buffers. -/
def Careful (s : Sys) (x : Section Unit) : Prop := Ends (fun e => e ≠ .noBuffers) x s fun _ t => t.panicked = s.panicked

variable (alive : s.panicked = none)
include alive

theorem exec_careful {x : Section Unit} (careful : Careful s x) : (s.exec x).panicked ≠ some .noBuffers := by
  unfold Sys.exec
  cases ran : x s with
  | ok result =>
    have same : result.2.panicked = s.panicked := careful.ok ran
    rw [same, alive]
    exact nofun
  | error e =>
    have other : e ≠ .noBuffers := careful.error ran
    exact fun same => other (Option.some.inj same)

theorem exec_get {next : Handle → Section Unit} (rest : ∀ b c, Careful { s with cache := c } (next b)) :
    (s.exec (bget p n >>= next)).panicked = some .noBuffers ↔ s.cache.bget p n = none := by
  cases got : s.cache.bget p n with
  | none =>
    have ran : s.exec (bget p n >>= next) = { s with panicked := some .noBuffers } := by
      unfold Sys.exec Concurrent.bget
      simp only [bind, StateT.bind, get, getThe, MonadStateOf.get, StateT.get, pure, Except.pure, Except.bind, got, stop]
    rw [ran]
    exact iff_of_true rfl rfl
  | some result =>
    have ran : s.exec (bget p n >>= next) = s.exec fun _ => next result.1 { s with cache := result.2 } := by
      unfold Sys.exec Concurrent.bget
      simp only [bind, StateT.bind, get, getThe, MonadStateOf.get, StateT.get, pure, Except.pure, Except.bind, got]
      rfl
    rw [ran]
    exact iff_of_false (exec_careful alive (rest result.1 result.2)) (Option.some_ne_none result)

omit alive

theorem careful_write (p : Slot) (b : Handle) (job : Job) : Careful s (bwrite p b >>= fun _ => goto job) := by
  unfold Careful bwrite
  refine Ends.bind (R := fun _ t => t.panicked = s.panicked) ?_ fun _ _ same => same
  rw [ends_get_bind]
  dsimp only
  split
  · rfl
  · exact (by decide : Panic.bwrite ≠ .noBuffers)

theorem careful_brelse (p : Slot) (b : Handle) : Careful s (brelse p b) := by
  unfold Careful brelse
  rw [ends_get_bind]
  split
  · rfl
  · exact (by decide : Panic.brelse ≠ .noBuffers)

theorem careful_release (p : Slot) (b : Handle) (job : Job) : Careful s (brelse p b >>= fun _ => goto job) :=
  (careful_brelse p b).bind fun _ _ same => same

theorem careful_logWrite (b : Handle) : Careful s (logWrite b) := by
  unfold Careful logWrite
  rw [ends_get_bind]
  dsimp only
  split
  · rfl
  · exact nofun

include inv

theorem get_dry (alive : s.panicked = none) (p : Slot) (n : Nat) (next : Handle → Job) :
    (s.exec (bget p n >>= fun b => goto (next b))).panicked = some .noBuffers ↔ ∃ m ∈ some n, ¬Supplied s m := by
  have rest : ∀ b c, Careful { s with cache := c } (goto (next b)) := fun _ _ => rfl
  rw [exec_get alive rest, bget_none inv]
  exact ⟨fun dry => ⟨n, rfl, dry⟩, fun ⟨m, same, dry⟩ => Option.some.inj same ▸ dry⟩

omit inv

theorem not_dry {x : Section Unit} (alive : s.panicked = none) (careful : Careful s x) :
    (s.exec x).panicked = some .noBuffers ↔ ∃ m ∈ (none : Option Nat), ¬Supplied s m :=
  iff_of_false (exec_careful alive careful) fun ⟨_, mem, _⟩ => nomatch mem

include inv

include alive

theorem writeLog_dry (tail : Nat) (place : Copying) :
    (s.exec (writeLog tail place)).panicked = some .noBuffers ↔ ∃ n ∈ wanted s.log (.writeLog tail place), ¬Supplied s n := by
  cases place with
  | start =>
    have unfolded : s.exec (writeLog tail .start) = s.exec (if tail < s.log.lh.length
        then bget s.worker (s.log.start + tail + 1) >>= fun l => goto (.writeLog tail (.first l))
        else goto (.writeHead .start)) := rfl
    rw [unfolded, wanted]
    by_cases more : tail < s.log.lh.length
    · rw [if_pos more, if_pos more]
      exact get_dry inv alive _ _ _
    · rw [if_neg more, if_neg more]
      exact not_dry alive rfl
  | first l => exact get_dry inv alive s.worker (s.log.lh.getD tail 0) fun d => .writeLog tail (.both l d)
  | both l d => exact not_dry alive rfl
  | copied l d => exact not_dry alive (careful_write _ _ _)
  | written l d => exact not_dry alive (careful_release _ _ _)
  | released l => exact not_dry alive (careful_release _ _ _)

theorem install_dry (recovering : Bool) (tail : Nat)
    (place : Copying) : (s.exec (install recovering tail place)).panicked = some .noBuffers ↔
      ∃ n ∈ wanted s.log (.install recovering tail place), ¬Supplied s n := by
  cases place with
  | start =>
    have unfolded : s.exec (install recovering tail .start) = s.exec (if tail < s.log.lh.length
        then bget s.worker (s.log.start + tail + 1) >>= fun l => goto (.install recovering tail (.first l))
        else (modify fun s => { s with log := { s.log with lh := [] } }) >>= fun _ => goto (.erase recovering .start)) := rfl
    rw [unfolded, wanted]
    by_cases more : tail < s.log.lh.length
    · rw [if_pos more, if_pos more]
      exact get_dry inv alive _ _ _
    · rw [if_neg more, if_neg more]
      exact not_dry alive rfl
  | first l => exact get_dry inv alive s.worker (s.log.lh.getD tail 0) fun d => .install recovering tail (.both l d)
  | both l d => exact not_dry alive rfl
  | copied l d => exact not_dry alive (careful_write _ _ _)
  | written l d =>
    cases recovering with
    | true => exact not_dry alive (careful_release _ _ _)
    | false => exact not_dry alive (careful_release (s := { s with cache := s.cache.bunpin d }) s.worker l _)
  | released l => exact not_dry alive (careful_release _ _ _)

theorem writeHead_dry (next : Job) (here : Heading → Job)
    (place : Heading) : (s.exec (writeHead next here place)).panicked = some .noBuffers ↔
      ∃ n ∈ (if place = .start then some s.log.start else none), ¬Supplied s n := by
  cases place with
  | start => exact get_dry inv alive s.worker s.log.start fun b => here (.first b)
  | first b => exact not_dry alive rfl
  | filled b => exact not_dry alive (careful_write _ _ _)
  | written b => exact not_dry alive (careful_release _ _ _)

omit alive

omit inv

theorem wanted_writeHead (log : Log) (place : Heading) :
    wanted log (.writeHead place) = if place = .start then some log.start else none := by
  cases place <;> rfl

theorem wanted_erase (log : Log) (recovering : Bool) (place : Heading) :
    wanted log (.erase recovering place) = if place = .start then some log.start else none := by
  cases place <;> rfl

include inv

include alive

theorem work_dry :
    (s.exec (work s.job)).panicked = some .noBuffers ↔ ∃ n ∈ wanted s.log s.job, ¬Supplied s n := by
  cases s.job with
  | idle => exact not_dry alive rfl
  | readHead => exact get_dry inv alive s.worker s.log.start .loadHead
  | loadHead b => exact not_dry alive (careful_release (s := { s with log := _ }) s.worker b _)
  | commit =>
    refine not_dry alive ?_
    unfold Careful work
    rw [ends_get_bind]
    split <;> rfl
  | writeLog tail place => exact writeLog_dry inv alive tail place
  | writeHead place =>
    rw [wanted_writeHead]
    exact writeHead_dry inv alive (.install false 0 .start) .writeHead place
  | install recovering tail place => exact install_dry inv alive recovering tail place
  | erase recovering place =>
    rw [wanted_erase]
    exact writeHead_dry inv alive (if recovering then .idle else .finish) (.erase recovering) place
  | finish => exact not_dry alive rfl

/-- A step runs out of buffers exactly if it asks for a block and there is none. -/
theorem act_dry (done : act s a = some t) :
    t.panicked = some .noBuffers ↔ ∃ n ∈ requested s a, ¬Supplied s n := by
  have same (kept : t.panicked = s.panicked) : t.panicked = some .noBuffers ↔ ∃ n ∈ (none : Option Nat), ¬Supplied s n := by
    rw [kept, alive]
    exact iff_of_false (by simp) (by simp)
  cases act_acts done with
  | beginOp | acquiresleep | fill | change | drop | endOp => exact same rfl
  | bread =>
    have rest : ∀ (b : Handle) c, Careful { s with cache := c } (pure ()) := fun _ _ => rfl
    rw [exec_get alive rest, bget_none inv]
    simp [requested]
  | logWrite => exact not_dry alive (careful_logWrite _)
  | brelse => exact not_dry alive (careful_brelse _ _)
  | stuck => exact iff_of_false (by simp) (by simp [requested])
  | work => exact work_dry inv alive

omit alive

omit inv

def Provided (s : Sys) (a : Action) (_ : Sys) : Prop := ∀ n ∈ requested s a, Supplied s n

/-- A run comes to `panic("bget: no buffers")` exactly if one of its steps asks for a block that has no buffer while
every buffer is with a process or pinned by the log. Fewer than `NBUF` such buffers are enough. -/
theorem buffers_suffice_iff (layout : Layout) (start : Clean layout) {s : Sys} (run : Run (machine layout start) s) :
    (s.panicked ≠ some .noBuffers ↔ run.Every Provided) ∧
      ((Finset.univ.filter (Taken s)).card + (pinned s.log s.job).length < NBUF → ∀ a t, Provided s a t) := by
  refine ⟨?_, fun few a t n _ => supplied_of_few (run_coherent run) few⟩
  induction run with
  | nil => exact iff_of_true nofun (Path.every_nil _)
  | @snoc s t path a moved ih =>
    obtain ⟨alive, done⟩ := step_act moved
    have before : path.Every Provided := by
      rw [← ih, alive]
      exact nofun
    have last : t.panicked ≠ some .noBuffers ↔ Provided s a t := by
      rw [ne_eq, act_dry (run_coherent path) alive done]
      simp only [Provided, not_exists, not_and, not_not]
    rw [Path.every_snoc, last, and_iff_right before]

def recovery : List Action :=
  [.work, .acquiresleep 0, .fill 0, .work, .drop 0, .work, .work, .acquiresleep 0, .work, .work, .work, .drop 0]

/-- Every process but the first starts `readi` of a block of its own. -/
def readers (k : Nat) (few : k < NPROC) : List Action :=
  (List.finRange k).map fun (i : Fin k) => .bread ⟨i + 1, Nat.lt_of_le_of_lt i.isLt few⟩ (100 + i)

/-- Thirty-one processes read different blocks, one block each; none is in a transaction and the log is empty. -/
theorem readers_exhaust : ∃ s, Reachable (machine Layout.mkfs ⟨fun _ _ => 0, rfl⟩) s ∧
    s.panicked = some .noBuffers ∧ s.ops = [] ∧ s.log.lh = [] ∧ s.job = .idle ∧ ∀ b, (s.cache.buf b).refcnt = 1 :=
  reachable_exec (recovery ++ readers 31 (by decide)) (by decide +kernel)

end Xv6Monitor.Disk.Exhaustion
