import Xv6Monitor.Disk.Stages

/-! The invariant of the cache and the log together, and that the steps of processes outside of a commit keep it. -/

namespace Xv6Monitor.Disk.Coherence
open Function Lib.Program Process.Table Concurrent Holding Sections Stages
open Buffers (NBUF ROOTDEV Handle)
open Journal (Block Log Layout readHead)

def commits : Job → Bool
  | .commit | .writeLog _ _ | .writeHead _ | .install false _ _ | .erase false _ | .finish => true
  | _ => false

/-- The cache, the log and the disk hold together what was recorded. -/
structure Coherent (layout : Layout) (s : Sys) (recorded : Nat → Block) : Prop where
  start : s.log.start = layout.start
  size : s.log.size = layout.size
  home : ∀ n ∈ s.log.lh, s.log.home n
  nodup : s.log.lh.Nodup
  short : s.log.lh.length ≤ s.log.size - 1
  outstanding : s.log.outstanding = s.ops.length
  quiet : s.job ≠ .idle → s.ops = []
  committing : s.log.committing = commits s.job
  sound : Sound s.cache (view s.log s.disk recorded) (pinned s.log s.job)
  clean : ∀ n, s.log.home n → n ∉ pinned s.log s.job → s.disk n = recorded n
  copies : ∀ i < copied s.log s.job, s.disk (logBlock s.log i) = recorded (s.log.lh.getD i 0)
  stage : Stage s.cache s.log s.disk recorded s.worker s.job

variable {layout : Layout} {s t : Sys} {recorded : Nat → Block} {p : Slot} {b : Handle} {n : Nat}

variable (inv : Coherent layout s recorded)
include inv

theorem Coherent.settled : ∀ m, m ∉ pinned s.log s.job → view s.log s.disk recorded m = s.disk m := by
  intro m loose
  unfold view
  by_cases home : s.log.home m
  · rw [if_pos home]
    exact (inv.clean m home loose).symm
  · rw [if_neg home]

variable {cache : Cache}

theorem Coherent.recache (sound : Sound cache (view s.log s.disk recorded) (pinned s.log s.job))
    (follows : s.job = .idle ∨ Follows s.cache cache s.worker) : Coherent layout { s with cache := cache } recorded := by
  refine ⟨inv.start, inv.size, inv.home, inv.nodup, inv.short, inv.outstanding, inv.quiet, inv.committing, sound, inv.clean,
    inv.copies, ?_⟩
  rcases follows with idle | follows
  · change Stage cache s.log s.disk recorded s.worker s.job
    rw [idle]
    trivial
  · exact inv.stage.follow follows

theorem exec_coherent {x : Section Unit} {recorded' : Nat → Block}
    (ends : Ends Any x s fun _ t => Coherent layout t recorded') (still : ∀ e, x s = .error e → recorded' = recorded) :
    Coherent layout (s.exec x) recorded' := by
  unfold Sys.exec
  cases ran : x s with
  | ok _ => exact ends.ok ran
  | error e =>
    rw [still e ran]
    exact ⟨inv.start, inv.size, inv.home, inv.nodup, inv.short, inv.outstanding, inv.quiet, inv.committing, inv.sound, inv.clean,
      inv.copies, inv.stage⟩

omit inv

variable {E : Panic → Prop}

theorem bget_ends {Q : Handle → Sys → Prop} (panics : E .noBuffers)
    (got : ∀ b cache, s.cache.bget p n = some (b, cache) → Q b { s with cache := cache }) : Ends E (bget p n) s Q := by
  unfold Concurrent.bget
  rw [ends_get_bind]
  cases found : s.cache.bget p n with
  | none => exact panics
  | some _ => exact got _ _ found

variable {Q : Unit → Sys → Prop}

theorem brelse_ends (locked : (s.cache.buf b).lock = some p)
    (done : Q () { s with cache := s.cache.releasesleep p b }) : Ends E (brelse p b) s Q := by
  unfold brelse
  rw [ends_get_bind, if_pos locked]
  exact done

theorem bwrite_ends (locked : (s.cache.buf b).lock = some p) (done : Q () { s with
      disk := update s.disk (s.cache.buf b).blockno (s.cache.buf b).data, cache := s.cache.mark b false }) :
    Ends E (bwrite p b) s Q := by
  unfold bwrite
  rw [ends_get_bind, if_pos locked]
  exact done

theorem follows_idle (idle : s.idle p) (keeps : ∀ q, q ≠ p → Keeps s.cache cache q)
    (pcs : ∀ q, q ≠ p → cache.pc q = s.cache.pc q) : s.job = .idle ∨ Follows s.cache cache s.worker := by
  rcases idle.2.1 with same | other
  · exact Or.inl same
  · exact Or.inr (follows_other (keeps _ other) (pcs _ other))

include inv

theorem coherent_bread (idle : s.idle p) : Coherent layout (s.exec do let _ ← bget p n) recorded := by
  refine exec_coherent inv ?_ fun _ _ => rfl
  refine Ends.bind (bget_ends (Q := fun _ t => Coherent layout t recorded) trivial ?_) fun _ _ inv => inv
  intro b cache got
  obtain ⟨sound, -, -, pcs, keeps⟩ := bget_sound inv.sound idle.1 got
  exact inv.recache sound (follows_idle idle (fun q _ => keeps q) pcs)

theorem coherent_brelse (idle : s.idle p) (locked : (s.cache.buf b).lock = some p)
    (settled : s.cache.dirty b = false) : Coherent layout (s.exec (brelse p b)) recorded := by
  refine exec_coherent inv (brelse_ends locked ?_) fun _ _ => rfl
  have bufs : ∀ a, a ≠ b → (s.cache.releasesleep p b).buf a = s.cache.buf a := fun a other => update_of_ne other ..
  refine inv.recache (releasesleep_sound inv.sound idle.1 locked settled)
    (follows_idle idle (fun q other => keeps_locked bufs (fun _ _ => rfl) locked other) fun q other => ?_)
  exact update_of_ne other ..

theorem coherent_change (idle : s.idle p) (locked : (s.cache.buf b).lock = some p)
    (data : Block) : Coherent layout { s with cache := s.cache.memmove b data } recorded := by
  have bufs : ∀ a, a ≠ b → (s.cache.memmove b data).buf a = s.cache.buf a := fun a other => update_of_ne other ..
  have marks : ∀ a, a ≠ b → (s.cache.memmove b data).dirty a = s.cache.dirty a := fun a other => update_of_ne other ..
  exact inv.recache (memmove_sound inv.sound idle.1 locked data)
    (follows_idle idle (fun q other => keeps_locked bufs marks locked other) fun q _ => rfl)

theorem coherent_acquiresleep (done : s.cache.acquiresleep p = some cache) :
    Coherent layout { s with cache := cache } recorded :=
  inv.recache (acquiresleep_sound inv.sound done).1 (Or.inr (follows_acquiresleep inv.sound done _))

theorem coherent_fill (done : s.cache.fill s.disk p = some cache) :
    Coherent layout { s with cache := cache } recorded :=
  inv.recache (fill_sound inv.sound inv.settled done).1 (Or.inr (follows_fill inv.sound inv.settled done _))

theorem coherent_drop (done : s.cache.drop p = some cache) :
    Coherent layout { s with cache := cache } recorded :=
  inv.recache (drop_sound inv.sound done).1 (Or.inr (follows_drop inv.sound done _))

theorem Coherent.running (mem : p ∈ s.ops) : s.job = .idle := by
  by_contra busy
  rw [inv.quiet busy] at mem
  exact nomatch mem

variable {log : Log}

theorem coherent_beginOp (idle : s.idle p) (done : s.log.beginOp = some log) :
    Coherent layout { s with log := log, ops := p :: s.ops } recorded := by
  simp only [Log.beginOp, Option.ite_none_left_eq_some, Option.some.injEq] at done
  obtain ⟨free, -, rfl⟩ := done
  have rests : s.job = .idle := by
    have flag := inv.committing
    rw [Bool.not_eq_true] at free
    rw [free] at flag
    have up := idle.2.2
    cases job : s.job with
    | idle => rfl
    | install recovering tail place =>
      rw [job] at flag up
      cases recovering
      · exact nomatch flag
      · exact nomatch up
    | erase recovering place =>
      rw [job] at flag up
      cases recovering
      · exact nomatch flag
      · exact nomatch up
    | readHead =>
      rw [job] at up
      exact nomatch up
    | loadHead b =>
      rw [job] at up
      exact nomatch up
    | _ =>
      rw [job] at flag
      exact nomatch flag
  refine ⟨inv.start, inv.size, inv.home, inv.nodup, inv.short, ?_, ?_, inv.committing, inv.sound, inv.clean, inv.copies, ?_⟩
  · rw [List.length_cons, ← inv.outstanding]
  · exact fun busy => absurd rests busy
  · change Stage s.cache _ s.disk recorded s.worker s.job
    rw [rests]
    trivial

omit inv

theorem view_record {disk : Nat → Block} (home : log.home n) (data : Block) :
    view log disk (update recorded n data) = update (view log disk recorded) n data := by
  funext m
  unfold view
  by_cases here : m = n
  · subst here
    rw [if_pos home, update_self, update_self]
  · rw [update_of_ne here, update_of_ne here]

def record (s : Sys) (a : Action) (t : Sys) (recorded : Nat → Block) : Nat → Block :=
  match a with
  | .logWrite _ b =>
    if t.panicked = none then update recorded (s.cache.buf b).blockno (s.cache.buf b).data else recorded
  | _ => recorded

theorem exec_logWrite (s : Sys) (b : Handle) : s.exec (logWrite b) =
    match s.log.logWrite (s.cache.buf b).blockno with
    | .ok log => { s with
        log := log
        cache := (if (s.cache.buf b).blockno ∈ s.log.lh then s.cache else s.cache.bpin b).mark b false }
    | .error reason => { s with panicked := some (.log reason) } := by
  unfold Sys.exec logWrite
  simp only [bind, StateT.bind, get, getThe, MonadStateOf.get, StateT.get, pure, Except.pure, Except.bind]
  cases s.log.logWrite (s.cache.buf b).blockno <;> rfl

include inv

theorem coherent_logWrite (alive : s.panicked = none) (idle : s.idle p) (mem : p ∈ s.ops)
    (holds : s.holds p b) :
    Coherent layout (s.exec (logWrite b)) (record s (.logWrite p b) (s.exec (logWrite b)) recorded) := by
  have rests := inv.running mem
  obtain ⟨locked, home⟩ := holds
  cases done : s.log.logWrite (s.cache.buf b).blockno with
  | error reason =>
    rw [exec_logWrite, done]
    exact ⟨inv.start, inv.size, inv.home, inv.nodup, inv.short, inv.outstanding, inv.quiet, inv.committing, inv.sound, inv.clean,
      inv.copies, inv.stage⟩
  | ok log =>
    rw [exec_logWrite, done]
    unfold record
    dsimp only
    rw [if_pos alive]
    obtain ⟨room, rfl⟩ := Log.logWrite_ok done
    have sound := inv.sound
    have clean := inv.clean
    rw [rests] at sound clean
    have member : ∀ m, m ∈ (if (s.cache.buf b).blockno ∈ s.log.lh then s.log.lh else s.log.lh ++ [(s.cache.buf b).blockno]) ↔
        m ∈ s.log.lh ∨ m = (s.cache.buf b).blockno := by
      intro m
      split
      next old =>
        refine ⟨Or.inl, fun either => either.elim id fun same => ?_⟩
        rw [same]
        exact old
      · rw [List.mem_append, List.mem_singleton]
    refine ⟨inv.start, inv.size, ?_, ?_, ?_, inv.outstanding, inv.quiet, inv.committing, ?_, ?_, ?_, ?_⟩
    · intro m listed
      rcases (member m).mp listed with old | rfl
      · exact inv.home m old
      · exact home
    · dsimp only
      split
      · exact inv.nodup
      next new =>
        refine List.nodup_append.mpr ⟨inv.nodup, List.nodup_singleton _, fun m old k single same => new ?_⟩
        rw [← List.mem_singleton.mp single, ← same]
        exact old
    · dsimp only
      split
      · exact inv.short
      · rw [List.length_append]
        exact room
    · change Sound _ (view s.log s.disk _) (pinned _ s.job)
      rw [rests, view_record home]
      exact logWrite_sound sound idle.1 locked
    · intro m outside loose
      rw [rests] at loose
      have apart : m ≠ (s.cache.buf b).blockno := fun same => loose ((member m).mpr (Or.inr same))
      rw [update_of_ne apart]
      exact clean m outside fun old => loose ((member m).mpr (Or.inl old))
    · dsimp only
      rw [rests]
      exact fun i less => absurd less (Nat.not_lt_zero i)
    · dsimp only
      rw [rests]
      trivial

theorem coherent_endOp {doCommit : Bool} (mem : p ∈ s.ops)
    (done : s.log.endOp = .ok (log, doCommit)) : Coherent layout { s with
      log := log, ops := s.ops.erase p, worker := if doCommit then p else s.worker
      job := if doCommit then .commit else s.job } recorded := by
  have rests := inv.running mem
  have flag := inv.committing
  have sound := inv.sound
  have clean := inv.clean
  have count := inv.outstanding
  rw [rests] at sound clean flag
  have fewer := List.length_erase_of_mem mem
  unfold Log.endOp at done
  dsimp only at done
  split at done
  · exact nomatch done
  split at done
  next last =>
    obtain ⟨rfl, rfl⟩ := Prod.mk.inj (Except.ok.inj done)
    have none : s.ops.erase p = [] := List.eq_nil_of_length_eq_zero (by omega)
    refine ⟨inv.start, inv.size, inv.home, inv.nodup, inv.short, ?_, fun _ => none, rfl, sound, clean, ?_, trivial⟩
    · rw [none]
      exact last
    · exact fun i less => absurd less (Nat.not_lt_zero i)
  next more =>
    obtain ⟨rfl, rfl⟩ := Prod.mk.inj (Except.ok.inj done)
    refine ⟨inv.start, inv.size, inv.home, inv.nodup, inv.short, ?_, fun busy => absurd rests busy, inv.committing,
      inv.sound, inv.clean, inv.copies, ?_⟩
    · rw [fewer, ← count]
    · change Stage s.cache _ s.disk recorded s.worker s.job
      rw [rests]
      trivial

end Xv6Monitor.Disk.Coherence
