import Xv6Monitor.Disk.Recovery

/-! Every step keeps the invariant: those of operations and of readers, each section of `commit` and
of `recover_from_log`, and a crash at any point. -/

namespace Xv6Monitor.Disk.Commit
open Function Lib.Redo Buffers Journal Replay Recovery

variable {layout : Layout} {s t : Sys} {h : History}

variable (inv : Consistent layout s h)
include inv

theorem Consistent.recache {cache : Bcache Block}
    (sound : Sound cache (view s.disk (pinned s.job s.log) h) (pinned s.job s.log)) :
    Consistent layout { s with cache := cache } h :=
  ⟨inv.start, inv.size, inv.placed, inv.outstanding, sound, inv.stage⟩

variable {w : Tid} {n : Nat}

theorem consistent_bread (done : step s (.bread w n) = some t) : Consistent layout t h := by
  simp only [step, Option.ite_none_left_eq_some, Option.map_eq_some_iff, Prod.exists] at done
  obtain ⟨-, _, _, read, rfl⟩ := done
  exact Consistent.recache inv (bread_sound inv.sound (view_clean _ _ h) read).1

theorem consistent_brelse {b : Handle} (done : step s (.brelse w b) = some t) : Consistent layout t h := by
  simp only [step, Option.map_eq_some_iff] at done
  obtain ⟨_, released, rfl⟩ := done
  have locked : (s.cache.buf b).lock = some w := by
    by_contra other
    simp [brelse, other] at released
  obtain ⟨_, result, sound, -⟩ := brelse_sound inv.sound (inv.sound.holds locked)
  rw [released] at result
  cases result
  exact Consistent.recache inv sound

theorem Consistent.running (busy : s.ops ≠ []) : s.job = .idle ∧ Running s.disk s.log h := by
  have stage := inv.stage
  unfold Stage at stage
  split at stage
  · exact ⟨‹_›, stage⟩
  all_goals first
    | exact absurd stage.1.ops busy
    | exact absurd stage.ops busy

theorem Consistent.idle (up : s.job.recovering = false) (free : s.log.committing = false) :
    s.job = .idle ∧ Running s.disk s.log h := by
  have stage := inv.stage
  unfold Stage at stage
  split at stage
  all_goals first
    | (have taken := stage.1.committing
       rw [free] at taken
       cases taken
       done)
    | (have taken := stage.committing
       rw [free] at taken
       cases taken
       done)
    | simp_all [Job.recovering]

theorem consistent_begin (done : step s (.beginOp w) = some t) :
    Consistent layout t (observe s (.beginOp w) t h) := by
  simp only [step, Option.ite_none_left_eq_some, Option.map_eq_some_iff, Log.beginOp, Option.some.injEq] at done
  obtain ⟨running, _, ⟨uncommitted, -, rfl⟩, rfl⟩ := done
  have up : s.job.recovering = false := by
    by_contra recovering
    exact running (Or.inl (by simpa using recovering))
  obtain ⟨idle, stage⟩ := Consistent.idle inv up (by simpa using uncommitted)
  refine ⟨inv.start, inv.size, ⟨inv.placed.short, inv.placed.home, inv.placed.distinct⟩, by simp [inv.outstanding], inv.sound, ?_⟩
  simp only [idle]
  exact ⟨stage.committing, stage.empty, stage.settled, stage.returned, stage.dirty⟩

theorem consistent_write {b : Handle} {data : Block}
    (done : step s (.write w b data) = some t) : Consistent layout t (observe s (.write w b data) t h) := by
  simp only [step, Option.ite_none_right_eq_some] at done
  obtain ⟨⟨member, locked, rooted, home⟩, done⟩ := done
  obtain ⟨idle, stage⟩ := Consistent.running inv (List.ne_nil_of_mem member)
  have sound := inv.sound
  simp only [idle] at sound
  obtain ⟨moved, held⟩ := memmove_sound sound (sound.holds locked) data
  have pushed := logical_push h ⟨h.opOf w, (s.cache.buf b).blockno, data⟩
  simp only [observe]
  generalize (s.cache.buf b).blockno = n at *
  have seen : ∀ pins, n ∈ pins → (∀ m, m ≠ n → (m ∈ pins ↔ m ∈ s.log.lh)) →
      view s.disk pins { h with current := h.current ++ [⟨h.opOf w, n, data⟩] } =
        update (view s.disk s.log.lh h) n data := by
    intro pins mem others
    funext m
    by_cases here : m = n
    · subst here
      simp [view, mem, pushed]
    · simp only [view, others m here, pushed, update_of_ne here]
  have closed : ∀ lh : List Nat, n ∈ lh → (∀ m, m ≠ n → (m ∈ lh ↔ m ∈ s.log.lh)) →
      Running s.disk { s.log with lh := lh } { h with current := h.current ++ [⟨h.opOf w, n, data⟩] } := by
    intro lh mem others
    refine ⟨stage.committing, stage.empty, stage.settled, stage.returned, fun m => ?_⟩
    by_cases here : m = n
    · subst here
      exact ⟨fun _ => ⟨_, List.mem_append_right _ List.mem_cons_self, rfl⟩, fun _ => mem⟩
    rw [show (m ∈ lh) = _ from propext (others m here), stage.dirty m]
    constructor
    · rintro ⟨u, made, there⟩
      exact ⟨u, List.mem_append_left _ made, there⟩
    rintro ⟨u, made, there⟩
    rcases List.mem_append.mp made with old | new
    · exact ⟨u, old, there⟩
    · rw [List.mem_singleton.mp new] at there
      exact absurd there.symm here
  unfold Log.logWrite at done
  by_cases full : LOGSIZE ≤ s.log.lh.length ∨ s.log.size - 1 ≤ s.log.lh.length
  · simp only [full, if_true, reduceCtorEq] at done
  by_cases outside : s.log.outstanding < 1
  · simp only [full, outside, if_true, if_false, reduceCtorEq] at done
  by_cases absorbed : n ∈ s.log.lh
  · simp only [full, outside, absorbed, if_true, if_false, Option.some.injEq] at done
    subst done
    refine ⟨inv.start, inv.size, inv.placed, inv.outstanding, ?_, ?_⟩
    · simp only [idle, pinned]
      rw [seen s.log.lh absorbed fun m _ => Iff.rfl]
      exact moved
    · simp only [idle]
      exact closed s.log.lh absorbed fun m _ => Iff.rfl
  · simp only [full, outside, absorbed, if_false, Option.some.injEq] at done
    subst done
    have others : ∀ m, m ≠ n → (m ∈ s.log.lh ++ [n] ↔ m ∈ s.log.lh) := by
      intro m other
      simp [other]
    refine ⟨inv.start, inv.size, ⟨?_, ?_, ?_⟩, inv.outstanding, ?_, ?_⟩
    · simp only [List.length_append, List.length_singleton]
      omega
    · intro m mem
      rcases List.mem_append.mp mem with old | new
      · exact inv.placed.home m old
      · rw [List.mem_singleton.mp new]
        exact home
    · rw [List.nodup_append]
      refine ⟨inv.placed.distinct, by simp, fun m old m' new => ?_⟩
      rw [List.mem_singleton.mp new]
      rintro rfl
      exact absorbed old
    · simp only [idle, pinned]
      rw [seen (s.log.lh ++ [n]) (by simp) others]
      exact bpin_sound moved held absorbed
    · simp only [idle]
      exact closed (s.log.lh ++ [n]) (by simp) others

theorem consistent_end (done : step s (.endOp w) = some t) :
    Consistent layout t (observe s (.endOp w) t h) := by
  simp only [step, Option.ite_none_right_eq_some] at done
  obtain ⟨member, done⟩ := done
  obtain ⟨idle, stage⟩ := Consistent.running inv (List.ne_nil_of_mem member)
  have count := inv.outstanding
  have left : (s.ops.erase w).length = s.ops.length - 1 := List.length_erase_of_mem member
  have sound := inv.sound
  simp only [idle] at sound
  simp only [Log.endOp, stage.committing, Bool.false_eq_true, if_false] at done
  by_cases last : s.log.outstanding - 1 = 0
  · -- the last operation ends: its transaction is committed
    simp only [last, if_true, Option.some.injEq] at done
    subst done
    have gone : s.ops.erase w = [] := List.eq_nil_of_length_eq_zero (by omega)
    show Consistent layout _ h.close
    refine ⟨inv.start, inv.size, ⟨inv.placed.short, inv.placed.home, inv.placed.distinct⟩, by simp [gone], ?_, ?_, ?_⟩
    · have same : view s.disk s.log.lh h.close = view s.disk s.log.lh h := by
        unfold view
        rw [logical_close]
      simp only [pinned, same]
      exact sound
    · refine ⟨rfl, gone, rfl, by simp [History.close, stage.returned], fun n home loose => ?_⟩
      rw [logical_close, logical_other, stage.settled n home]
      intro u made there
      exact loose ((stage.dirty n).mpr ⟨u, made, there⟩)
    · refine ⟨stage.empty, fun n home => ?_, fun i n below => absurd below (Nat.not_lt_zero i)⟩
      have length : h.close.committed.length - 1 = h.committed.length := by simp [History.close]
      rw [length, after_close]
      exact stage.settled n home
  · simp only [last, if_false, Option.some.injEq] at done
    subst done
    refine ⟨inv.start, inv.size, ⟨inv.placed.short, inv.placed.home, inv.placed.distinct⟩, by simp [left, count], ?_, ?_⟩
    · simp only [idle]
      exact sound
    · simp only [idle]
      exact ⟨rfl, stage.empty, stage.settled, stage.returned, stage.dirty⟩

theorem consistent_crash (done : step s .crash = some t) : Consistent layout t h := by
  cases done
  obtain ⟨placed, restores⟩ := Consistent.durable inv
  refine ⟨inv.start, inv.size, ⟨?_, by simp [reboot], List.nodup_nil⟩, rfl, sound_binit _ _,
    ⟨rfl, rfl, ⟨placed.short, placed.home, placed.distinct⟩, restores⟩⟩
  rw [inv.size]
  exact layout.header

omit inv

section Work

theorem view_update {disk : Nat → Block} {pins : List Nat} (loose : n ∉ pins) (data : Block) :
    update (view disk pins h) n data = view (update disk n data) pins h := by
  funext m
  by_cases here : m = n
  · subst here
    simp [view, loose]
  · simp only [view, update_of_ne here]

include inv

variable {tail : Nat}

theorem consistent_writeLog (job : s.job = .writeLog tail)
    (found : s.log.lh[tail]? = some n) (done : writeLogBlock s tail n = some t) :
    Consistent layout (t.goto (.writeLog (tail + 1))) h := by
  obtain ⟨inside, same⟩ := List.getElem?_eq_some_iff.mp found
  have out := Consistent.slot_out inv inside
  have mem : n ∈ s.log.lh := List.mem_of_getElem? found
  have loose : s.log.start + tail + 1 ∉ s.log.lh := fun mem => out (inv.placed.home _ mem)
  have sound := inv.sound
  have stage := inv.stage
  simp only [job, pinned] at sound stage
  obtain ⟨committing, pending⟩ := stage
  obtain ⟨cache, made, kept⟩ := writeLogBlock_spec sound (view_clean _ _ h) done
  have value : view s.disk s.log.lh h n = h.logical n := if_pos mem
  rw [value, view_update loose] at kept
  rw [value] at made
  subst made
  have elsewhere : ∀ m, s.log.home m →
      update s.disk (s.log.start + tail + 1) (h.logical n) m = s.disk m := by
    intro m home
    refine update_of_ne ?_ ..
    rintro rfl
    exact out home
  refine ⟨inv.start, inv.size, inv.placed, inv.outstanding, kept, ?_, ?_⟩
  · refine ⟨committing.committing, committing.ops, committing.current, committing.returned, ?_⟩
    intro m home unpinned
    exact (elsewhere m home).trans (committing.clean m home unpinned)
  refine ⟨?_, fun m home => (elsewhere m home).trans (pending.settled m home), fun i m below there => ?_⟩
  · show readHead (update s.disk (s.log.start + tail + 1) (h.logical n) s.log.start) = []
    rw [update_of_ne (by omega)]
    exact pending.empty
  show update s.disk (s.log.start + tail + 1) (h.logical n) (s.log.start + i + 1) = h.logical m
  by_cases here : i = tail
  · subst here
    obtain rfl := Option.some.inj (there.symm.trans found)
    rw [update_self]
  · rw [update_of_ne (by omega)]
    exact pending.copied i m (by omega) there

/-- The commit point: the header goes to disk. -/
theorem consistent_writeHead (job : s.job = .writeHead)
    (done : writeHead s = some t) : Consistent layout (t.goto (.install false 0)) h := by
  have out := Consistent.start_out inv
  have loose : s.log.start ∉ s.log.lh := fun mem => out (inv.placed.home _ mem)
  have sound := inv.sound
  have stage := inv.stage
  simp only [job, pinned] at sound stage
  obtain ⟨committing, pending⟩ := stage
  obtain ⟨cache, rfl, kept⟩ := writeHead_spec sound (view_clean _ _ h) done
  rw [view_update loose] at kept
  refine ⟨inv.start, inv.size, inv.placed, inv.outstanding, kept, ?_, ?_⟩
  · refine ⟨committing.committing, committing.ops, committing.current, committing.returned, ?_⟩
    intro m home unpinned
    refine (update_of_ne ?_ ..).trans (committing.clean m home unpinned)
    rintro rfl
    exact out home
  · refine ⟨?_, fun i m below there => ?_⟩
    · exact (congrArg readHead (update_self ..)).trans (readHead_storeHead ..)
    · refine (update_of_ne ?_ ..).trans (pending.copied i m below there)
      show s.log.start + i + 1 ≠ s.log.start
      omega

omit inv

theorem drop_cons {lh : List Nat} (found : lh[tail]? = some n) : lh.drop tail = n :: lh.drop (tail + 1) := by
  obtain ⟨inside, same⟩ := List.getElem?_eq_some_iff.mp found
  rw [List.drop_eq_getElem_cons inside, same]

include inv

theorem consistent_install (job : s.job = .install false tail)
    (found : s.log.lh[tail]? = some n) (done : installBlock s false tail n = some t) :
    Consistent layout (t.goto (.install false (tail + 1))) h := by
  obtain ⟨inside, -⟩ := List.getElem?_eq_some_iff.mp found
  have out := Consistent.slot_out inv inside
  have home : s.log.home n := inv.placed.home n (List.mem_of_getElem? found)
  have split := drop_cons found
  have sound := inv.sound
  have stage := inv.stage
  simp only [job, pinned] at sound stage
  obtain ⟨committing, committed⟩ := stage
  have loose : n ∉ s.log.lh.drop (tail + 1) := by
    have distinct : (s.log.lh.drop tail).Nodup := inv.placed.distinct.sublist (List.drop_sublist tail _)
    rw [split] at distinct
    exact (List.nodup_cons.mp distinct).1
  obtain ⟨_, made, kept⟩ := installBlock_spec false (s.log.lh.drop (tail + 1)) sound (view_clean _ _ h)
    split loose done
  have value : view s.disk (s.log.lh.drop tail) h (s.log.start + tail + 1) = h.logical n := by
    rw [view_clean _ _ _ _ fun mem => out (inv.placed.home _ (List.mem_of_mem_drop mem))]
    exact committed.copied tail n inside found
  rw [value] at made kept
  subst made
  have others : ∀ m, m ≠ n → (m ∈ s.log.lh.drop (tail + 1) ↔ m ∈ s.log.lh.drop tail) := by
    intro m other
    simp [split, other]
  have seen : update (view s.disk (s.log.lh.drop tail) h) n (h.logical n) =
      view (update s.disk n (h.logical n)) (s.log.lh.drop (tail + 1)) h := by
    funext m
    by_cases here : m = n
    · subst here
      simp [view]
    · simp only [view, update_of_ne here, others m here]
  rw [seen] at kept
  have elsewhere : ∀ m, ¬s.log.home m → update s.disk n (h.logical n) m = s.disk m := by
    intro m away
    refine update_of_ne ?_ ..
    rintro rfl
    exact away home
  refine ⟨inv.start, inv.size, inv.placed, inv.outstanding, kept, ?_, ?_⟩
  · refine ⟨committing.committing, committing.ops, committing.current, committing.returned, ?_⟩
    intro m there unpinned
    show update s.disk n (h.logical n) m = h.logical m
    by_cases here : m = n
    · subst here
      rw [update_self]
    · rw [update_of_ne here]
      exact committing.clean m there fun mem => unpinned ((others m here).mpr mem)
  · refine ⟨?_, fun i m below there => ?_⟩
    · show readHead (update s.disk n (h.logical n) s.log.start) = s.log.lh
      rw [elsewhere _ (Consistent.start_out inv)]
      exact committed.header
    · exact (elsewhere _ (Consistent.slot_out inv below)).trans (committed.copied i m below there)

theorem consistent_restore (job : s.job = .install true tail)
    (found : s.log.lh[tail]? = some n) (done : installBlock s true tail n = some t) :
    Consistent layout (t.goto (.install true (tail + 1))) h := by
  have sound := inv.sound
  have stage := inv.stage
  simp only [job, pinned] at sound stage
  obtain ⟨⟨free, ops, durable⟩, header, k, low, high, restores⟩ := stage
  have placed := durable.placed
  have home : s.log.home n := inv.placed.home n (List.mem_of_getElem? found)
  obtain ⟨_, made, kept⟩ := installBlock_spec true [] sound (view_clean _ _ h) rfl List.not_mem_nil done
  have seen : ∀ disk : Nat → Block, view disk [] h = disk := fun disk => funext fun m => if_neg List.not_mem_nil
  rw [seen] at made kept
  subst made
  have entry : (n, s.disk (s.log.start + tail + 1)) ∈ entries s.log s.disk :=
    mem_entries.mpr ⟨tail, by rw [← header]; exact found, rfl⟩
  have same := entries_home (s.disk (s.log.start + tail + 1)) placed home
  have intact : update s.disk n (s.disk (s.log.start + tail + 1)) s.log.start = s.disk s.log.start := by
    refine update_of_ne ?_ ..
    rintro start
    exact Consistent.start_out inv (start ▸ home)
  have recover : ∀ m, s.log.home m →
      recovered s.log (update s.disk n (s.disk (s.log.start + tail + 1))) m = h.after k m := by
    intro m there
    rw [recovered_install placed entry]
    exact (restores m there).1
  have split : (entries s.log s.disk).drop tail =
      (n, s.disk (s.log.start + tail + 1)) :: (entries s.log s.disk).drop (tail + 1) := by
    obtain ⟨inside, there⟩ := List.getElem?_eq_some_iff.mp (header ▸ found)
    rw [List.drop_eq_getElem_cons (by simpa [entries] using inside)]
    simp only [entries, List.getElem_mapIdx, there]
  refine ⟨inv.start, inv.size, inv.placed, inv.outstanding, kept, ⟨free, ops, ?_⟩, ?_, k, low, high, ?_⟩
  · exact ⟨by show Placed s.log (readHead (update s.disk n _ s.log.start)); rw [intact]; exact placed,
      k, low, high, recover⟩
  · show s.log.lh = readHead (update s.disk n _ s.log.start)
    rw [intact]
    exact header
  intro m there
  refine ⟨recover m there, ?_⟩
  show write ((entries s.log (update s.disk n _)).drop (tail + 1)) (update s.disk n _) m = _
  rw [same, ← (restores m there).2, split]
  rfl

theorem erase_spec (pins : pinned s.job s.log = [])
    (done : writeHead { s with log := { s.log with lh := [] } } = some t) :
    ∃ cache head, t = { s with
        disk := update s.disk s.log.start head, cache := cache, log := { s.log with lh := [] } } ∧
      Sound cache (view (update s.disk s.log.start head) [] h) [] ∧ readHead head = [] ∧
      ∀ n, s.log.home n → update s.disk s.log.start head n = s.disk n := by
  have sound := inv.sound
  rw [pins] at sound
  obtain ⟨cache, rfl, kept⟩ := writeHead_spec (s := { s with log := { s.log with lh := [] } }) sound
    (view_clean s.disk [] h) done
  refine ⟨cache, _, rfl, kept, readHead_storeHead .., fun n home => update_of_ne ?_ ..⟩
  rintro rfl
  exact Consistent.start_out inv home

theorem consistent_erase (job : s.job = .erase false)
    (done : writeHead { s with log := { s.log with lh := [] } } = some t) :
    Consistent layout (t.goto .finish) { h with returned := h.returned + 1 } := by
  obtain ⟨_, _, rfl, kept, empty, elsewhere⟩ := erase_spec inv (by rw [job]; rfl) done
  have stage := inv.stage
  simp only [job] at stage
  obtain ⟨committing, -⟩ := stage
  have room : 0 < s.log.size := inv.size ▸ layout.header
  refine ⟨inv.start, inv.size, ⟨room, by simp [Sys.goto], List.nodup_nil⟩, inv.outstanding, kept, ?_⟩
  refine ⟨committing.committing, committing.ops, committing.current, rfl, ?_, committing.returned, fun n home => ?_⟩
  · exact (congrArg readHead (update_self ..)).trans empty
  · refine (elsewhere n home).trans ((committing.clean n home List.not_mem_nil).trans ?_)
    rw [logical_settled committing.current]
    rfl

/-- Recovery is complete: the history starts anew. -/
theorem consistent_recovered (job : s.job = .erase true)
    (done : writeHead { s with log := { s.log with lh := [] } } = some t) :
    Consistent layout (t.goto .idle) { h with base := t.disk, committed := [], current := [], returned := 0 } := by
  obtain ⟨_, _, rfl, kept, empty, _⟩ := erase_spec inv (by rw [job]; rfl) done
  have stage := inv.stage
  simp only [job] at stage
  obtain ⟨⟨free, _, -⟩, -⟩ := stage
  have room : 0 < s.log.size := inv.size ▸ layout.header
  refine ⟨inv.start, inv.size, ⟨room, by simp [Sys.goto], List.nodup_nil⟩, inv.outstanding, ?_, ?_⟩
  · exact kept
  · refine ⟨free, ?_, fun n home => rfl, rfl, by simp [Sys.goto]⟩
    exact (congrArg readHead (update_self ..)).trans empty

omit inv

theorem observe_plain (erasing : s.job ≠ .erase true) (returning : t.job ≠ .finish) : observe s .work t h = h := by
  simp [observe, erasing, returning]

theorem consistent_work (inv : Consistent layout s h) (done : step s .work = some t) :
    Consistent layout t (observe s .work t h) := by
  have stage := inv.stage
  have sound := inv.sound
  simp only [step, work] at done
  split at done
  next => cases done
  next job =>
    simp only [job, pinned] at stage sound
    obtain ⟨committing, pending⟩ := stage
    cases done
    by_cases some : 0 < s.log.lh.length
    · rw [if_pos some, observe_plain (by simp [job]) (by simp [Sys.goto])]
      exact ⟨inv.start, inv.size, inv.placed, inv.outstanding, sound, committing, pending⟩
    -- nothing was logged
    have none : s.log.lh = [] := List.eq_nil_of_length_eq_zero (by omega)
    have same : observe s .work (s.goto .finish) h = { h with returned := h.returned + 1 } := by
      simp [observe, job, Sys.goto]
    rw [if_neg some, same]
    refine ⟨inv.start, inv.size, inv.placed, inv.outstanding, ?_, ?_⟩
    · rw [none] at sound
      exact sound
    refine ⟨committing.committing, committing.ops, committing.current, none, pending.empty, committing.returned, ?_⟩
    intro n home
    refine (committing.clean n home (by simp [none])).trans ?_
    rw [logical_settled committing.current]
    rfl
  next tail job =>
    split at done
    next n found =>
      obtain ⟨u, wrote, rfl⟩ := Option.map_eq_some_iff.mp done
      rw [observe_plain (by simp [job]) (by simp [Sys.goto])]
      exact consistent_writeLog inv job found wrote
    next absent =>
      simp only [job] at stage sound
      obtain ⟨committing, pending⟩ := stage
      cases done
      rw [observe_plain (by simp [job]) (by simp [Sys.goto])]
      refine ⟨inv.start, inv.size, inv.placed, inv.outstanding, sound, committing, pending.empty, pending.settled, ?_⟩
      have beyond := List.getElem?_eq_none_iff.mp absent
      exact fun i n below => pending.copied i n (Nat.lt_of_lt_of_le below beyond)
  next job =>
    obtain ⟨u, wrote, rfl⟩ := Option.map_eq_some_iff.mp done
    rw [observe_plain (by simp [job]) (by simp [Sys.goto])]
    exact consistent_writeHead inv job wrote
  next recovering tail job =>
    split at done
    next n found =>
      obtain ⟨u, wrote, rfl⟩ := Option.map_eq_some_iff.mp done
      rw [observe_plain (by simp [job]) (by simp [Sys.goto])]
      cases recovering with
      | false => exact consistent_install inv job found wrote
      | true => exact consistent_restore inv job found wrote
    next absent =>
      have beyond := List.getElem?_eq_none_iff.mp absent
      cases done
      rw [observe_plain (by simp [job]) (by simp [Sys.goto])]
      cases recovering with
      | false =>
        simp only [job, Stage, pinned] at stage sound
        rw [List.drop_eq_nil_of_le beyond] at stage sound
        exact ⟨inv.start, inv.size, inv.placed, inv.outstanding, sound, stage⟩
      | true =>
        simp only [job] at stage sound
        obtain ⟨restoring, header, k, low, high, restores⟩ := stage
        refine ⟨inv.start, inv.size, inv.placed, inv.outstanding, sound, restoring, header, k, low, high, ?_⟩
        intro n home
        refine ⟨(restores n home).1, ?_⟩
        have complete : (entries s.log s.disk).length ≤ s.log.lh.length := by simp [entries, header]
        have now := (restores n home).2
        rw [List.drop_eq_nil_of_le (complete.trans beyond)] at now
        show write ((entries s.log s.disk).drop s.log.lh.length) s.disk n = _
        rw [List.drop_eq_nil_of_le complete]
        exact now
  next recovering job =>
    obtain ⟨u, wrote, rfl⟩ := Option.map_eq_some_iff.mp done
    cases recovering with
    | false =>
      have same : observe s .work (u.goto .finish) h = { h with returned := h.returned + 1 } := by
        simp [observe, job, Sys.goto]
      rw [if_neg (by simp), same]
      exact consistent_erase inv job wrote
    | true =>
      have same : observe s .work (u.goto .idle) h =
          { h with base := u.disk, committed := [], current := [], returned := 0 } := by
        simp [observe, job, Sys.goto]
      rw [if_pos rfl, same]
      exact consistent_recovered inv job wrote
  next job =>
    simp only [job] at stage sound
    cases done
    rw [observe_plain (by simp [job]) (by simp)]
    refine ⟨inv.start, inv.size, ⟨inv.placed.short, inv.placed.home, inv.placed.distinct⟩, inv.outstanding, ?_, ?_⟩
    · show Sound s.cache (view s.disk s.log.lh h) s.log.lh
      rw [stage.erased]
      exact sound
    · refine ⟨rfl, stage.empty, stage.settled, stage.returned, fun n => ?_⟩
      simp [stage.erased, stage.current]
  next job =>
    obtain ⟨u, read, rfl⟩ := Option.map_eq_some_iff.mp done
    rw [observe_plain (by simp [job]) (by simp [Sys.goto])]
    simp only [job, pinned] at stage sound
    obtain ⟨cache, rfl, kept⟩ := readHeadBlock_spec sound (view_clean _ _ h) read
    obtain ⟨free, ops, placed, k, low, high, restores⟩ := stage
    have header : view s.disk [] h s.log.start = s.disk s.log.start := if_neg List.not_mem_nil
    refine ⟨inv.start, inv.size, ?_, inv.outstanding, kept, ⟨free, ops, ⟨placed.short, placed.home, placed.distinct⟩, k, low, high, restores⟩, ?_, k, low,
      high, fun n home => ⟨restores n home, restores n home⟩⟩
    · simp only [Sys.goto]
      exact ⟨placed.short, placed.home, placed.distinct⟩
    · simp only [Sys.goto, header]

end Work

theorem consistent_step {a : Action} (inv : Consistent layout s h) (done : step s a = some t) :
    Consistent layout t (observe s a t h) := by
  cases a with
  | beginOp w => exact consistent_begin inv done
  | bread w _ => exact consistent_bread inv done
  | write w b _ => exact consistent_write inv done
  | brelse w b => exact consistent_brelse inv done
  | endOp w => exact consistent_end inv done
  | work => exact consistent_work inv done
  | crash => exact consistent_crash inv done

theorem consistent_start {disk : Nat → Block} (empty : disk layout.start 0 = 0) :
    Consistent layout (reboot layout.start layout.size disk) (History.start disk) := by
  have head : readHead (disk layout.start) = [] := by simp [readHead, empty]
  refine ⟨rfl, rfl, ⟨layout.header, by simp [reboot], List.nodup_nil⟩, rfl, sound_binit _ _, rfl, rfl, ?_, 0, Nat.le_refl _, Nat.le_refl _, ?_⟩
  · show Placed _ (readHead (disk layout.start))
    rw [head]
    exact ⟨layout.header, by simp, List.nodup_nil⟩
  · intro n home
    rw [recovered_nil head]
    rfl

end Xv6Monitor.Disk.Commit
