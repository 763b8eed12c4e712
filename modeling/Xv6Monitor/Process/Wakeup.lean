import Xv6Monitor.Process.Wait

/-! No lost wakeup between `exit` and `wait`. Everything that matters happens under `wait_lock`: the
scan of `wait`, the adoption of orphans, the step to ZOMBIE. Its holder owes a wakeup to a parent
that is asleep in `wait`, and does not give the lock back before the loop of `wakeup` has passed
that parent. -/

namespace Xv6Monitor.Process.Wakeup
open Lib.Transition Table Machine Step Moves Sections Lifecycle Ownership Children Invariant Locks Stacks Holding
  Exits Parents Wait

variable {C : Nat} {s t u : Sys C} {c d : Fin C}

structure Asleep (s : Sys C) (p : Slot) : Prop where
  sleeping : (s.proc p).state = .sleeping
  chan : (s.proc p).chan = some (.proc p)
  inside : ∃ addr rest, (s.thread p).calls = .wait addr :: rest

def ZombieChild (s : Sys C) (p q : Slot) : Prop := (s.proc q).parent = some p ∧ (s.proc q).state = .zombie

/-- Thread `e` is in a loop of `wakeup` that will still come to the sleeper `p`. -/
def Owes (s : Sys C) (e p : Slot) : Prop := ∃ k, .wakeup (some (.proc p)) k ∈ (s.thread e).calls ∧ k ≤ p.val

structure Heard (s : Sys C) : Prop where
  adopted : ∀ p q, Asleep s p → ZombieChild s p q →
    ∃ e status k, (s.thread e).base = .reparent status k ∧ Owes s e p
  exiting : ∀ e status p, (s.thread e).base = .exitZombie status → (s.proc e).parent = some p → Asleep s p →
    Owes s e p
  scanned : ∀ p addr k havekids, .waitScan addr k havekids ∈ (s.thread p).calls →
    ∀ q : Slot, q.val < k → ¬ZombieChild s p q
  drowsy : ∀ p addr, .waitSleep addr ∈ (s.thread p).calls → ∀ q, ¬ZombieChild s p q

/-- The thread of an entry that is not in use is switched out. -/
def Vacated (s : Sys C) : Prop := ∀ q, (s.proc q).state = .unused → ∃ resume, (s.thread q).phase = .parked resume

variable {q : Slot}

theorem off_cpu (inv : Coherent s) (free : s.plock q = none) (stopped : (s.proc q).state ≠ .running)
    (c : Fin C) : (s.cpu c).cur ≠ some q := by
  intro on
  obtain ⟨-, fits⟩ := inv.owned.active c q on
  rw [view_phase] at fits
  cases phase : (s.thread q).phase <;> rw [phase] at fits <;> simp only [Fits] at fits
  · exact stopped fits.1
  · exact stopped fits.1
  · simp [free] at fits
  · simp [free] at fits
  · exact stopped fits.1

theorem vacated_move (inv : Coherent s) (moved : Move s c t) (vacated : Vacated s) : Vacated t := by
  intro q unused
  have parked : (s.cpu c).cur ≠ some q ∧ ∃ resume, (s.thread q).phase = .parked resume := by
    rcases move_free inv moved unused with before | ⟨zombie, -⟩
    · exact ⟨fun on => cur_live inv on before, vacated q before⟩
    cases move_change inv moved with
    | frame entries =>
      rcases entries q with same | ⟨ready, -⟩ | same | ⟨running, -⟩
      · rw [same, zombie] at unused
        cases unused
      · rw [zombie] at ready
        cases ready
      · rw [same] at unused
        simp [zombie] at unused
      · rw [zombie] at running
        cases running
    | op op _ executing legal done table _ =>
      obtain rfl := apply_reap executing legal done zombie (by rw [← table, unused]; simp)
      simp only [Op.apply, Option.ite_none_right_eq_some] at done
      have off := off_cpu inv done.1.1 (by simp [zombie])
      exact ⟨off c, inv.owned.parked q (by simp [zombie]) off⟩
  obtain ⟨off, resume, phase⟩ := parked
  rcases move_thread inv moved off with same | ⟨-, fresh⟩
  · exact ⟨resume, by rw [same, phase]⟩
  · exact ⟨.forkret, by rw [fresh]; rfl⟩

structure Steady (s : Sys C) : Prop where
  inv : Coherent s
  locking : Locking s
  vacated : Vacated s

variable {e : Slot}

theorem Steady.holds (steady : Steady s) {l : Lock} (lock : threadLock (s.thread e) = some l) :
    ∃ d, (s.cpu d).cur = some e ∧ (s.thread e).phase = .running ∧ holder s l = some d := by
  have running : (s.thread e).phase = .running := by
    by_contra switched
    rw [(steady.locking.threads e).parked switched] at lock
    cases lock
  have live : (s.proc e).state ≠ .unused := by
    intro unused
    obtain ⟨resume, parked⟩ := steady.vacated e unused
    rw [running] at parked
    cases parked
  by_contra nowhere
  obtain ⟨resume, parked⟩ := steady.inv.owned.parked e live fun d on =>
    nowhere ⟨d, on, running, steady.locking.held on lock⟩
  rw [view_phase, running] at parked
  cases parked

theorem Steady.unique (steady : Steady s) {r : Slot} {l : Lock} (first : threadLock (s.thread e) = some l)
    (second : threadLock (s.thread r) = some l) : e = r := by
  obtain ⟨_, on, -, held⟩ := steady.holds first
  obtain ⟨_, on', -, held'⟩ := steady.holds second
  obtain rfl := Option.some.inj (held.symm.trans held')
  exact Option.some.inj (on.symm.trans on')

variable {p : Slot} {call : Call}

theorem Steady.scans (steady : Steady s) (mem : call ∈ (s.thread p).calls)
    (lock : callLock call = some .wait) : threadLock (s.thread p) = some .wait :=
  tidy_mem (steady.locking.threads p).tidy mem lock

theorem Steady.apart (steady : Steady s) (mem : call ∈ (s.thread p).calls)
    (lock : callLock call = some .wait) (base : baseLock (s.thread e).base = some .wait) : False := by
  obtain rfl := steady.unique (steady.scans mem lock) (steady.locking.exiting base)
  have tidy := (steady.locking.threads p).tidy
  rw [base] at tidy
  obtain ⟨_, _, rfl⟩ := tidy_wakeup tidy mem
  cases lock

variable {op : Op}

theorem apply_sleeping (done : op.apply s c = some u)
    (before : (s.proc q).state ≠ .sleeping) (after : (u.proc q).state = .sleeping) :
    ∃ chan lk, op = .sleep q chan lk := by
  rcases apply_writes done q with same | wrote
  · rw [same] at after
    exact absurd after before
  generalize u.proc q = entry at wrote after
  cases op <;> simp only [writes] at wrote <;>
    obtain ⟨rfl, rfl⟩ := wrote
  case sleep chan lk => exact ⟨chan, lk, rfl⟩
  case kill =>
    rw [Proc.kill_state] at after
    split at after
    · cases after
    · exact absurd after before
  all_goals first
    | exact absurd after before
    | cases after

variable {choice : Choice} {result : Section} {addr : Nat}

theorem callStep_sleep {chan : Option Chan}
    {lk : SleepLock} {rest more : List Call} (next : callStep s c call choice = some result)
    (sleeps : result.op = .sleep p chan lk) (top : result.calls ++ rest = .wait addr :: more) :
    call = .waitSleep addr := by
  cases callStep_move next with
  | handler _ _ next => exact nomatch sleeps ▸ (handlerCall_handles next).1
  | process p _ _ me next =>
    cases call <;> simp only [processCall] at next <;> (repeat' split at next) <;>
      simp only [Option.some.injEq, reduceCtorEq] at next <;> subst next <;> cases sleeps <;> cases top
    rfl
  | sleep p _ chan me outside => rcases outside with rfl | rfl <;> cases top
  | _ => cases sleeps

theorem asleep_move (inv : Coherent s) (moved : Move s c t) (asleep : Asleep t p) :
    Asleep s p ∨ ((∃ addr, .waitSleep addr ∈ (s.thread p).calls) ∧ ∀ q, q ≠ p → t.proc q = s.proc q) := by
  obtain ⟨addr, rest, inside⟩ := asleep.inside
  by_cases before : (s.proc p).state = .sleeping
  · left
    have awake : (s.cpu c).cur = some p → (s.thread p).phase ≠ .running := by
      intro on running
      rw [(inv.executing on running p on).1] at before
      cases before
    have same : (t.thread p).calls = (s.thread p).calls := by
      cases move_stacked inv moved p with
      | keep base calls => exact calls
      | born unused _ =>
        rw [before] at unused
        cases unused
      | start on _ base calls =>
        rw [calls] at inside
        cases first : s.first <;> simp [first, forkretCalls] at inside
      | trap on cause _ base calls =>
        rw [calls] at inside
        cases cause <;> cases inside
      | interrupt on cause base calls =>
        rw [calls] at inside
        cases cause <;> cases inside
      | call on call rest choice result u top next done table base calls running => exact absurd running (awake on)
      | base on running => exact absurd running (awake on)
    refine ⟨before, ?_, addr, rest, same ▸ inside⟩
    have edge := move_edge inv moved p
    have now := asleep.chan
    have still := asleep.sleeping
    generalize t.proc p = after at edge now still
    cases edge with
    | kill => simp [Proc.kill_state, before] at still
    | clearChan => cases now
    | sleep running =>
      rw [before] at running
      cases running
    | same | created | adopt | setKilled | setPriority | charge => exact now
    | _ => cases still
  · right
    cases move_change inv moved with
    | frame entries =>
      have still := asleep.sleeping
      rcases entries p with same | ⟨-, same⟩ | same | ⟨-, same⟩ <;> rw [same] at still
      · exact absurd still before
      · cases still
      · exact absurd still before
      · cases still
    | op op u _ legal done table source =>
      obtain ⟨chan, lk, rfl⟩ := apply_sleeping done before (table ▸ asleep.sleeping)
      refine ⟨?_, fun q other => ?_⟩
      · generalize sleeps : Op.sleep p chan lk = op at source
        cases source with
        | handler call rest choice result idle top next =>
          cases idle.symm.trans legal
        | call r call _ choice result on top next calls _ =>
          obtain rfl := Option.some.inj (on.symm.trans legal)
          rw [calls] at inside
          rw [callStep_sleep next sleeps.symm inside] at top
          exact ⟨addr, by simp [top]⟩
        | base r choice op on _ next =>
          obtain rfl := Option.some.inj (on.symm.trans legal)
          rw [inside, ← sleeps] at next
          unfold baseStep at next
          split at next <;> (try split at next) <;> (try split at next) <;> simp at next
      · rw [table]
        rcases apply_writes done q with same | wrote
        · exact same
        · simp only [writes, Option.some.injEq, Prod.mk.injEq] at wrote
          exact absurd wrote.1.symm other

/-- The loop of `wakeup` cannot pass a sleeper on its channel without waking it. -/
theorem callStep_wakeup {k : Nat} (asleep : Asleep s p) (other : (s.cpu c).proc ≠ some p) (before : k ≤ p.val)
    (next : callStep s c (.wakeup (some (.proc p)) k) choice = some result) :
    result.op = .wake p ∨ ∃ k', result.calls = [.wakeup (some (.proc p)) k'] ∧ k' ≤ p.val := by
  cases callStep_move next with
  | handler _ _ next =>
    simp only [handlerCall] at next
    split at next
    next absent =>
      have beyond := slotAt_none absent
      omega
    next q found =>
      obtain rfl := slotAt_some found
      by_cases here : q = p
      · subst here
        rw [if_neg other, if_pos ⟨asleep.sleeping, asleep.chan⟩] at next
        cases next
        exact Or.inl rfl
      · have below : q.val + 1 ≤ p.val := by
          have apart : q.val ≠ p.val := fun same => here (Fin.ext same)
          omega
        right
        repeat' split at next
        all_goals cases next; exact ⟨_, rfl, below⟩
  | process r _ _ me next => cases next
  | sleep r _ chan me outside => rcases outside with same | same <;> cases same
  | wakeup _ chan outside => rcases outside with same | same | same <;> cases same

/-- The holder of `wait_lock` owes its wakeup until the sleeper is awake. -/
theorem owes_move (steady : Steady s) (moved : Move s c t)
    (lock : threadLock (s.thread e) = some .wait) (before : Asleep s p) (after : Asleep t p) (owes : Owes s e p) :
    Owes t e p := by
  obtain ⟨k, mem, below⟩ := owes
  obtain ⟨_, there, running, -⟩ := steady.holds lock
  cases move_stacked steady.inv moved e with
  | keep base calls => exact ⟨k, by rw [calls]; exact mem, below⟩
  | born unused _ => exact absurd unused (cur_live steady.inv there)
  | start on parked base calls =>
    rw [running] at parked
    cases parked
  | trap on cause _ base calls => exact ⟨k, by rw [calls]; exact List.mem_cons_of_mem _ mem, below⟩
  | interrupt on cause base calls =>
    exact ⟨k, by rw [calls]; exact List.mem_cons_of_mem _ (List.mem_cons_of_mem _ mem), below⟩
  | call on call _ _ _ _ top next done table base calls =>
    rw [top] at mem
    rcases List.mem_cons.mp mem with rfl | deeper
    · have me : (s.cpu c).proc = some e := (steady.inv.myproc (Or.inl (by simp [on]))).trans on
      have other : (s.cpu c).proc ≠ some p := by
        rw [me]
        intro same
        obtain ⟨_, _, inside⟩ := before.inside
        rw [← Option.some.inj same, top] at inside
        cases inside
      rcases callStep_wakeup before other below next with wakes | ⟨k', advanced, below'⟩
      · -- the sleeper is woken in this step
        rw [wakes] at done
        simp only [Op.apply, Option.ite_none_right_eq_some, Option.some.injEq] at done
        obtain ⟨-, rfl⟩ := done
        have still := after.sleeping
        simp [table, Proc.makeRunnable] at still
      · exact ⟨k', by rw [calls, advanced]; simp, below'⟩
    · exact ⟨k, by rw [calls]; exact List.mem_append_right _ deeper, below⟩
  | base on running empty =>
    rw [empty] at mem
    cases mem

theorem apply_inherits (legal : Legal s c op) (done : op.apply s c = some u)
    (zombie : (s.proc q).state = .zombie) (before : (s.proc q).parent ≠ some p)
    (after : (u.proc q).parent = some p) : op = .reparent q := by
  rcases apply_writes done q with same | wrote
  · rw [same] at after
    exact absurd after before
  generalize u.proc q = entry at wrote after
  cases op <;> simp only [writes] at wrote <;>
    obtain ⟨rfl, rfl⟩ := wrote <;> simp only [Legal] at legal
  case reparent => rfl
  case setParent r =>
    rw [zombie] at legal
    cases legal.1
  case kill => exact absurd ((Proc.kill_frame _ _).2.1 ▸ after) before
  all_goals first
    | exact absurd after before
    | cases after

theorem move_inherits (inv : Coherent s) (moved : Move s c t) (zombie : (s.proc q).state = .zombie)
    (before : (s.proc q).parent ≠ some p) (after : (t.proc q).parent = some p) :
    ∃ e status, (s.thread e).base = .reparent status q.val ∧ (t.thread e).base = .reparent status (q.val + 1) ∧
      (t.thread e).calls = [.wakeup (some (.proc p)) 0] := by
  cases move_change inv moved with
  | frame entries =>
    rcases entries q with same | ⟨-, same⟩ | same | ⟨-, same⟩ <;> rw [same] at after <;> exact absurd after before
  | op op _ _ legal done table source =>
    rw [table] at after
    obtain rfl := apply_inherits legal done zombie before after
    obtain ⟨e, choice, _, next⟩ := source_base source rfl
    obtain ⟨⟨status, base⟩, child⟩ := baseStep_reparent next
    cases done
    simp only [Sys.setProc_proc, Function.update_self, Option.some.injEq] at after
    subst after
    cases choice <;> simp only [base, baseStep, slotAt_val, child, reduceCtorEq, if_true, Option.some.injEq,
      Prod.mk.injEq] at next
    exact ⟨e, status, base, next.1.symm, next.2.2.symm⟩

/-- A zombie child is made by its own `exit`, or handed over by that of its parent; all of it is
done with `wait_lock` held by a thread at the end of `exit`. -/
theorem zombieChild_move (steady : Steady s) (moved : Move s c t) (child : ZombieChild t p q) :
    ZombieChild s p q ∨
    (∃ status, (s.thread q).base = .exitZombie status ∧ (s.thread q).calls = [] ∧ (s.proc q).parent = some p) ∨
    (∃ e status k, (s.thread e).base = .reparent status k ∧ (t.thread e).base = .reparent status (k + 1) ∧
      (t.thread e).calls = [.wakeup (some (.proc p)) 0]) := by
  have inv := steady.inv
  by_cases zombie : (s.proc q).state = .zombie
  · by_cases parent : (s.proc q).parent = some p
    · exact Or.inl ⟨parent, zombie⟩
    · obtain ⟨e, status, before, after, calls⟩ := move_inherits inv moved zombie parent child.1
      exact Or.inr (Or.inr ⟨e, status, q.val, before, after, calls⟩)
  obtain ⟨status, on, base, gone, entry⟩ := move_zombie inv moved zombie child.2
  refine Or.inr (Or.inl ⟨status, base, ?_, ?_⟩)
  · cases move_advance inv moved q with
    | stay same =>
      rw [gone, base] at same
      cases same
    | born unused _ => exact absurd unused (cur_live inv on)
    | trap on _ user =>
      rw [base] at user
      cases user
    | base on _ _ _ calls _ _ _ _ empty => exact empty
  · rw [← child.1, entry]
    rfl

theorem zombieChild_scan (steady : Steady s) (moved : Move s c t) {r : Slot}
    (mem : call ∈ (s.thread r).calls) (lock : callLock call = some .wait) (child : ZombieChild t p q) :
    ZombieChild s p q := by
  rcases zombieChild_move steady moved child with before | ⟨status, base, -⟩ | ⟨e, status, k, base, -⟩
  · exact before
  · exact (steady.apart mem lock (by rw [base]; rfl)).elim
  · exact (steady.apart mem lock (by rw [base]; rfl)).elim

theorem Heard.adopted_move (heard : Heard s) (steady : Steady s) (moved : Move s c t) (p q : Slot)
    (asleep : Asleep t p) (child : ZombieChild t p q) :
    ∃ e status k, (t.thread e).base = .reparent status k ∧ Owes t e p := by
  have inv := steady.inv
  rcases asleep_move inv moved asleep with before | ⟨⟨addr, inside⟩, -⟩
  · rcases zombieChild_move steady moved child with old | ⟨status, base, empty, parent⟩ | ⟨e, status, k, -, base, calls⟩
    · obtain ⟨e, status, k, base, owes⟩ := heard.adopted p q before old
      have lock := steady.locking.exiting (p := e) (l := .wait) (by rw [base]; rfl)
      refine ⟨e, status, k, ?_, owes_move steady moved lock before asleep owes⟩
      cases move_advance inv moved e with
      | stay same => rw [same, base]
      | born unused _ =>
        obtain ⟨_, there, -⟩ := steady.holds lock
        exact absurd unused (cur_live inv there)
      | trap on _ user =>
        rw [base] at user
        cases user
      | base on _ _ _ calls _ _ _ _ empty =>
        obtain ⟨_, mem, -⟩ := owes
        rw [empty] at mem
        cases mem
    · obtain ⟨k, mem, -⟩ := heard.exiting q status p base parent before
      rw [empty] at mem
      cases mem
    · exact ⟨e, status, k + 1, base, 0, by rw [calls]; simp, Nat.zero_le _⟩
  · exact absurd (zombieChild_scan steady moved inside rfl child) (heard.drowsy p addr inside q)

theorem baseStep_exitZombie {base : Base} {status : Int} {calls : List Call}
    (next : baseStep s p base choice = some (.exitZombie status, op, calls)) :
    op = .nop ∧ calls = [.wakeup ((s.proc p).parent.map .proc) 0] := by
  unfold baseStep at next
  split at next <;> (try split at next) <;> (try split at next) <;>
    simp only [Option.some.injEq, Prod.mk.injEq, reduceCtorEq, false_and] at next
  case h_3.isFalse call _ => cases call <;> cases next.1
  all_goals exact ⟨next.2.1.symm, next.2.2.symm⟩

theorem Heard.exiting_move (heard : Heard s) (steady : Steady s) (moved : Move s c t) (e : Slot) (status : Int)
    (p : Slot) (base : (t.thread e).base = .exitZombie status) (parent : (t.proc e).parent = some p)
    (asleep : Asleep t p) : Owes t e p := by
  have inv := steady.inv
  have kept : (s.thread e).base = .exitZombie status → Owes t e p := by
    intro before
    have locked : baseLock (s.thread e).base = some .wait := by rw [before]; rfl
    have lock := steady.locking.exiting locked
    obtain ⟨_, _, running, held⟩ := steady.holds lock
    have same : (s.proc e).parent = some p := by
      cases move_adoption inv moved e with
      | keep same => rw [← same, parent]
      | cleared _ unused orphan =>
        rw [orphan] at parent
        cases parent
      | forked r on _ free =>
        rw [holder, free] at held
        cases held
      | inherited r _ on exiting _ _ =>
        obtain rfl := steady.unique lock (steady.locking.exiting (p := r) (by rw [exiting]; rfl))
        rw [before] at exiting
        cases exiting
    rcases asleep_move inv moved asleep with old | ⟨⟨addr, inside⟩, -⟩
    · exact owes_move steady moved lock old asleep (heard.exiting e status p before same old)
    · exact (steady.apart inside rfl locked).elim
  cases move_stacked inv moved e with
  | keep same | start _ _ same | interrupt _ _ same => exact kept (by rw [← same, base])
  | call _ _ _ _ _ _ _ _ _ _ same => exact kept (by rw [← same, base])
  | born unused fresh =>
    rw [fresh] at base
    cases base
  | trap on _ _ trapped =>
    rw [trapped] at base
    cases base
  | base on running _ _ _ _ next done table =>
    rw [base] at next
    obtain ⟨rfl, calls⟩ := baseStep_exitZombie next
    cases done
    rw [table] at parent
    rw [parent] at calls
    exact ⟨0, by rw [calls]; simp, Nat.zero_le _⟩

theorem baseStep_unscanned {base after : Base} {calls : List Call}
    (next : baseStep s p base choice = some (after, op, calls)) (mem : call ∈ calls) :
    callLock call ≠ some .wait := by
  unfold baseStep at next
  split at next <;> (try split at next) <;> (try split at next) <;>
    obtain ⟨-, -, rfl⟩ := next
  case h_3.isFalse entered _ => cases entered <;> simp [Syscall.entry] at mem <;> simp [mem, callLock]
  all_goals simp at mem
  all_goals simp [mem, callLock]

theorem scan_move (inv : Coherent s) (moved : Move s c t)
    (mem : call ∈ (t.thread p).calls) (lock : callLock call = some .wait) :
    call ∈ (s.thread p).calls ∨
    ∃ top choice result u, (s.cpu c).proc = some p ∧ top ∈ (s.thread p).calls ∧
      callStep s c top choice = some result ∧ result.op.apply s c = some u ∧ t.proc = u.proc ∧
      call ∈ result.calls := by
  cases move_stacked inv moved p with
  | keep base calls => exact Or.inl (calls ▸ mem)
  | born _ fresh =>
    rw [fresh] at mem
    cases mem
  | start on _ base calls =>
    rw [calls] at mem
    cases first : s.first <;> simp [first, forkretCalls] at mem
    rw [mem] at lock
    cases lock
  | trap on cause _ base calls =>
    rw [calls] at mem
    rcases List.mem_cons.mp mem with rfl | old
    · cases cause <;> cases lock
    · exact Or.inl old
  | interrupt on cause base calls =>
    rw [calls] at mem
    rcases List.mem_cons.mp mem with rfl | new
    · cases cause <;> cases lock
    · rcases List.mem_cons.mp new with rfl | old
      · cases lock
      · exact Or.inl old
  | call on top _ choice result u stack next done table base calls =>
    rw [calls] at mem
    rcases List.mem_append.mp mem with new | old
    · have me : (s.cpu c).proc = some p := (inv.myproc (Or.inl (by simp [on]))).trans on
      exact Or.inr ⟨top, choice, result, u, me, by simp [stack], next, done, table, new⟩
    · exact Or.inl (by rw [stack]; exact List.mem_cons_of_mem _ old)
  | base on _ _ choice _ u next => exact absurd lock (baseStep_unscanned next mem)

theorem callStep_scan {top : Call} {k : Nat} {havekids : Bool}
    (me : (s.cpu c).proc = some p) (next : callStep s c top choice = some result)
    (new : .waitScan addr k havekids ∈ result.calls) :
    k = 0 ∨ ∃ q : Slot, ∃ before, top = .waitScan addr q.val before ∧ k = q.val + 1 ∧ ¬ZombieChild s p q ∧
      (result.op = .nop ∨ result.op = .look q) := by
  cases callStep_move next with
  | handler _ _ next =>
    cases top <;> simp only [handlerCall] at next <;> (repeat' split at next) <;>
      simp only [Option.some.injEq, reduceCtorEq] at next <;> subst next <;> simp at new
  | process r _ _ here next =>
    obtain rfl := Option.some.inj (here.symm.trans me)
    cases top <;> simp only [processCall] at next <;> (repeat' split at next) <;>
      simp only [Option.some.injEq, reduceCtorEq] at next <;> subst next <;> simp at new
    · exact Or.inl new.2.1
    · rename_i found _ alive
      obtain rfl := slotAt_some found
      obtain ⟨rfl, rfl, rfl⟩ := new
      exact Or.inr ⟨_, _, rfl, rfl, fun child => alive child.2, Or.inr rfl⟩
    · rename_i found stranger
      obtain rfl := slotAt_some found
      obtain ⟨rfl, rfl, rfl⟩ := new
      exact Or.inr ⟨_, _, rfl, rfl, fun child => stranger child.1, Or.inl rfl⟩
  | sleep r _ chan here outside => rcases outside with rfl | rfl <;> simp at new
  | wakeup _ chan outside => rcases outside with rfl | rfl | rfl <;> simp at new
  | _ => simp at new

theorem callStep_drowsy {top : Call}
    (next : callStep s c top choice = some result) (new : .waitSleep addr ∈ result.calls) :
    ∃ k havekids q, top = .waitScan addr k havekids ∧ NPROC ≤ k ∧ result.op = .look q := by
  cases callStep_move next with
  | handler _ _ next =>
    cases top <;> simp only [handlerCall] at next <;> (repeat' split at next) <;>
      simp only [Option.some.injEq, reduceCtorEq] at next <;> subst next <;> simp at new
  | process r _ _ here next =>
    cases top <;> simp only [processCall] at next <;> (repeat' split at next) <;>
      simp only [Option.some.injEq, reduceCtorEq] at next <;> subst next <;> simp at new
    rename_i absent _ _
    subst new
    exact ⟨_, _, _, rfl, slotAt_none absent, rfl⟩
  | sleep r _ chan here outside => rcases outside with rfl | rfl <;> simp at new
  | wakeup _ chan outside => rcases outside with rfl | rfl | rfl <;> simp at new
  | _ => simp at new

theorem look_table (looks : op = .nop ∨ op = .look q) (done : op.apply s c = some u) : u.proc = s.proc := by
  rcases looks with rfl | rfl
  · cases done
    rfl
  · simp only [Op.apply, Option.ite_none_right_eq_some, Option.some.injEq] at done
    rw [done.2]

theorem Heard.scanned_move (heard : Heard s) (steady : Steady s) (moved : Move s c t) (p : Slot) (addr k : Nat)
    (havekids : Bool) (mem : .waitScan addr k havekids ∈ (t.thread p).calls) (q : Slot) (below : q.val < k) :
    ¬ZombieChild t p q := by
  intro child
  rcases scan_move steady.inv moved mem rfl with old | ⟨top, choice, result, u, me, inside, next, done, table, new⟩
  · exact heard.scanned p addr k havekids old q below (zombieChild_scan steady moved old rfl child)
  rcases callStep_scan me next new with rfl | ⟨r, before, rfl, rfl, passed, looks⟩
  · omega
  rw [ZombieChild, table, look_table looks done] at child
  by_cases here : q = r
  · exact passed (here ▸ child)
  · have apart : q.val ≠ r.val := fun same => here (Fin.ext same)
    exact heard.scanned p addr r.val before inside q (by omega) child

theorem Heard.drowsy_move (heard : Heard s) (steady : Steady s) (moved : Move s c t) (p : Slot) (addr : Nat)
    (mem : .waitSleep addr ∈ (t.thread p).calls) (q : Slot) : ¬ZombieChild t p q := by
  intro child
  rcases scan_move steady.inv moved mem rfl with old | ⟨top, choice, result, u, me, inside, next, done, table, new⟩
  · exact heard.drowsy p addr old q (zombieChild_scan steady moved old rfl child)
  · obtain ⟨k, havekids, r, rfl, complete, looks⟩ := callStep_drowsy next new
    rw [ZombieChild, table, look_table (Or.inr looks) done] at child
    exact heard.scanned p addr k havekids inside q (by omega) child

theorem heard_move (heard : Heard s) (steady : Steady s) (moved : Move s c t) : Heard t where
  adopted := heard.adopted_move steady moved
  exiting := heard.exiting_move steady moved
  scanned := heard.scanned_move steady moved
  drowsy := heard.drowsy_move steady moved

theorem heard_boot : Heard (boot C) := by
  constructor
  · intro p q asleep
    obtain ⟨addr, _, inside⟩ := asleep.inside
    cases inside
  · intro e status p base
    cases base
  · intro p addr k havekids mem
    cases mem
  · intro p addr mem
    cases mem

theorem vacated_reachable (reachable : Reachable (kernel C) s) : Vacated s :=
  invariant_over (fun _ _ => ⟨.forkret, rfl⟩) (fun _ _ _ inv moved => vacated_move inv moved) reachable

theorem steady_reachable (reachable : Reachable (kernel C) s) : Steady s :=
  ⟨inv_reachable reachable, locking_reachable reachable, vacated_reachable reachable⟩

theorem heard_reachable (reachable : Reachable (kernel C) s) : Heard s := by
  obtain ⟨run⟩ := reachable
  induction run with
  | nil => exact heard_boot
  | snoc path _ moved ih => exact heard_move ih (steady_reachable ⟨path⟩) (step_move moved)

/-- No wakeup is lost between `exit` and `wait`: while `wait_lock` is free, no process that sleeps
inside `wait` has a zombie among its children, be they its own or handed to it by `reparent`. -/
theorem no_lost_wakeup (reachable : Reachable (kernel C) s) (free : s.waitLock = none) (p q : Slot)
    (asleep : Asleep s p) : ¬((s.proc q).parent = some p ∧ (s.proc q).state = .zombie) := by
  intro child
  obtain ⟨e, _, _, base, -⟩ := (heard_reachable reachable).adopted p q asleep child
  have steady := steady_reachable reachable
  have lock := steady.locking.exiting (p := e) (l := .wait) (by rw [base]; rfl)
  obtain ⟨_, -, -, held⟩ := steady.holds lock
  rw [holder, free] at held
  cases held

instance (s : Sys C) (p : Slot) : Decidable (Asleep s p) :=
  decidable_of_iff ((s.proc p).state = .sleeping ∧ (s.proc p).chan = some (.proc p) ∧
      (match (s.thread p).calls with | .wait _ :: _ => true | _ => false) = true) <| by
    constructor
    · rintro ⟨sleeping, chan, top⟩
      refine ⟨sleeping, chan, ?_⟩
      split at top
      next addr rest inside => exact ⟨addr, rest, inside⟩
      next => cases top
    · rintro ⟨sleeping, chan, addr, rest, inside⟩
      exact ⟨sleeping, chan, by rw [inside]⟩

/-- The first process forks and sleeps in `wait`; its child in slot 1 runs. -/
theorem no_lost_wakeup_child : ∃ s : Sys 1, Reachable (kernel 1) s ∧ Asleep s firstSlot ∧
    (s.proc 1).parent = some firstSlot ∧ (s.proc 1).state ≠ .zombie := by
  obtain ⟨s, reachable, free, asleep, child⟩ := reachable_exec (M := kernel 1)
    (Q := fun s : Sys 1 => s.waitLock = none ∧ Asleep s firstSlot ∧ (s.proc 1).parent = some firstSlot)
    (steps 0 6 ++ syscall 0 .fork 8 ++ syscall 0 (.wait 0) 75) (by decide +kernel)
  exact ⟨s, reachable, asleep, child, fun zombie => no_lost_wakeup reachable free firstSlot 1 asleep ⟨child, zombie⟩⟩

end Xv6Monitor.Process.Wakeup
