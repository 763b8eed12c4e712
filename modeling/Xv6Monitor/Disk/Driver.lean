import Xv6Monitor.Disk.Completions
import Mathlib.Algebra.Order.Group.Multiset

/-! Every step of the processes, of the interrupt handler and of the device keeps the requests in flight
apart; so the descriptors are in order in every run. -/

namespace Xv6Monitor.Disk.Driver
open Function Lib.Program Lib.Ring Lib.Transition Requests Flight Completions

section Steps

variable {s t : Sys} {p b : Nat} {idx : Idx} {x : DiskProg Unit} {Q : Sys → Prop}

theorem exec_ends (ends : Ends (fun _ => False) x s fun _ t => Q t) : Q (s.exec x) := by
  unfold Sys.exec
  cases ran : x s with
  | error _ => exact (ends.error ran).elim
  | ok _ => exact ends.ok ran

theorem exec_or {E : Panic → Prop} (ends : Ends E x s fun _ t => Q t) :
    Q (s.exec x) ∨ ∃ e, E e ∧ s.exec x = { s with panicked := some e } := by
  unfold Sys.exec
  cases ran : x s with
  | error e => exact Or.inr ⟨e, ends.error ran, rfl⟩
  | ok _ => exact Or.inl (ends.ok ran)

theorem publish_sound (sound : Sound s) (here : s.thread p = .publishing b idx) (held : s.lock = some (.process p)) :
    let t := { s with avail := s.avail + 1 }.put p (.submitted b idx)
    Sound t ∧ s.pending <+: t.pending ∧ ∀ q c jdx, t.thread q ≠ .publishing c jdx := by
  have flies : (s.thread p).inFlight = some (b, idx) := by
    rw [here]
    rfl
  have alone : ∀ q c jdx, q ≠ p → s.thread q ≠ .publishing c jdx := by
    intro q c jdx other there
    have holder := held.symm.trans (sound.locked.holds q c jdx there)
    exact other (Holder.process.inj (Option.some.inj holder)).symm
  have fresh : idx.i0 ∉ s.heads := by
    intro mem
    obtain ⟨q, c, jdx, there, head, -⟩ := (sound.tracked.mem _).mp mem
    have flies' : (s.thread q).inFlight = some (c, jdx) := by
      rw [there]
      rfl
    have other : q ≠ p := by
      rintro rfl
      cases here.symm.trans there
    exact sound.owned.apart q p c b jdx idx other flies' flies (head_mem jdx) (head ▸ head_mem idx)
  have room := sound.room ((sound.owned.mine p b idx flies).1.bound _ (head_mem idx)) fresh
  have less := pending_room s
  have pending : between NUM s.ring s.seen (s.avail + 1) = s.pending ++ [idx.i0] := by
    unfold NUM at room
    rw [between_succ (by omega), (sound.tracked.next p b idx here).2]
    rfl
  have heads : ((↑(between NUM s.ring s.seen (s.avail + 1)) + (↑s.device + ↑s.posted)) : Multiset Nat) =
      idx.i0 ::ₘ s.heads := by
    rw [pending, ← Multiset.coe_add, Sys.heads, Multiset.coe_singleton, ← Multiset.singleton_add]
    abel
  refine ⟨⟨?_, ?_, ?_, sound.calm⟩, ?_, fun q c jdx there => ?_⟩
  · refine sound.owned.threads (inFlight_update ?_)
    rw [here]
    rfl
  · refine sound.locked.put (fun c buf => ?_) (fun q c jdx other there => absurd there (alone q c jdx other))
      (by simp)
    cases buf
    refine sound.locked.owner p b ?_
    rw [here]
    rfl
  · have tracked := sound.tracked.publish here alone fresh (s.ring (slot NUM (s.avail + 1)))
    rw [← heads] at tracked
    exact tracked
  · show s.pending <+: between NUM s.ring s.seen (s.avail + 1)
    rw [pending]
    exact List.prefix_append ..
  · change update s.thread p (.submitted b idx) q = .publishing c jdx at there
    by_cases mine : q = p
    · rw [mine, update_self] at there
      cases there
    · rw [update_of_ne mine] at there
      exact alone q c jdx mine there

theorem runThread_sound (sound : Sound s) (moved : s.runThread p = some t) : Sound t ∧ Keeps s t := by
  unfold Sys.runThread at moved
  split at moved
  next b _ _ here unlocked =>
    cases moved
    exact exec_ends (request_spec sound here unlocked)
  next b idx q here held =>
    obtain ⟨self, ⟨⟩⟩ := Option.ite_none_right_eq_some.mp moved
    rw [self] at held
    obtain ⟨sound', more, alone⟩ := publish_sound sound here held
    obtain ⟨after, keeps⟩ := exec_ends (await_spec (p := p) sound' (update_self ..) alone)
    exact ⟨after, more.trans keeps.pending, keeps.disk⟩
  next b idx here unlocked =>
    cases moved
    refine exec_ends (await_spec sound here fun q c jdx there => ?_)
    exact nomatch unlocked.symm.trans (sound.locked.holds q c jdx there)
  · exact nomatch moved

theorem report_buf (s : Sys) (head : Nat) (status : UInt8) (i : Nat) : (s.report head status i).b = (s.info i).b := by
  unfold Sys.report
  cases (s.desc (s.desc (s.desc head).next).next).addr with
  | status j =>
    dsimp only
    by_cases here : i = j
    · rw [here, update_self]
    · rw [update_of_ne here]
  | _ => rfl

theorem fetch_sound (sound : Sound s) (more : s.seen ≠ s.avail) :
    Sound { s with device := s.ring (slot NUM s.seen) :: s.device, seen := s.seen + 1 } := by
  have pending : s.pending = s.ring (slot NUM s.seen) :: between NUM s.ring (s.seen + 1) s.avail := between_pop more
  have heads : ((↑(between NUM s.ring (s.seen + 1) s.avail) + (↑(s.ring (slot NUM s.seen) :: s.device) + ↑s.posted)) :
      Multiset Nat) = s.heads := by
    rw [Sys.heads, pending, ← Multiset.cons_coe, ← Multiset.cons_coe, Multiset.cons_add, Multiset.add_cons, Multiset.cons_add]
  refine ⟨sound.owned, sound.locked, ?_, sound.calm⟩
  have tracked := sound.tracked
  rw [← heads] at tracked
  exact tracked

theorem post_sound (sound : Sound s) {head : Nat} (mem : head ∈ s.device) (status : UInt8) :
    Sound { s with
      device := s.device.erase head, info := s.report head status,
      usedRing := update s.usedRing (slot NUM s.used) head, used := s.used + 1 } := by
  have bounded : s.heads.card ≤ NUM := by
    have inside : s.heads ⊆ Multiset.range NUM := fun i mem => Multiset.mem_range.mpr (sound.bound mem)
    have less := Multiset.card_le_card ((Multiset.le_iff_subset sound.tracked.nodup).mpr inside)
    exact less
  have less := posted_room s
  have some := List.length_pos_of_mem mem
  have posted : between NUM (update s.usedRing (slot NUM s.used) head) s.usedIdx (s.used + 1) = s.posted ++ [head] :=
    between_push size_dvd (by decide) (by omega) head
  have heads : ((↑s.pending + (↑(s.device.erase head) +
      ↑(between NUM (update s.usedRing (slot NUM s.used) head) s.usedIdx (s.used + 1)))) : Multiset Nat) = s.heads := by
    have device : (↑s.device : Multiset Nat) = {head} + ↑(s.device.erase head) := by
      exact Multiset.coe_eq_coe.mpr (List.perm_cons_erase mem)
    rw [posted, ← Multiset.coe_add, Sys.heads, device]
    abel
  refine ⟨sound.owned.entries (fun _ _ => rfl) (report_buf s head status), sound.locked, ?_, sound.calm⟩
  have tracked := sound.tracked
  rw [← heads] at tracked
  exact tracked

theorem acquiresleep_locked (locked : Locked s.thread s.owner s.lock) (vacant : s.owner b = none) :
    Locked s.thread (update s.owner b (some p)) s.lock := by
  refine ⟨fun q c buf => ?_, locked.holds⟩
  have owner := locked.owner q c buf
  have other : c ≠ b := by
    rintro rfl
    exact nomatch vacant.symm.trans owner
  exact (update_of_ne other ..).trans owner

theorem releasesleep_locked (locked : Locked s.thread s.owner s.lock) (mine : s.owner b = some p) (idle : s.thread p = .idle) :
    Locked s.thread (update s.owner b none) s.lock := by
  refine ⟨fun q c buf => ?_, locked.holds⟩
  have owner := locked.owner q c buf
  have other : c ≠ b := by
    rintro rfl
    have self : p = q := Option.some.inj (mine.symm.trans owner)
    rw [← self, idle] at buf
    exact nomatch buf
  exact (update_of_ne other ..).trans owner

theorem call_sound (sound : Sound s) (mine : s.owner b = some p) (idle : s.thread p = .idle) (blockno : BitVec 32)
    (write : Bool) : Sound (s.put p (.calling b blockno write)) := by
  refine ⟨sound.owned.threads (inFlight_update ?_), ?_, ?_, sound.calm⟩
  · rw [idle]
    rfl
  · refine sound.locked.put (fun c buf => ?_) (fun q c jdx _ there => sound.locked.holds q c jdx there) fun _ _ there =>
      nomatch there
    cases buf
    exact mine
  · refine sound.tracked.put (fun c jdx there => ?_) (fun _ _ there => nomatch there) fun _ _ there => nomatch there
    exact nomatch idle.symm.trans there

theorem act_spec {a : Action} (sound : Sound s) (moved : act s a = some t) :
    Sound t ∧ (a ≠ .fetch → s.pending <+: t.pending) ∧ (a ≠ .handle → ∀ b, s.disk b = true → t.disk b = true) := by
  cases a with
  | acquiresleep p b =>
    simp only [act] at moved
    obtain ⟨vacant, ⟨⟩⟩ := Option.ite_none_right_eq_some.mp moved
    exact ⟨⟨sound.owned, acquiresleep_locked sound.locked vacant, sound.tracked, sound.calm⟩, fun _ => List.prefix_rfl,
      fun _ _ set => set⟩
  | releasesleep p b =>
    simp only [act] at moved
    obtain ⟨holder, ⟨⟩⟩ := Option.ite_none_right_eq_some.mp moved
    exact ⟨⟨sound.owned, releasesleep_locked sound.locked holder.1 holder.2, sound.tracked, sound.calm⟩,
      fun _ => List.prefix_rfl, fun _ _ set => set⟩
  | virtioDiskRw p b blockno write =>
    simp only [act] at moved
    obtain ⟨holder, ⟨⟩⟩ := Option.ite_none_right_eq_some.mp moved
    exact ⟨call_sound sound holder.1 holder.2 blockno write, fun _ => List.prefix_rfl, fun _ _ set => set⟩
  | run p =>
    simp only [act] at moved
    split at moved
    · exact nomatch moved
    · obtain ⟨after, keeps⟩ := runThread_sound sound moved
      exact ⟨after, fun _ => keeps.pending, fun _ => keeps.disk⟩
  | kill p =>
    cases moved
    exact ⟨⟨sound.owned, sound.locked, sound.tracked, sound.calm⟩, fun _ => List.prefix_rfl, fun _ _ set => set⟩
  | virtioDiskIntr =>
    simp only [act] at moved
    obtain ⟨unlocked, ⟨⟩⟩ := Option.ite_none_right_eq_some.mp moved
    refine ⟨⟨sound.owned, ⟨sound.locked.owner, fun q c jdx there => ?_⟩, sound.tracked, sound.calm⟩,
      fun _ => List.prefix_rfl, fun _ _ set => set⟩
    exact nomatch unlocked.symm.trans (sound.locked.holds q c jdx there)
  | handle =>
    simp only [act] at moved
    obtain ⟨held, ⟨⟩⟩ := Option.ite_none_right_eq_some.mp moved
    rcases exec_or (handle_spec sound held) with ⟨after, pending, -⟩ | ⟨e, rfl, stopped⟩
    · exact ⟨after, fun _ => pending, fun wrong => absurd rfl wrong⟩
    · rw [stopped]
      exact ⟨⟨sound.owned, sound.locked, sound.tracked, Or.inr rfl⟩, fun _ => List.prefix_rfl, fun _ _ set => set⟩
  | fetch =>
    simp only [act] at moved
    split at moved
    · exact nomatch moved
    next more =>
      cases moved
      exact ⟨fetch_sound sound more, fun wrong => absurd rfl wrong, fun _ _ set => set⟩
  | post head status =>
    simp only [act] at moved
    obtain ⟨mem, ⟨⟩⟩ := Option.ite_none_right_eq_some.mp moved
    exact ⟨post_sound sound mem status, fun _ => List.prefix_rfl, fun _ _ set => set⟩

theorem start_sound : Sound start := by
  have quiet : start.heads = 0 := by
    simp [Sys.heads, Sys.pending, Sys.posted, start, between_self]
  refine ⟨⟨?_, ?_, fun i bound busy => ?_⟩, ⟨?_, ?_⟩, ⟨?_, fun h => ?_, ?_⟩, Or.inl rfl⟩
  · rintro _ _ _ ⟨⟩
  · rintro _ _ _ _ _ _ _ ⟨⟩
  · exact absurd bound (decide_eq_false_iff_not.mp busy)
  · rintro _ _ ⟨⟩
  · rintro _ _ _ ⟨⟩
  · rw [quiet]
    exact Multiset.nodup_zero
  · rw [quiet]
    constructor
    · exact fun mem => absurd mem (Multiset.notMem_zero h)
    · rintro ⟨_, _, _, there, -⟩
      cases there
  · rintro _ _ _ ⟨⟩

theorem step_act {a : Action} (moved : machine.step s a = some t) : act s a = some t := by
  simp only [machine] at moved
  split at moved
  · exact moved
  · exact nomatch moved

/-- In every state of every run, the requests in flight have three descriptors each and share none, the
others are free, and `free_desc` has not panicked; no step writes over an entry of the ring that the device
has not read; and the flag of a buffer is cleared only by the handler, which finds in the ring of finished
requests the head of a request in flight, and clears the flag of that request's buffer and no other. -/
theorem disk_requests (run : Run machine s) :
    (∀ p b idx, (s.thread p).inFlight = some (b, idx) → idx.toList.Nodup ∧ ∀ i ∈ idx.toList, i < NUM) ∧
      (∀ p q b c idx jdx, p ≠ q → (s.thread p).inFlight = some (b, idx) → (s.thread q).inFlight = some (c, jdx) →
        idx.toList.Disjoint jdx.toList) ∧
      (∀ i, i < NUM → (s.free i = true ↔ ∀ p b idx, (s.thread p).inFlight = some (b, idx) → i ∉ idx.toList)) ∧
      (s.panicked = none ∨ s.panicked = some .status) ∧
      (∀ a t, machine.step s a = some t → a ≠ .fetch → s.pending <+: t.pending) ∧
      (∀ a t b, machine.step s a = some t → a ≠ .handle → s.disk b = true → t.disk b = true) ∧
      ∀ t, machine.step s .handle = some t → t.panicked = none → if s.usedIdx = s.used then t.disk = s.disk else Clears s t := by
  have sound : Sound s := run.invariant (fun _ _ _ moved sound => (act_spec sound (step_act moved)).1) start_sound
  refine ⟨fun p b idx flies => ?_, sound.owned.apart, fun i bound => ?_, sound.calm, fun a t moved => ?_,
    fun a t b moved other => ?_, fun t moved calm => ?_⟩
  · obtain ⟨chain, -⟩ := sound.owned.mine p b idx flies
    exact ⟨chain.nodup, chain.bound⟩
  · constructor
    · intro free p b idx flies mem
      exact Bool.false_ne_true (((sound.owned.mine p b idx flies).1.taken i mem).symm.trans free)
    · intro outside
      by_contra busy
      obtain ⟨p, b, idx, flies, mem⟩ := sound.owned.taken i bound (Bool.not_eq_true _ ▸ busy)
      exact outside p b idx flies mem
  · exact (act_spec sound (step_act moved)).2.1
  · exact (act_spec sound (step_act moved)).2.2 other b
  · have acted := step_act moved
    simp only [act] at acted
    obtain ⟨held, ⟨⟩⟩ := Option.ite_none_right_eq_some.mp acted
    rcases exec_or (handle_spec sound held) with ⟨-, -, clears⟩ | ⟨e, -, stopped⟩
    · exact clears
    · rw [stopped] at calm
      exact nomatch calm

end Steps

end Xv6Monitor.Disk.Driver
