import Xv6Monitor.Disk.Flight

/-! What `virtio_disk_rw` and `virtio_disk_intr` do between two points where they give up the lock: the
requests in flight stay apart, and a finished request reaches its own buffer. -/

namespace Xv6Monitor.Disk.Completions
open Function Lib.Program Lib.Ring Requests Descriptors Flight

/-- What a step leaves of the entries that the device has not read, and of the buffers that wait. -/
structure Keeps (s t : Sys) : Prop where
  pending : s.pending <+: t.pending
  disk : ∀ b, s.disk b = true → t.disk b = true

theorem size_dvd : NUM ∣ 2 ^ 16 := by decide

section Programs

variable {s : Sys} {p b : Nat} {blockno : BitVec 32} {write : Bool} {idx : Idx}

theorem formatDesc_other (desc : Nat → Desc) (b : Nat) (write : Bool) {i : Nat} (outside : i ∉ idx.toList) :
    formatDesc desc b write idx i = desc i := by
  simp only [Idx.toList, List.mem_cons, List.not_mem_nil, or_false, not_or] at outside
  rw [formatDesc, update_of_ne outside.2.2, update_of_ne outside.2.1, update_of_ne outside.1]

theorem formatDesc_chain {free : Nat → Bool} (desc : Nat → Desc) (b : Nat) (write : Bool) (distinct : idx.toList.Nodup)
    (bound : ∀ i ∈ idx.toList, i < NUM) (taken : ∀ i ∈ idx.toList, free i = false) :
    Chain free (formatDesc desc b write idx) idx := by
  have apart := distinct
  simp only [Idx.toList, List.nodup_cons, List.mem_cons, List.not_mem_nil, or_false, not_or] at apart
  obtain ⟨⟨apart01, apart02⟩, apart12, -⟩ := apart
  refine ⟨distinct, bound, taken, ?_, ?_, ?_⟩
  · rw [formatDesc, update_of_ne apart02, update_of_ne apart01, update_self]
    dsimp only
    exact ⟨by decide, rfl⟩
  · rw [formatDesc, update_of_ne apart12, update_self]
    dsimp only
    exact ⟨by cases write <;> decide, rfl⟩
  · rw [formatDesc, update_self]
    dsimp only
    decide

theorem request_spec (sound : Sound s) (here : s.thread p = .calling b blockno write) (unlocked : s.lock = none) :
    Ends (fun _ => False) (request p b blockno write) s fun _ t => Sound t ∧ Keeps s t := by
  have alone : ∀ q b idx, s.thread q ≠ .publishing b idx := by
    intro q b idx publishing
    exact nomatch unlocked.symm.trans (sound.locked.holds q b idx publishing)
  unfold request
  refine alloc3Desc_spec.bind fun r t after => ?_
  cases r with
  | none =>
    obtain ⟨desc, asleep, rfl, same⟩ := after
    simp only [List.not_mem_nil, not_false_eq_true, decide_true, Bool.and_true]
    refine ⟨⟨sound.owned.entries same fun _ => rfl, ?_, sound.tracked, sound.calm⟩, ⟨List.prefix_rfl, fun _ set => set⟩⟩
    exact unlocked ▸ sound.locked
  | some idx =>
    obtain ⟨distinct, granted, desc, asleep, rfl, same⟩ := after
    have head := granted _ (head_mem idx)
    have room := lt_of_le_of_lt (pending_room s) (sound.room head.1 (sound.fresh head.2))
    have ring : between NUM (update s.ring (slot NUM s.avail) idx.i0) s.seen s.avail = s.pending :=
      between_update size_dvd (le_refl _) room _
    have mine : (s.thread p).buf = some b := by
      rw [here]
      rfl
    have outside : (s.thread p).inFlight = none := by
      rw [here]
      rfl
    refine ⟨⟨?_, ?_, ?_, sound.calm⟩, ?_, fun c set => ?_⟩
    · refine sound.owned.grant (fun i mem => (granted i mem).2) (fun _ => rfl) (fun i busy => ?_)
        (fun i other => update_of_ne other ..)
        (formatDesc_chain desc b write distinct (fun i mem => (granted i mem).1) fun i mem => ?_) ?_ outside rfl
      · have away : i ∉ idx.toList := fun mem => Bool.false_ne_true (busy.symm.trans (granted i mem).2)
        exact (formatDesc_other desc b write away).trans (same i busy)
      · show (s.free i && decide (i ∉ idx.toList)) = false
        rw [decide_eq_false (not_not.mpr mem), Bool.and_false]
      · show (update s.info idx.i0 ⟨some b, 0xff⟩ idx.i0).b = some b
        rw [update_self]
    · refine sound.locked.put (fun c buf => ?_) (fun q c jdx _ there => absurd there (alone q c jdx)) fun _ _ _ => rfl
      cases buf
      exact sound.locked.owner p b mine
    · show Tracked _ _ (↑(between NUM (update s.ring (slot NUM s.avail) idx.i0) s.seen s.avail) +
        (↑s.device + ↑s.posted)) (update s.ring (slot NUM s.avail) idx.i0 (slot NUM s.avail))
      rw [ring, update_self]
      refine sound.tracked.grant sound.locked mine (fun c jdx there => ?_) alone
      rw [here] at there
      exact nomatch there
    · rw [← ring]
      exact List.prefix_rfl
    · by_cases same : c = b
      · rw [same]
        exact update_self ..
      · exact (update_of_ne same ..).trans set

theorem await_spec (sound : Sound s) (here : s.thread p = .submitted b idx)
    (alone : ∀ q b idx, s.thread q ≠ .publishing b idx) :
    Ends (fun _ => False) (await p b idx) s fun _ t => Sound t ∧ Keeps s t := by
  have flies : (s.thread p).inFlight = some (b, idx) := by
    rw [here]
    rfl
  have locked : Locked s.thread s.owner none :=
    ⟨sound.locked.owner, fun q c jdx there => absurd there (alone q c jdx)⟩
  unfold await
  rw [ends_get_bind]
  split
  next set =>
    exact ⟨⟨sound.owned, locked, sound.tracked, sound.calm⟩, List.prefix_rfl, fun _ set => set⟩
  next done =>
    rw [ends_modify_bind]
    refine (freeChain_spec ?_).bind fun _ t after => ?_
    · exact (sound.owned.mine p b idx flies).1
    obtain ⟨desc, asleep, rfl, same⟩ := after
    refine ⟨⟨?_, ?_, ?_, sound.calm⟩, List.prefix_rfl, fun _ set => set⟩
    · exact sound.owned.give flies (fun _ => rfl) same (fun i other => update_of_ne other ..) rfl
    · exact locked.put (fun c buf => nomatch buf) (fun q c jdx _ there => absurd there (alone q c jdx)) fun _ _ there =>
        nomatch there
    · exact sound.tracked.retire here (Bool.not_eq_true _ ▸ done)

/-- The handler clears the flag of the buffer of a request that is in flight, and of no other. -/
def Clears (s t : Sys) : Prop :=
  ∃ p b idx, s.thread p = .submitted b idx ∧ idx.i0 = s.usedRing (slot NUM s.usedIdx) ∧ s.disk b = true ∧
    t.disk = update s.disk b false

theorem handle_spec (sound : Sound s) (held : s.lock = some .handler) :
    Ends (· = .status) handle s fun _ t => Sound t ∧ s.pending <+: t.pending ∧
      if s.usedIdx = s.used then t.disk = s.disk else Clears s t := by
  unfold handle
  rw [ends_get_bind]
  split
  next idle =>
    refine ⟨⟨sound.owned, ?_, sound.tracked, sound.calm⟩, List.prefix_rfl, rfl⟩
    refine ⟨sound.locked.owner, fun q c jdx there => ?_⟩
    exact nomatch held.symm.trans (sound.locked.holds q c jdx there)
  next more =>
    dsimp only
    split
    · exact rfl
    have posted : s.posted = s.usedRing (slot NUM s.usedIdx) :: between NUM s.usedRing (s.usedIdx + 1) s.used :=
      between_pop more
    have heads : s.heads = s.usedRing (slot NUM s.usedIdx) ::ₘ (↑s.pending + (↑s.device +
        ↑(between NUM s.usedRing (s.usedIdx + 1) s.used))) := by
      rw [Sys.heads, posted, ← Multiset.cons_coe, Multiset.add_cons, Multiset.add_cons]
    have mem : s.usedRing (slot NUM s.usedIdx) ∈ s.heads := by
      rw [heads]
      exact Multiset.mem_cons_self ..
    obtain ⟨p, b, idx, here, head, set⟩ := (sound.tracked.mem _).mp mem
    have flies : (s.thread p).inFlight = some (b, idx) := by
      rw [here]
      rfl
    have buf := (sound.owned.mine p b idx flies).2
    rw [head] at buf
    rw [buf]
    refine ⟨⟨sound.owned, sound.locked, ?_, sound.calm⟩, List.prefix_rfl, p, b, idx, here, head, set, rfl⟩
    have tracked := sound.tracked
    rw [heads, ← head] at tracked
    refine tracked.complete sound.locked (fun q c jdx other there => ?_) here
    have flies' : (s.thread q).inFlight = some (c, jdx) := by
      rw [there]
      rfl
    intro same
    exact sound.owned.apart q p c b jdx idx other flies' flies (head_mem jdx) (same ▸ head_mem idx)

end Programs

end Xv6Monitor.Disk.Completions
