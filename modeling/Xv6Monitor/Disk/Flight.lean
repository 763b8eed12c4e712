import Xv6Monitor.Disk.Descriptors

/-! The requests of the disk that are in flight: each has its own three descriptors, its own buffer, and
one place among the ring of requests, the device and the ring of finished requests. -/

namespace Xv6Monitor.Disk.Flight
open Function Lib.Ring Requests Descriptors

/-- The descriptors that are not free are those of the requests in flight, three to a request. -/
structure Owned (thread : Nat → Thread) (free : Nat → Bool) (desc : Nat → Desc) (info : Nat → Info) : Prop where
  mine : ∀ p b idx, (thread p).inFlight = some (b, idx) → Chain free desc idx ∧ (info idx.i0).b = some b
  apart : ∀ p q b c idx jdx, p ≠ q → (thread p).inFlight = some (b, idx) → (thread q).inFlight = some (c, jdx) →
    idx.toList.Disjoint jdx.toList
  taken : ∀ i, i < NUM → free i = false → ∃ p b idx, (thread p).inFlight = some (b, idx) ∧ i ∈ idx.toList

structure Locked (thread : Nat → Thread) (owner : Nat → Option Nat) (lock : Option Holder) : Prop where
  owner : ∀ p b, (thread p).buf = some b → owner b = some p
  holds : ∀ p b idx, thread p = .publishing b idx → lock = some (.process p)

/-- The heads that the device was told of and the handler has not seen are those of the requests whose
buffers wait for the disk; `entry` is the entry of the ring that comes next. -/
structure Tracked (thread : Nat → Thread) (disk : Nat → Bool) (heads : Multiset Nat) (entry : Nat) : Prop where
  nodup : heads.Nodup
  mem : ∀ h, h ∈ heads ↔ ∃ p b idx, thread p = .submitted b idx ∧ idx.i0 = h ∧ disk b = true
  next : ∀ p b idx, thread p = .publishing b idx → disk b = true ∧ entry = idx.i0

structure Sound (s : Sys) : Prop where
  owned : Owned s.thread s.free s.desc s.info
  locked : Locked s.thread s.owner s.lock
  tracked : Tracked s.thread s.disk s.heads (s.ring (slot NUM s.avail))
  calm : s.panicked = none ∨ s.panicked = some .status

section Owned

variable {thread thread' : Nat → Thread} {free free' : Nat → Bool} {desc desc' : Nat → Desc} {info info' : Nat → Info}
  {p b : Nat} {idx : Idx} {t : Thread}

theorem head_mem (idx : Idx) : idx.i0 ∈ idx.toList := List.mem_cons_self ..

theorem Owned.threads (owned : Owned thread free desc info) (same : ∀ p, (thread' p).inFlight = (thread p).inFlight) :
    Owned thread' free desc info := by
  refine ⟨fun p => ?_, fun p q => ?_, fun i bound busy => ?_⟩
  · rw [same]
    exact owned.mine p
  · rw [same, same]
    exact owned.apart p q
  · obtain ⟨p, b, idx, flies, mem⟩ := owned.taken i bound busy
    exact ⟨p, b, idx, (same p).trans flies, mem⟩

theorem inFlight_update (same : t.inFlight = (thread p).inFlight) (q : Nat) :
    (update thread p t q).inFlight = (thread q).inFlight := by
  by_cases here : q = p
  · rw [here, update_self, same]
  · rw [update_of_ne here]

theorem Owned.entries (owned : Owned thread free desc info) (same : ∀ i, free i = false → desc' i = desc i)
    (bufs : ∀ i, (info' i).b = (info i).b) : Owned thread free desc' info' := by
  refine ⟨fun p b idx flies => ?_, owned.apart, owned.taken⟩
  obtain ⟨chain, buf⟩ := owned.mine p b idx flies
  exact ⟨chain.kept chain.taken fun i mem => same i (chain.taken i mem), (bufs _).trans buf⟩

theorem Owned.grant (owned : Owned thread free desc info) (granted : ∀ i ∈ idx.toList, free i = true)
    (less : ∀ i, free' i = (free i && decide (i ∉ idx.toList))) (same : ∀ i, free i = false → desc' i = desc i)
    (bufs : ∀ i, i ≠ idx.i0 → info' i = info i) (chain : Chain free' desc' idx) (buf : (info' idx.i0).b = some b)
    (outside : (thread p).inFlight = none) (flies : t.inFlight = some (b, idx)) :
    Owned (update thread p t) free' desc' info' := by
  have others : ∀ q c jdx, q ≠ p → (update thread p t q).inFlight = some (c, jdx) →
      (thread q).inFlight = some (c, jdx) := by
    intro q c jdx other flies
    rw [update_of_ne other] at flies
    exact flies
  have mine : ∀ c jdx, (update thread p t p).inFlight = some (c, jdx) → c = b ∧ jdx = idx := by
    intro c jdx flies'
    rw [update_self, flies] at flies'
    cases flies'
    exact ⟨rfl, rfl⟩
  -- What another request has was not free.
  have away : ∀ q c jdx, (thread q).inFlight = some (c, jdx) → idx.toList.Disjoint jdx.toList := by
    intro q c jdx flies i here there
    exact Bool.false_ne_true (((owned.mine q c jdx flies).1.taken i there).symm.trans (granted i here))
  refine ⟨fun q c jdx flies => ?_, fun q r c d jdx kdx apart first second => ?_, fun i bound busy => ?_⟩
  · by_cases here : q = p
    · subst here
      obtain ⟨rfl, rfl⟩ := mine c jdx flies
      exact ⟨chain, buf⟩
    have flies := others q c jdx here flies
    have old := owned.mine q c jdx flies
    have away := away q c jdx flies
    refine ⟨old.1.kept (fun i mem => ?_) fun i mem => same i (old.1.taken i mem), ?_⟩
    · rw [less, old.1.taken i mem]
      rfl
    · rw [bufs _ fun wrong => away (head_mem idx) (wrong ▸ head_mem jdx)]
      exact old.2
  · by_cases here : q = p
    · subst here
      obtain ⟨rfl, rfl⟩ := mine c jdx first
      exact away r d kdx (others r d kdx (Ne.symm apart) second)
    by_cases there : r = p
    · subst there
      obtain ⟨rfl, rfl⟩ := mine d kdx second
      exact (away q c jdx (others q c jdx here first)).symm
    · exact owned.apart q r c d jdx kdx apart (others q c jdx here first) (others r d kdx there second)
  · by_cases mem : i ∈ idx.toList
    · refine ⟨p, b, idx, ?_, mem⟩
      rw [update_self]
      exact flies
    have busy' : free i = false := by simpa [less, mem] using busy
    obtain ⟨q, c, jdx, flies', mem'⟩ := owned.taken i bound busy'
    refine ⟨q, c, jdx, ?_, mem'⟩
    have other : q ≠ p := by
      rintro rfl
      rw [outside] at flies'
      exact nomatch flies'
    rw [update_of_ne other]
    exact flies'

theorem Owned.give (owned : Owned thread free desc info) (flies : (thread p).inFlight = some (b, idx))
    (more : ∀ i, free' i = (free i || decide (i ∈ idx.toList))) (same : ∀ i, i ∉ idx.toList → desc' i = desc i)
    (bufs : ∀ i, i ≠ idx.i0 → info' i = info i) (outside : t.inFlight = none) :
    Owned (update thread p t) free' desc' info' := by
  have others : ∀ q c jdx, (update thread p t q).inFlight = some (c, jdx) →
      q ≠ p ∧ (thread q).inFlight = some (c, jdx) := by
    intro q c jdx flies
    by_cases here : q = p
    · rw [here, update_self, outside] at flies
      exact nomatch flies
    · rw [update_of_ne here] at flies
      exact ⟨here, flies⟩
  refine ⟨fun q c jdx flies' => ?_, fun q r c d jdx kdx apart first second => ?_, fun i bound busy => ?_⟩
  · obtain ⟨other, flies'⟩ := others q c jdx flies'
    have old := owned.mine q c jdx flies'
    have away := owned.apart q p c b jdx idx other flies' flies
    have head : jdx.i0 ≠ idx.i0 := by
      intro wrong
      refine away (head_mem jdx) ?_
      rw [wrong]
      exact head_mem idx
    refine ⟨old.1.kept (fun i mem => ?_) fun i mem => same i (away mem), ?_⟩
    · rw [more, old.1.taken i mem, decide_eq_false (away mem)]
      rfl
    · rw [bufs _ head]
      exact old.2
  · obtain ⟨-, first⟩ := others q c jdx first
    obtain ⟨-, second⟩ := others r d kdx second
    exact owned.apart q r c d jdx kdx apart first second
  · rw [more, Bool.or_eq_false_iff, decide_eq_false_iff_not] at busy
    obtain ⟨q, c, jdx, flies', mem⟩ := owned.taken i bound busy.1
    have other : q ≠ p := by
      rintro rfl
      rw [flies] at flies'
      cases flies'
      exact busy.2 mem
    refine ⟨q, c, jdx, ?_, mem⟩
    rw [update_of_ne other]
    exact flies'

end Owned

section Tracked

variable {thread : Nat → Thread} {owner : Nat → Option Nat} {lock lock' : Option Holder} {disk : Nat → Bool}
  {heads heads' : Multiset Nat} {entry entry' p b h : Nat} {idx : Idx} {t : Thread}

theorem Locked.distinct (locked : Locked thread owner lock) {q c : Nat} (apart : q ≠ p) (mine : (thread p).buf = some b)
    (other : (thread q).buf = some c) : c ≠ b := by
  rintro rfl
  exact apart (Option.some.inj ((locked.owner q c other).symm.trans (locked.owner p c mine)))

theorem Locked.put (locked : Locked thread owner lock) (bufs : ∀ b, t.buf = some b → owner b = some p)
    (others : ∀ q b idx, q ≠ p → thread q = .publishing b idx → lock' = some (.process q))
    (holds : ∀ b idx, t = .publishing b idx → lock' = some (.process p)) :
    Locked (update thread p t) owner lock' := by
  refine ⟨fun q b buf => ?_, fun q b idx here => ?_⟩
  · by_cases mine : q = p
    · rw [mine, update_self] at buf
      rw [mine]
      exact bufs b buf
    · rw [update_of_ne mine] at buf
      exact locked.owner q b buf
  · by_cases mine : q = p
    · rw [mine, update_self] at here
      rw [mine]
      exact holds b idx here
    · rw [update_of_ne mine] at here
      exact others q b idx mine here

variable (tracked : Tracked thread disk heads entry)
include tracked

theorem Tracked.put (before : ∀ b idx, thread p ≠ .submitted b idx)
    (after : ∀ b idx, t ≠ .submitted b idx) (quiet : ∀ b idx, t ≠ .publishing b idx) :
    Tracked (update thread p t) disk heads entry := by
  refine ⟨tracked.nodup, fun h => ?_, fun q b idx here => ?_⟩
  · rw [tracked.mem]
    constructor
    · rintro ⟨q, b, idx, here, head, waits⟩
      have other : q ≠ p := by
        rintro rfl
        exact before b idx here
      exact ⟨q, b, idx, (update_of_ne other ..).trans here, head, waits⟩
    · rintro ⟨q, b, idx, here, head, waits⟩
      by_cases mine : q = p
      · rw [mine, update_self] at here
        exact absurd here (after b idx)
      · rw [update_of_ne mine] at here
        exact ⟨q, b, idx, here, head, waits⟩
  · by_cases mine : q = p
    · rw [mine, update_self] at here
      exact absurd here (quiet b idx)
    · rw [update_of_ne mine] at here
      exact tracked.next q b idx here

theorem Tracked.grant (locked : Locked thread owner lock)
    (mine : (thread p).buf = some b) (before : ∀ b idx, thread p ≠ .submitted b idx)
    (alone : ∀ q b idx, thread q ≠ .publishing b idx) :
    Tracked (update thread p (.publishing b idx)) (update disk b true) heads idx.i0 := by
  have waits : ∀ q c jdx, thread q = .submitted c jdx → q ≠ p ∧ update disk b true c = disk c := by
    intro q c jdx here
    have other : q ≠ p := by
      rintro rfl
      exact before c jdx here
    have buf : (thread q).buf = some c := by
      rw [here]
      rfl
    exact ⟨other, update_of_ne (locked.distinct other mine buf) ..⟩
  refine ⟨tracked.nodup, fun h => ?_, fun q c jdx here => ?_⟩
  · rw [tracked.mem]
    constructor
    · rintro ⟨q, c, jdx, here, head, set⟩
      obtain ⟨other, same⟩ := waits q c jdx here
      exact ⟨q, c, jdx, (update_of_ne other ..).trans here, head, same.trans set⟩
    rintro ⟨q, c, jdx, here, head, set⟩
    by_cases self : q = p
    · rw [self, update_self] at here
      exact nomatch here
    · rw [update_of_ne self] at here
      exact ⟨q, c, jdx, here, head, (waits q c jdx here).2.symm.trans set⟩
  · by_cases self : q = p
    · rw [self, update_self] at here
      cases here
      exact ⟨update_self .., rfl⟩
    · rw [update_of_ne self] at here
      exact absurd here (alone q c jdx)

theorem Tracked.publish (here : thread p = .publishing b idx)
    (alone : ∀ q c jdx, q ≠ p → thread q ≠ .publishing c jdx) (fresh : idx.i0 ∉ heads) (entry' : Nat) :
    Tracked (update thread p (.submitted b idx)) disk (idx.i0 ::ₘ heads) entry' := by
  refine ⟨Multiset.nodup_cons.mpr ⟨fresh, tracked.nodup⟩, fun h => ?_, fun q c jdx there => ?_⟩
  · rw [Multiset.mem_cons, tracked.mem]
    constructor
    · rintro (rfl | ⟨q, c, jdx, there, head, set⟩)
      · exact ⟨p, b, idx, update_self .., rfl, (tracked.next p b idx here).1⟩
      have other : q ≠ p := by
        rintro rfl
        rw [here] at there
        exact nomatch there
      exact ⟨q, c, jdx, (update_of_ne other ..).trans there, head, set⟩
    · rintro ⟨q, c, jdx, there, head, set⟩
      by_cases self : q = p
      · rw [self, update_self] at there
        cases there
        exact Or.inl head.symm
      · rw [update_of_ne self] at there
        exact Or.inr ⟨q, c, jdx, there, head, set⟩
  · by_cases self : q = p
    · rw [self, update_self] at there
      exact nomatch there
    · rw [update_of_ne self] at there
      exact absurd there (alone q c jdx self)

theorem Tracked.retire (here : thread p = .submitted b idx)
    (done : disk b = false) : Tracked (update thread p .idle) disk heads entry := by
  refine ⟨tracked.nodup, fun h => ?_, fun q c jdx there => ?_⟩
  · rw [tracked.mem]
    constructor
    · rintro ⟨q, c, jdx, there, head, set⟩
      have other : q ≠ p := by
        rintro rfl
        rw [here] at there
        cases there
        exact Bool.false_ne_true (done.symm.trans set)
      exact ⟨q, c, jdx, (update_of_ne other ..).trans there, head, set⟩
    · rintro ⟨q, c, jdx, there, head, set⟩
      by_cases self : q = p
      · rw [self, update_self] at there
        exact nomatch there
      · rw [update_of_ne self] at there
        exact ⟨q, c, jdx, there, head, set⟩
  · by_cases self : q = p
    · rw [self, update_self] at there
      exact nomatch there
    · rw [update_of_ne self] at there
      exact tracked.next q c jdx there

omit tracked

theorem Tracked.complete (tracked : Tracked thread disk (idx.i0 ::ₘ heads) entry) (locked : Locked thread owner lock)
    (apart : ∀ q c jdx, q ≠ p → thread q = .submitted c jdx → jdx.i0 ≠ idx.i0) (here : thread p = .submitted b idx) :
    Tracked thread (update disk b false) heads entry := by
  obtain ⟨fresh, nodup⟩ := Multiset.nodup_cons.mp tracked.nodup
  have mine : (thread p).buf = some b := by
    rw [here]
    rfl
  have keeps : ∀ q c, q ≠ p → (thread q).buf = some c → update disk b false c = disk c := fun q c other buf =>
    update_of_ne (locked.distinct other mine buf) ..
  refine ⟨nodup, fun h => ?_, fun q c jdx there => ?_⟩
  · constructor
    · intro mem
      obtain ⟨q, c, jdx, there, head, set⟩ := (tracked.mem h).mp (Multiset.mem_cons_of_mem mem)
      have other : q ≠ p := by
        rintro rfl
        rw [here] at there
        cases there
        exact fresh (head ▸ mem)
      exact ⟨q, c, jdx, there, head, (keeps q c other (by rw [there]; rfl)).trans set⟩
    · rintro ⟨q, c, jdx, there, head, set⟩
      have other : q ≠ p := by
        rintro rfl
        rw [here] at there
        cases there
        rw [update_self] at set
        exact nomatch set
      rw [keeps q c other (by rw [there]; rfl)] at set
      have mem := (tracked.mem h).mpr ⟨q, c, jdx, there, head, set⟩
      exact (Multiset.mem_cons.mp mem).resolve_left fun same => apart q c jdx other there (head.trans same)
  · have other : q ≠ p := by
      rintro rfl
      rw [here] at there
      exact nomatch there
    rw [keeps q c other (by rw [there]; rfl)]
    exact tracked.next q c jdx there

end Tracked

section Sound

variable {s : Sys} (sound : Sound s)

include sound

theorem Sound.bound {h : Nat} (mem : h ∈ s.heads) : h < NUM := by
  obtain ⟨p, b, idx, here, rfl, -⟩ := (sound.tracked.mem h).mp mem
  have flies : (s.thread p).inFlight = some (b, idx) := by
    rw [here]
    rfl
  exact (sound.owned.mine p b idx flies).1.bound _ (head_mem idx)

theorem Sound.room {h : Nat} (bound : h < NUM) (fresh : h ∉ s.heads) : s.heads.card < NUM := by
  have nodup : (h ::ₘ s.heads).Nodup := Multiset.nodup_cons.mpr ⟨fresh, sound.tracked.nodup⟩
  have inside : h ::ₘ s.heads ⊆ Multiset.range NUM := by
    intro i mem
    rw [Multiset.mem_range]
    rcases Multiset.mem_cons.mp mem with rfl | mem
    · exact bound
    · exact sound.bound mem
  have less := Multiset.card_le_card ((Multiset.le_iff_subset nodup).mpr inside)
  exact less

theorem Sound.fresh {i : Nat} (free : s.free i = true) : i ∉ s.heads := by
  intro mem
  obtain ⟨p, b, idx, here, rfl, -⟩ := (sound.tracked.mem i).mp mem
  have flies : (s.thread p).inFlight = some (b, idx) := by
    rw [here]
    rfl
  exact Bool.false_ne_true (((sound.owned.mine p b idx flies).1.taken _ (head_mem idx)).symm.trans free)

omit sound in
theorem pending_room (s : Sys) : (s.avail - s.seen).toNat ≤ s.heads.card := by
  have length := between_length (N := NUM) s.ring s.seen s.avail
  rw [Sys.heads, Multiset.card_add, Multiset.coe_card, Sys.pending, length]
  exact Nat.le_add_right ..

omit sound in
theorem posted_room (s : Sys) : (s.used - s.usedIdx).toNat + s.device.length ≤ s.heads.card := by
  have length := between_length (N := NUM) s.usedRing s.usedIdx s.used
  rw [Sys.heads, Multiset.card_add, Multiset.card_add, Multiset.coe_card, Multiset.coe_card, Multiset.coe_card, Sys.posted,
    length]
  omega

end Sound

end Xv6Monitor.Disk.Flight
