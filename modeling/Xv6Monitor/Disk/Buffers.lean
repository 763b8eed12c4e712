import Mathlib.Data.List.FinRange

/-! The buffer cache, `kernel/bio.c`. A buffer is named by its place in `bcache.buf`; the linked list
through `prev` and `next` is kept as the list of these places. An `acquiresleep` that has to wait
and a panic have no result. -/

namespace Xv6Monitor.Disk.Buffers
open Function

def MAXOPBLOCKS : Nat := 10
def NBUF : Nat := MAXOPBLOCKS * 3
def ROOTDEV : Nat := 1

abbrev Tid := Nat

/-- `struct buf *` -/
abbrev Handle := Fin NBUF

structure Buf (β : Type) where
  dev : Nat
  blockno : Nat
  valid : Bool
  refcnt : Nat
  /-- The thread that holds the sleep-lock. -/
  lock : Option Tid
  data : β

structure Bcache (β : Type) where
  buf : Handle → Buf β
  /-- Most recently used first. -/
  order : List Handle

variable {β : Type}

@[simps] def Bcache.set (cache : Bcache β) (b : Handle) (entry : Buf β) : Bcache β :=
  { cache with buf := update cache.buf b entry }

def binit (zero : β) : Bcache β where
  buf := fun _ => ⟨0, 0, false, 0, none, zero⟩
  order := (List.finRange NBUF).reverse

def acquiresleep (cache : Bcache β) (t : Tid) (b : Handle) : Option (Bcache β) :=
  if (cache.buf b).lock = none then some (cache.set b { cache.buf b with lock := some t }) else none

def bget (cache : Bcache β) (t : Tid) (dev blockno : Nat) : Option (Handle × Bcache β) :=
  match cache.order.find? fun b => (cache.buf b).dev = dev ∧ (cache.buf b).blockno = blockno with
  | some b =>
      let counted := cache.set b { cache.buf b with refcnt := (cache.buf b).refcnt + 1 }
      (acquiresleep counted t b).map fun locked => (b, locked)
  | none =>
      match cache.order.reverse.find? fun b => (cache.buf b).refcnt = 0 with
      | some b =>
          let recycled := cache.set b
            { cache.buf b with dev := dev, blockno := blockno, valid := false, refcnt := 1 }
          (acquiresleep recycled t b).map fun locked => (b, locked)
      -- panic("bget: no buffers")
      | none => none

def bread (disk : Nat → β) (cache : Bcache β) (t : Tid) (dev blockno : Nat) : Option (Handle × Bcache β) :=
  (bget cache t dev blockno).map fun got =>
    let b := got.1
    if (got.2.buf b).valid then got
    else (b, got.2.set b { got.2.buf b with data := disk (got.2.buf b).blockno, valid := true })

def bwrite (disk : Nat → β) (cache : Bcache β) (t : Tid) (b : Handle) : Option (Nat → β) :=
  if (cache.buf b).lock = some t then some (update disk (cache.buf b).blockno (cache.buf b).data)
  else none

def brelse (cache : Bcache β) (t : Tid) (b : Handle) : Option (Bcache β) :=
  if (cache.buf b).lock = some t then
    let released := cache.set b { cache.buf b with lock := none, refcnt := (cache.buf b).refcnt - 1 }
    if (released.buf b).refcnt = 0 then some { released with order := b :: released.order.erase b }
    else some released
  else none

def bpin (cache : Bcache β) (b : Handle) : Bcache β :=
  cache.set b { cache.buf b with refcnt := (cache.buf b).refcnt + 1 }

def bunpin (cache : Bcache β) (b : Handle) : Bcache β :=
  cache.set b { cache.buf b with refcnt := (cache.buf b).refcnt - 1 }

def memmove (cache : Bcache β) (b : Handle) (data : β) : Bcache β :=
  cache.set b { cache.buf b with data := data }

structure Caches (cache : Bcache β) (b : Handle) (n : Nat) : Prop where
  dev : (cache.buf b).dev = ROOTDEV
  blockno : (cache.buf b).blockno = n

structure Holds (cache : Bcache β) (t : Tid) (b : Handle) (n : Nat) (data : β) : Prop where
  caches : Caches cache b n
  valid : (cache.buf b).valid = true
  lock : (cache.buf b).lock = some t
  data : (cache.buf b).data = data

def references (cache : Bcache β) (pinned : List Nat) (b : Handle) : Nat :=
  (if (cache.buf b).lock = none then 0 else 1) +
    if (cache.buf b).dev = ROOTDEV ∧ (cache.buf b).blockno ∈ pinned then 1 else 0

/-- What the cache guarantees: one buffer for each block, the contents `view` in every buffer that has
any, a reference for each lock and each pin. Pinned blocks stay cached. -/
structure Sound (cache : Bcache β) (view : Nat → β) (pinned : List Nat) : Prop where
  listed : ∀ b, b ∈ cache.order
  unique : ∀ a b n, Caches cache a n → Caches cache b n → a = b
  content : ∀ b n, Caches cache b n → (cache.buf b).valid = true → (cache.buf b).data = view n
  counted : ∀ b, (cache.buf b).refcnt = references cache pinned b
  kept : ∀ n ∈ pinned, ∃ b, Caches cache b n ∧ (cache.buf b).valid = true
  filled : ∀ b, (cache.buf b).lock ≠ none → (cache.buf b).dev = ROOTDEV ∧ (cache.buf b).valid = true

theorem sound_binit (zero : β) (view : Nat → β) : Sound (binit zero) view [] where
  listed b := by simp [binit]
  unique a b n cached := by cases cached.dev
  content b n cached := by cases cached.dev
  counted b := rfl
  kept n mem := by cases mem
  filled b locked := absurd rfl locked

variable {cache after : Bcache β} {view disk : Nat → β} {pinned : List Nat} {t : Tid} {b : Handle} {n : Nat}

theorem Holds.stays {data : β} (holds : Holds cache t b n data) (same : after.buf b = cache.buf b) :
    Holds after t b n data := by
  refine ⟨⟨?_, ?_⟩, ?_, ?_, ?_⟩ <;> rw [same]
  · exact holds.caches.dev
  · exact holds.caches.blockno
  · exact holds.valid
  · exact holds.lock
  · exact holds.data

theorem caches_set {entry : Buf β} {a : Handle} {m : Nat} :
    Caches (cache.set b entry) a m ↔
      if a = b then entry.dev = ROOTDEV ∧ entry.blockno = m else Caches cache a m := by
  by_cases here : a = b
  · subst here
    rw [if_pos rfl]
    exact ⟨fun ⟨dev, blockno⟩ => ⟨by simpa using dev, by simpa using blockno⟩,
      fun ⟨dev, blockno⟩ => ⟨by simpa using dev, by simpa using blockno⟩⟩
  · rw [if_neg here]
    exact ⟨fun ⟨dev, blockno⟩ => ⟨by simpa [here] using dev, by simpa [here] using blockno⟩,
      fun ⟨dev, blockno⟩ => ⟨by simpa [here] using dev, by simpa [here] using blockno⟩⟩

theorem Sound.load (sound : Sound cache view pinned) (entry : Buf β) (dev : entry.dev = ROOTDEV)
    (blockno : entry.blockno = n) (data : entry.data = view n) (lock : entry.lock = some t)
    (refcnt : entry.refcnt = 1 + if n ∈ pinned then 1 else 0) (valid : entry.valid = true)
    (only : ∀ a, Caches cache a n → a = b) (loose : ∀ m, Caches cache b m → m ≠ n → m ∉ pinned) :
    Sound (cache.set b entry) view pinned ∧ Holds (cache.set b entry) t b n (view n) := by
  constructor
  · constructor
    · exact sound.listed
    · intro a a' m first second
      rw [caches_set] at first second
      split at first <;> split at second
      · simp_all
      next here there =>
        rw [here]
        exact (only a' ⟨second.dev, by rw [second.blockno, ← first.2, blockno]⟩).symm
      next here there =>
        rw [there]
        exact only a ⟨first.dev, by rw [first.blockno, ← second.2, blockno]⟩
      · exact sound.unique a a' m first second
    · intro a m cached filled
      rw [caches_set] at cached
      split at cached
      next here =>
        rw [here, Bcache.set_buf, update_self, data, ← cached.2, blockno]
      next here =>
        simp only [Bcache.set_buf, update_of_ne here] at filled ⊢
        exact sound.content a m cached filled
    · intro a
      by_cases here : a = b
      · subst here
        simp [references, lock, dev, blockno, refcnt]
      · simpa [references, here] using sound.counted a
    · intro m mem
      by_cases here : m = n
      · exact ⟨b, caches_set.mpr (by rw [if_pos rfl, here]; exact ⟨dev, blockno⟩), by simp [valid]⟩
      · obtain ⟨a, cached, filled⟩ := sound.kept m mem
        have other : a ≠ b := fun same => loose m (same ▸ cached) here mem
        exact ⟨a, caches_set.mpr (by rw [if_neg other]; exact cached), by simpa [other] using filled⟩
    · intro a locked
      by_cases here : a = b
      · subst here
        simp [dev, valid]
      · simp only [Bcache.set_buf, update_of_ne here] at locked ⊢
        exact sound.filled a locked
  · exact ⟨caches_set.mpr (by rw [if_pos rfl]; exact ⟨dev, blockno⟩), by simp [valid], by simp [lock], by simp [data]⟩

theorem bget_cases {got : Handle × Bcache β} (done : bget cache t ROOTDEV n = some got)
    (sound : Sound cache view pinned) :
    (Caches cache got.1 n ∧ (cache.buf got.1).lock = none ∧
      got.2 = cache.set got.1 { cache.buf got.1 with refcnt := (cache.buf got.1).refcnt + 1, lock := some t }) ∨
    ((∀ a, ¬Caches cache a n) ∧ (cache.buf got.1).refcnt = 0 ∧
      got.2 = cache.set got.1 ⟨ROOTDEV, n, false, 1, some t, (cache.buf got.1).data⟩) := by
  unfold bget at done
  split at done
  next b found =>
    have match' := List.find?_some found
    simp only [decide_eq_true_eq] at match'
    obtain ⟨locked, taken, rfl⟩ := Option.map_eq_some_iff.mp done
    simp only [acquiresleep, Option.ite_none_right_eq_some, Option.some.injEq] at taken
    obtain ⟨free, rfl⟩ := taken
    refine Or.inl ⟨⟨match'.1, match'.2⟩, by simpa using free, ?_⟩
    simp [Bcache.set]
  next absent =>
    have nowhere : ∀ a, ¬Caches cache a n := by
      intro a cached
      have miss := List.find?_eq_none.mp absent a (sound.listed a)
      simp [cached.dev, cached.blockno] at miss
    split at done
    next b found =>
      have idle := List.find?_some found
      simp only [decide_eq_true_eq] at idle
      obtain ⟨locked, taken, rfl⟩ := Option.map_eq_some_iff.mp done
      simp only [acquiresleep, Option.ite_none_right_eq_some, Option.some.injEq] at taken
      obtain ⟨free, rfl⟩ := taken
      refine Or.inr ⟨nowhere, idle, ?_⟩
      simp [Bcache.set]
    next => cases done

theorem set_set (cache : Bcache β) (b : Handle) (entry entry' : Buf β) :
    (cache.set b entry).set b entry' = cache.set b entry' := by
  simp [Bcache.set]

variable (sound : Sound cache view pinned)
include sound

/-- `bread` returns the block locked, with the contents it should have; locked buffers stay. -/
theorem bread_sound (clean : ∀ m, m ∉ pinned → view m = disk m)
    (read : bread disk cache t ROOTDEV n = some (b, after)) :
    Sound after view pinned ∧ Holds after t b n (view n) ∧
    ∀ a, (cache.buf a).lock ≠ none → a ≠ b ∧ after.buf a = cache.buf a := by
  obtain ⟨⟨b', got⟩, taken, done⟩ := Option.map_eq_some_iff.mp read
  have frame : ∀ entry : Buf β, (cache.buf b').lock = none →
      ∀ a, (cache.buf a).lock ≠ none → a ≠ b' ∧ (cache.set b' entry).buf a = cache.buf a := by
    intro entry free a locked
    have other : a ≠ b' := by
      rintro rfl
      exact locked free
    exact ⟨other, by simp [other]⟩
  have count := sound.counted b'
  dsimp only at done
  rcases bget_cases taken sound with ⟨cached, free, state⟩ | ⟨nowhere, idle, state⟩
  · -- the block is cached
    have refcnt : (cache.buf b').refcnt + 1 = 1 + if n ∈ pinned then 1 else 0 := by
      rw [count, references, if_pos free, cached.blockno]
      simp only [cached.dev, true_and]
      omega
    have only : ∀ a, Caches cache a n → a = b' := fun a other => sound.unique a b' n other cached
    have loose : ∀ m, Caches cache b' m → m ≠ n → m ∉ pinned := fun m same other =>
      absurd (same.blockno.symm.trans cached.blockno) other
    have number : (cache.buf b').blockno = n := cached.blockno
    rw [show got = _ from state, set_set] at done
    simp only [Bcache.set_buf, update_self, number] at done
    by_cases filled : (cache.buf b').valid = true
    · rw [if_pos filled] at done
      obtain ⟨rfl, rfl⟩ := Prod.mk.inj done
      obtain ⟨kept, holds⟩ := sound.load (b := b') ⟨(cache.buf b').dev, n, (cache.buf b').valid,
        (cache.buf b').refcnt + 1, some t, (cache.buf b').data⟩ cached.dev rfl (sound.content b' n cached filled) rfl
        refcnt filled only loose
      exact ⟨kept, holds, frame _ free⟩
    · rw [if_neg filled] at done
      obtain ⟨rfl, rfl⟩ := Prod.mk.inj done
      have unpinned : n ∉ pinned := by
        intro mem
        obtain ⟨a, same, ready⟩ := sound.kept n mem
        rw [only a same] at ready
        exact filled ready
      obtain ⟨kept, holds⟩ := sound.load ⟨(cache.buf b').dev, n, true, (cache.buf b').refcnt + 1, some t, disk n⟩
        cached.dev rfl (clean n unpinned).symm rfl refcnt rfl only loose
      exact ⟨kept, holds, frame _ free⟩
  · -- an unreferenced buffer is recycled
    have unpinned : n ∉ pinned := by
      intro mem
      obtain ⟨a, same, -⟩ := sound.kept n mem
      exact nowhere a same
    rw [show (cache.buf b').refcnt = 0 from idle, references] at count
    have free : (cache.buf b').lock = none := by
      by_contra locked
      rw [if_neg locked] at count
      omega
    have loose : ∀ m, Caches cache b' m → m ≠ n → m ∉ pinned := by
      intro m same _ mem
      simp [same.dev, same.blockno, mem] at count
    rw [show got = _ from state, set_set] at done
    simp only [Bcache.set_buf, update_self] at done
    obtain ⟨rfl, rfl⟩ := Prod.mk.inj done
    obtain ⟨kept, holds⟩ := sound.load (b := b') ⟨ROOTDEV, n, true, 1, some t, disk n⟩ rfl rfl
      (clean n unpinned).symm rfl (by simp [unpinned]) rfl (fun a same => absurd same (nowhere a)) loose
    exact ⟨kept, holds, frame _ free⟩

theorem Sound.revise {entry : Buf β} {view' : Nat → β} {pinned' : List Nat}
    (cached : Caches cache b n) (filled : (cache.buf b).valid = true)
    (identity : entry.dev = ROOTDEV ∧ entry.blockno = n ∧ entry.valid = true) (data : entry.data = view' n)
    (refcnt : entry.refcnt = references (cache.set b entry) pinned' b)
    (contents : ∀ m, m ≠ n → view' m = view m) (pins : ∀ m, m ≠ n → (m ∈ pinned' ↔ m ∈ pinned)) :
    Sound (cache.set b entry) view' pinned' := by
  obtain ⟨dev, blockno, valid⟩ := identity
  have same : ∀ a m, Caches (cache.set b entry) a m ↔ Caches cache a m := by
    intro a m
    rw [caches_set]
    split
    next here =>
      rw [here]
      exact ⟨fun found => ⟨cached.dev, by rw [cached.blockno, ← found.2, blockno]⟩,
        fun found => ⟨dev, by rw [blockno, ← found.blockno, cached.blockno]⟩⟩
    next => exact Iff.rfl
  have apart : ∀ a m, Caches cache a m → a ≠ b → m ≠ n := by
    rintro a m found other rfl
    exact other (sound.unique a b m found cached)
  constructor
  · exact sound.listed
  · intro a a' m first second
    exact sound.unique a a' m ((same a m).mp first) ((same a' m).mp second)
  · intro a m found ready
    rw [same] at found
    by_cases here : a = b
    · subst here
      rw [Bcache.set_buf, update_self, data, ← found.blockno, cached.blockno]
    · simp only [Bcache.set_buf, update_of_ne here] at ready ⊢
      rw [contents m (apart a m found here)]
      exact sound.content a m found ready
  · intro a
    by_cases here : a = b
    · subst here
      simpa using refcnt
    have count := sound.counted a
    simp only [references, Bcache.set_buf, update_of_ne here] at count ⊢
    rw [count]
    by_cases rooted : (cache.buf a).dev = ROOTDEV
    · have other := apart a _ ⟨rooted, rfl⟩ here
      simp only [pins _ other]
    · simp only [rooted, false_and]
  · intro m mem
    by_cases here : m = n
    · subst here
      exact ⟨b, (same b m).mpr cached, by simp [valid]⟩
    obtain ⟨a, found, ready⟩ := sound.kept m ((pins m here).mp mem)
    have other : a ≠ b := by
      rintro rfl
      exact here (found.blockno.symm.trans cached.blockno)
    exact ⟨a, (same a m).mpr found, by simpa [other] using ready⟩
  · intro a locked
    by_cases here : a = b
    · subst here
      simp [dev, valid]
    · simp only [Bcache.set_buf, update_of_ne here] at locked ⊢
      exact sound.filled a locked

theorem Sound.reorder {order : List Handle} (complete : ∀ a, a ∈ order) :
    Sound { cache with order := order } view pinned where
  listed := complete
  unique a a' m first second := sound.unique a a' m ⟨first.dev, first.blockno⟩ ⟨second.dev, second.blockno⟩
  content a m found := sound.content a m ⟨found.dev, found.blockno⟩
  counted := sound.counted
  kept m mem := by
    obtain ⟨a, found, ready⟩ := sound.kept m mem
    exact ⟨a, ⟨found.dev, found.blockno⟩, ready⟩
  filled := sound.filled

theorem Sound.holds (locked : (cache.buf b).lock = some t) :
    Holds cache t b (cache.buf b).blockno (cache.buf b).data := by
  obtain ⟨dev, valid⟩ := sound.filled b (by simp [locked])
  exact ⟨⟨dev, rfl⟩, valid, locked, rfl⟩

theorem memmove_sound {old : β} (holds : Holds cache t b n old) (data : β) :
    Sound (memmove cache b data) (update view n data) pinned ∧ Holds (memmove cache b data) t b n data := by
  have count := sound.counted b
  constructor
  · refine sound.revise holds.caches holds.valid ⟨holds.caches.dev, holds.caches.blockno, holds.valid⟩ (by simp) ?_ ?_ ?_
    · rw [count]
      simp [references]
    · exact fun m other => update_of_ne other ..
    · exact fun m other => Iff.rfl
  · exact ⟨caches_set.mpr (by rw [if_pos rfl]; exact ⟨holds.caches.dev, holds.caches.blockno⟩),
      by simp [memmove, holds.valid], by simp [memmove, holds.lock], by simp [memmove]⟩

theorem brelse_sound {data : β} (holds : Holds cache t b n data) :
    ∃ after, brelse cache t b = some after ∧ Sound after view pinned ∧
      ∀ a, a ≠ b → after.buf a = cache.buf a := by
  have count := sound.counted b
  have kept : Sound (cache.set b { cache.buf b with lock := none, refcnt := (cache.buf b).refcnt - 1 }) view pinned := by
    refine sound.revise holds.caches holds.valid ⟨holds.caches.dev, holds.caches.blockno, holds.valid⟩ ?_ ?_ ?_ ?_
    · exact sound.content b n holds.caches holds.valid
    · simp [count, references, holds.lock]
    · exact fun m other => rfl
    · exact fun m other => Iff.rfl
  simp only [brelse, holds.lock, if_true]
  split
  · refine ⟨_, rfl, kept.reorder fun a => ?_, fun a other => by simp [other]⟩
    by_cases here : a = b
    · simp [here]
    · exact List.mem_cons_of_mem _ ((List.mem_erase_of_ne here).mpr (sound.listed a))
  · exact ⟨_, rfl, kept, fun a other => by simp [other]⟩

theorem bpin_sound {data : β} (holds : Holds cache t b n data) (loose : n ∉ pinned) :
    Sound (bpin cache b) view (pinned ++ [n]) := by
  have count := sound.counted b
  refine sound.revise holds.caches holds.valid ⟨holds.caches.dev, holds.caches.blockno, holds.valid⟩ ?_ ?_ ?_ ?_
  · exact sound.content b n holds.caches holds.valid
  · simp [count, references, holds.caches.dev, holds.caches.blockno, loose]
  · exact fun m other => rfl
  · intro m other
    simp [other]

omit sound

theorem bunpin_sound {data : β} (sound : Sound cache view (n :: pinned)) (holds : Holds cache t b n data)
    (loose : n ∉ pinned) : Sound (bunpin cache b) view pinned ∧ Holds (bunpin cache b) t b n data := by
  have count := sound.counted b
  constructor
  · refine sound.revise holds.caches holds.valid ⟨holds.caches.dev, holds.caches.blockno, holds.valid⟩ ?_ ?_ ?_ ?_
    · exact sound.content b n holds.caches holds.valid
    · simp [count, references, holds.caches.dev, holds.caches.blockno, loose]
    · exact fun m other => rfl
    · intro m other
      simp [other]
  · exact ⟨caches_set.mpr (by rw [if_pos rfl]; exact ⟨holds.caches.dev, holds.caches.blockno⟩),
      by simp [bunpin, holds.valid], by simp [bunpin, holds.lock], by simp [bunpin, holds.data]⟩

end Xv6Monitor.Disk.Buffers
