import Xv6Monitor.Disk.Concurrent
import Xv6Monitor.Lib.Tally

/-! What the buffer cache guarantees in the midst of its functions: one buffer for each block, linked in both
directions, and a reference for every process that has or awaits it and for the log. -/

namespace Xv6Monitor.Disk.Holding
open Function Lib.Links Lib.Tally Process.Table Concurrent
open Buffers (NBUF ROOTDEV Handle)
open Journal (Block)

def Listed (l : Links) : Prop :=
  ∃ order : List Handle, order.Perm (List.finRange NBUF) ∧ Double none l.next l.prev (order.map some)

abbrev Caches (c : Cache) (b : Handle) (n : Nat) : Prop := (c.buf b).dev = ROOTDEV ∧ (c.buf b).blockno = n

def counts : Pc → Option Handle
  | .locking b _ => some b
  | .dropping b => some b
  | _ => none

def owned (lock : Option Slot) : Int := if lock = none then 0 else 1

def logged (pinned : List Nat) (entry : Buf) : Int := if entry.dev = ROOTDEV ∧ entry.blockno ∈ pinned then 1 else 0

/-- The references to a buffer: of processes without its lock, of the one with it, and of the log. -/
def references (c : Cache) (pinned : List Nat) (b : Handle) : Int :=
  tally (fun p => counts (c.pc p)) b + owned (c.buf b).lock + logged pinned (c.buf b)

structure Sound (c : Cache) (view : Nat → Block) (pinned : List Nat) : Prop where
  listed : Listed c.links
  devs : ∀ b, (c.buf b).dev = 0 ∨ (c.buf b).dev = ROOTDEV
  unique : ∀ a b n, Caches c a n → Caches c b n → a = b
  counted : ∀ b, ((c.buf b).refcnt : Int) = references c pinned b
  /-- Pinned blocks stay cached. -/
  kept : ∀ n ∈ pinned, ∃ b, Caches c b n ∧ (c.buf b).valid = true
  content : ∀ b n, Caches c b n → (c.buf b).valid = true → c.dirty b = false → (c.buf b).data = view n
  rooted : ∀ p b, counts (c.pc p) = some b → (c.buf b).dev = ROOTDEV
  locking : ∀ p b n, c.pc p = .locking b n → Caches c b n
  filling : ∀ p b n, c.pc p = .filling b n → Caches c b n ∧ (c.buf b).lock = some p ∧ (c.buf b).valid = false
  locked : ∀ b p, (c.buf b).lock = some p →
    (c.buf b).dev = ROOTDEV ∧ ((c.buf b).valid = true ∨ c.pc p = .filling b (c.buf b).blockno)
  dirtied : ∀ b, c.dirty b = true → (c.buf b).lock ≠ none ∧ (c.buf b).valid = true

/-- Process `p` works on the buffer `b` of block `n`, and on nothing else. -/
structure Change (c c' : Cache) (view view' : Nat → Block) (pinned pinned' : List Nat) (b : Handle) (n : Nat) (p : Slot) :
    Prop where
  bufs : ∀ a, a ≠ b → c'.buf a = c.buf a
  marks : ∀ a, a ≠ b → c'.dirty a = c.dirty a
  pcs : ∀ q, q ≠ p → c'.pc q = c.pc q
  cached : Caches c b n
  stays : Caches c' b n
  count : ((c'.buf b).refcnt : Int) = references c' pinned' b
  before : ∀ a, counts (c.pc p) = some a → a = b
  after : ∀ a, counts (c'.pc p) = some a → a = b
  alone : ∀ a m, c.pc p = .filling a m → a = b
  lock : (c'.buf b).lock = (c.buf b).lock ∨ ∀ q, (c.buf b).lock = some q → q = p
  valid : (c.buf b).valid = true → (c'.buf b).valid = true
  fresh : (c'.buf b).valid = true → (c.buf b).valid = true ∨ (c.buf b).lock = some p
  held : ∀ q, (c'.buf b).lock = some q → (c'.buf b).valid = true ∨ c'.pc q = .filling b n
  locking : ∀ a m, c'.pc p = .locking a m → a = b ∧ m = n
  filling : ∀ a m, c'.pc p = .filling a m → a = b ∧ m = n ∧ (c'.buf b).lock = some p ∧ (c'.buf b).valid = false
  content : (c'.buf b).valid = true → c'.dirty b = false → (c'.buf b).data = view' n
  views : ∀ m, m ≠ n → view' m = view m
  pins : ∀ m, m ≠ n → (m ∈ pinned' ↔ m ∈ pinned)
  pinned : n ∈ pinned' → (c'.buf b).valid = true
  dirty : c'.dirty b = true → (c'.buf b).lock ≠ none ∧ (c'.buf b).valid = true

section Links

variable {l : Links} {b : Handle}

theorem mem_order {order : List Handle} (all : order.Perm (List.finRange NBUF)) (b : Handle) : b ∈ order :=
  all.mem_iff.mpr (List.mem_finRange b)

theorem search_eq {next : Node → Node} {order : List Handle} (wanted : Handle → Bool)
    (ring : Ring next (none :: order.map some)) (all : order.Perm (List.finRange NBUF)) :
    search next wanted = order.find? wanted := by
  have trail : Trail next (none :: order.map some) none := ring
  have length : (order.map some).length < NBUF + 1 := by
    rw [List.length_map, all.length_eq]
    exact Nat.lt_succ_self _
  have ends : (none : Node).all wanted = true := rfl
  have walked := walk_find trail.2 ends length
  rw [List.find?_map] at walked
  unfold search
  rw [trail.1, walked]
  change some ((Option.map some (order.find? wanted)).getD none) >>= id = order.find? wanted
  cases order.find? wanted <;> rfl

theorem unlink_eq (l : Links) (b : Handle) : l.unlink b =
    ⟨update l.next (l.prev b) (l.next b), update l.prev (l.next b) (l.prev b)⟩ := by
  have same : update l.prev (l.next b) (l.prev b) b = l.prev b := by
    by_cases loop : some b = l.next b
    · rw [← loop, update_self]
    · rw [update_of_ne loop]
  unfold Links.unlink
  dsimp only
  rw [same]

theorem double_push {order : List Handle} (double : Double none l.next l.prev (order.map some)) (fresh : b ∉ order) :
    Double none (l.push b).next (l.push b).prev ((b :: order).map some) := by
  refine double.push ?_
  simpa using fresh

theorem listed_binit : Listed binit.links := by
  have loop : ∀ (bs order : List Handle) (l : Links), (bs ++ order).Nodup → Double none l.next l.prev (order.map some) →
      Double none (bs.foldl Links.push l).next (bs.foldl Links.push l).prev ((bs.reverse ++ order).map some) := by
    intro bs
    induction bs with
    | nil => exact fun order l _ double => double
    | cons b bs ih =>
      intro order l nodup double
      have fresh : b ∉ order := fun mem => (List.nodup_cons.mp nodup).1 (List.mem_append_right _ mem)
      have rest : (bs ++ b :: order).Nodup := (List.perm_middle.nodup_iff).mpr nodup
      rw [List.reverse_cons, List.append_assoc]
      exact ih (b :: order) (l.push b) rest (double_push double fresh)
  have empty : Double (none : Node) (fun _ => none) (fun _ => none) (([] : List Handle).map some) :=
    ⟨⟨rfl, trivial⟩, ⟨rfl, trivial⟩, List.nodup_singleton _⟩
  have whole := loop (List.finRange NBUF) [] ⟨fun _ => none, fun _ => none⟩
    (by rw [List.append_nil]; exact List.nodup_finRange _) empty
  exact ⟨_, List.reverse_perm _, whole⟩

theorem listed_requeue (listed : Listed l) (b : Handle) : Listed ((l.unlink b).push b) := by
  obtain ⟨_, all, double⟩ := listed
  obtain ⟨us, vs, rfl⟩ := List.append_of_mem (mem_order all b)
  have nodup : (b :: (us ++ vs)).Nodup :=
    (List.perm_middle.nodup_iff).mp (all.nodup_iff.mpr (List.nodup_finRange _))
  have removed : Double none (l.unlink b).next (l.unlink b).prev ((us ++ vs).map some) := by
    rw [List.map_append] at double
    rw [unlink_eq, List.map_append]
    exact double.unlink
  exact ⟨b :: (us ++ vs), List.perm_middle.symm.trans all, double_push removed (List.nodup_cons.mp nodup).1⟩

end Links

theorem owned_nonneg (lock : Option Slot) : 0 ≤ owned lock := by
  unfold owned
  split <;> omega

theorem logged_nonneg (pinned : List Nat) (entry : Buf) : 0 ≤ logged pinned entry := by
  unfold logged
  split <;> omega

section Changes

variable {c c' : Cache} {view view' : Nat → Block} {pinned pinned' : List Nat} {b : Handle} {n : Nat} {p : Slot}

theorem tally_change (pcs : ∀ q, q ≠ p → c'.pc q = c.pc q) (a : Handle) : tally (fun q => counts (c'.pc q)) a =
    tally (fun q => counts (c.pc q)) a - token (counts (c.pc p)) a + token (counts (c'.pc p)) a := by
  have moved : (fun q => counts (c'.pc q)) = update (fun q => counts (c.pc q)) p (counts (c'.pc p)) := by
    funext q
    by_cases mine : q = p
    · rw [mine, update_self]
    · rw [update_of_ne mine, pcs q mine]
  rw [moved, tally_update]
  rfl

theorem token_other {key : Option Handle} {a : Handle} (only : ∀ e, key = some e → e = b) (other : a ≠ b) : token key a = 0 := by
  cases key with
  | none => rfl
  | some e =>
    obtain rfl := only e rfl
    rw [token_some, Pi.single_eq_of_ne other]

theorem Change.caches (change : Change c c' view view' pinned pinned' b n p) (a : Handle) (m : Nat) :
    Caches c' a m ↔ Caches c a m := by
  by_cases here : a = b
  · rw [here]
    exact ⟨fun ⟨_, number⟩ => ⟨change.cached.1, by rw [change.cached.2, ← number, change.stays.2]⟩,
      fun ⟨_, number⟩ => ⟨change.stays.1, by rw [change.stays.2, ← number, change.cached.2]⟩⟩
  · unfold Caches
    rw [change.bufs a here]

variable (sound : Sound c view pinned)
include sound

theorem Sound.change (change : Change c c' view view' pinned pinned' b n p)
    (listed : Listed c'.links) : Sound c' view' pinned' := by
  have apart : ∀ a m, Caches c a m → a ≠ b → m ≠ n := by
    rintro a m found other rfl
    exact other (sound.unique a b m found change.cached)
  have caches := change.caches
  refine ⟨listed, ?_, ?_, ?_, ?_, ?_, ?_, ?_, ?_, ?_, ?_⟩
  · intro a
    by_cases here : a = b
    · rw [here]
      exact Or.inr change.stays.1
    · rw [change.bufs a here]
      exact sound.devs a
  · intro a a' m first second
    exact sound.unique a a' m ((caches a m).mp first) ((caches a' m).mp second)
  · intro a
    by_cases here : a = b
    · rw [here]
      exact change.count
    have count := sound.counted a
    unfold references at count ⊢
    have pins : logged pinned' (c.buf a) = logged pinned (c.buf a) := by
      refine if_congr (and_congr_right fun rooted => change.pins _ ?_) rfl rfl
      exact apart a _ ⟨rooted, rfl⟩ here
    rw [tally_change change.pcs, token_other change.before here, token_other change.after here, change.bufs a here, count,
      pins, sub_zero, add_zero]
  · intro m mem
    by_cases here : m = n
    · rw [here] at mem ⊢
      exact ⟨b, change.stays, change.pinned mem⟩
    obtain ⟨a, found, ready⟩ := sound.kept m ((change.pins m here).mp mem)
    have other : a ≠ b := by
      rintro rfl
      exact here (found.2.symm.trans change.cached.2)
    exact ⟨a, (caches a m).mpr found, by rw [change.bufs a other]; exact ready⟩
  · intro a m found ready settled
    rw [caches] at found
    by_cases here : a = b
    · subst here
      rw [← found.2, change.cached.2]
      exact change.content ready settled
    · rw [change.bufs a here] at ready ⊢
      rw [change.marks a here] at settled
      rw [change.views m (apart a m found here)]
      exact sound.content a m found ready settled
  · intro q a counted
    by_cases here : a = b
    · rw [here]
      exact change.stays.1
    have other : q ≠ p := by
      rintro rfl
      exact here (change.after a counted)
    rw [change.pcs q other] at counted
    rw [change.bufs a here]
    exact sound.rooted q a counted
  · intro q a m waits
    rw [caches]
    by_cases mine : q = p
    · rw [mine] at waits
      obtain ⟨rfl, rfl⟩ := change.locking a m waits
      exact change.cached
    · rw [change.pcs q mine] at waits
      exact sound.locking q a m waits
  · intro q a m reads
    rw [caches]
    by_cases mine : q = p
    · rw [mine] at reads ⊢
      obtain ⟨rfl, rfl, locked, invalid⟩ := change.filling a m reads
      exact ⟨change.cached, locked, invalid⟩
    rw [change.pcs q mine] at reads
    obtain ⟨found, locked, invalid⟩ := sound.filling q a m reads
    refine ⟨found, ?_⟩
    by_cases here : a = b
    · subst here
      constructor
      · rcases change.lock with same | only
        · rw [same]
          exact locked
        · exact absurd (only q locked) mine
      · by_contra ready
        rcases change.fresh (by simpa using ready) with was | owner
        · rw [was] at invalid
          exact nomatch invalid
        · exact mine (Option.some.inj (locked.symm.trans owner))
    · rw [change.bufs a here]
      exact ⟨locked, invalid⟩
  · intro a q locked
    by_cases here : a = b
    · subst here
      rw [change.stays.2]
      exact ⟨change.stays.1, change.held q locked⟩
    rw [change.bufs a here] at locked ⊢
    obtain ⟨rooted, state⟩ := sound.locked a q locked
    refine ⟨rooted, state.imp_right fun reads => ?_⟩
    have other : q ≠ p := by
      rintro rfl
      exact here (change.alone a _ reads)
    rw [change.pcs q other]
    exact reads
  · intro a dirty
    by_cases here : a = b
    · subst here
      exact change.dirty dirty
    · rw [change.marks a here] at dirty
      rw [change.bufs a here]
      exact sound.dirtied a dirty

def Keeps (c c' : Cache) (p : Slot) : Prop := ∀ a, (c.buf a).lock = some p → (c.buf a).valid = true →
  c'.dirty a = c.dirty a ∧ ∃ refcnt, c'.buf a = { c.buf a with refcnt := refcnt }

theorem Sound.move {r : Nat} {lock : Option Slot} {pc : Pc} {links : Links} (cached : Caches c b n)
    (listed : Listed links)
    (count : (r : Int) + token (counts (c.pc p)) b + owned (c.buf b).lock = (c.buf b).refcnt + token (counts pc) b + owned lock)
    (before : ∀ a, counts (c.pc p) = some a → a = b) (after : ∀ a, counts pc = some a → a = b)
    (alone : ∀ a m, c.pc p = .filling a m → a = b)
    (owner : lock = (c.buf b).lock ∨ ∀ q, (c.buf b).lock = some q → q = p)
    (held : ∀ q, lock = some q → (c.buf b).valid = true ∨ update c.pc p pc q = .filling b n)
    (locking : ∀ a m, pc = .locking a m → a = b ∧ m = n)
    (filling : ∀ a m, pc = .filling a m → a = b ∧ m = n ∧ lock = some p ∧ (c.buf b).valid = false)
    (dirty : c.dirty b = true → lock ≠ none) :
    Sound (({ c with links := links }.put b { c.buf b with refcnt := r, lock := lock }).goto p pc) view pinned := by
  have entry : (({ c with links := links }.put b { c.buf b with refcnt := r, lock := lock }).goto p pc).buf b =
      { c.buf b with refcnt := r, lock := lock } := update_self ..
  have place : (({ c with links := links }.put b { c.buf b with refcnt := r, lock := lock }).goto p pc).pc p = pc :=
    update_self ..
  have pcs : ∀ q, q ≠ p → (({ c with links := links }.put b { c.buf b with refcnt := r, lock := lock }).goto p pc).pc q =
      c.pc q := fun q other => update_of_ne other ..
  refine sound.change (b := b) (n := n) (p := p) {
    bufs := fun a other => update_of_ne other ..
    marks := fun a _ => rfl
    pcs := pcs
    cached := cached
    stays := by rw [Caches, entry]; exact cached
    count := ?_
    before := before
    after := by rw [place]; exact after
    alone := alone
    lock := by rw [entry]; exact owner
    valid := by rw [entry]; exact id
    fresh := by rw [entry]; exact Or.inl
    held := by rw [entry]; exact held
    locking := by rw [place]; exact locking
    filling := by rw [place, entry]; exact filling
    content := by rw [entry]; exact sound.content b n cached
    views := fun m _ => rfl
    pins := fun m _ => Iff.rfl
    pinned := ?_
    dirty := ?_ } listed
  · have old := sound.counted b
    unfold references at old ⊢
    rw [tally_change pcs, place, entry]
    change (r : Int) = _ + owned lock + logged pinned (c.buf b)
    omega
  · intro mem
    obtain ⟨a, same, valid⟩ := sound.kept n mem
    rw [sound.unique a b n same cached] at valid
    rw [entry]
    exact valid
  · intro marked
    rw [entry]
    exact ⟨dirty marked, (sound.dirtied b marked).2⟩

theorem Sound.rewrite (entry : Buf) (marked : Bool) (view' : Nat → Block) (pinned' : List Nat)
    (cached : Caches c b n) (locked : (c.buf b).lock = some p) (uncounted : counts (c.pc p) = none)
    (alone : ∀ a m, c.pc p = .filling a m → a = b) (dev : entry.dev = ROOTDEV) (blockno : entry.blockno = n) (lock : entry.lock = some p)
    (valid : entry.valid = true) (count : (entry.refcnt : Int) + logged pinned (c.buf b) = (c.buf b).refcnt + logged pinned' entry)
    (content : marked = false → entry.data = view' n) (views : ∀ m, m ≠ n → view' m = view m)
    (pins : ∀ m, m ≠ n → (m ∈ pinned' ↔ m ∈ pinned)) :
    Sound (((c.put b entry).goto p .ready).mark b marked) view' pinned' := by
  have self : (((c.put b entry).goto p .ready).mark b marked).buf b = entry := update_self ..
  have place : (((c.put b entry).goto p .ready).mark b marked).pc p = .ready :=
    update_self ..
  have mark : (((c.put b entry).goto p .ready).mark b marked).dirty b = marked := update_self ..
  have pcs : ∀ q, q ≠ p → (((c.put b entry).goto p .ready).mark b marked).pc q = c.pc q :=
    fun q other => update_of_ne other ..
  refine sound.change (b := b) (n := n) (p := p) {
    bufs := fun a other => update_of_ne other ..
    marks := fun a other => update_of_ne other ..
    pcs := pcs
    cached := cached
    stays := by rw [Caches, self]; exact ⟨dev, blockno⟩
    count := ?_
    before := by rw [uncounted]; exact nofun
    after := by rw [place]; exact nofun
    alone := alone
    lock := by rw [self, lock, locked]; exact Or.inl rfl
    valid := by rw [self]; exact fun _ => valid
    fresh := fun _ => Or.inr locked
    held := by rw [self]; exact fun _ _ => Or.inl valid
    locking := by rw [place]; exact nofun
    filling := by rw [place]; exact nofun
    content := by rw [self, mark]; exact fun _ => content
    views := views
    pins := pins
    pinned := by rw [self]; exact fun _ => valid
    dirty := by rw [self, lock]; exact fun _ => ⟨Option.some_ne_none p, valid⟩ } sound.listed
  have old := sound.counted b
  unfold references at old ⊢
  rw [tally_change pcs, place, self, uncounted, lock]
  rw [locked] at old
  change (entry.refcnt : Int) = _ - 0 + 0 + _ + _
  omega

theorem Sound.ready (locked : (c.buf b).lock = some p) (ready : c.pc p = .ready) :
    Caches c b (c.buf b).blockno ∧ (c.buf b).valid = true := by
  obtain ⟨rooted, state⟩ := sound.locked b p locked
  refine ⟨⟨rooted, rfl⟩, state.resolve_right fun reads => ?_⟩
  rw [ready] at reads
  exact nomatch reads

theorem Sound.idle_free (idle : (c.buf b).refcnt = 0) :
    (c.buf b).lock = none ∧ (∀ m, Caches c b m → m ∉ pinned) ∧ ∀ q, counts (c.pc q) ≠ some b := by
  have count := sound.counted b
  have waiting := tally_nonneg (fun q => counts (c.pc q)) b
  have locks := owned_nonneg (c.buf b).lock
  have pins := logged_nonneg pinned (c.buf b)
  rw [references] at count
  refine ⟨?_, ?_, ?_⟩
  · by_contra locked
    have lock : owned (c.buf b).lock = 1 := if_neg locked
    omega
  · intro m cached mem
    have pin : logged pinned (c.buf b) = 1 := if_pos ⟨cached.1, cached.2 ▸ mem⟩
    omega
  · intro q counted
    have positive : 0 < tally (fun q => counts (c.pc q)) b := tally_pos counted
    omega

end Changes

end Xv6Monitor.Disk.Holding
