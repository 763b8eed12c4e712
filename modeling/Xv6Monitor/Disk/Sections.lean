import Xv6Monitor.Disk.Holding

/-! Each section of `bread`, `brelse` and the functions that work on a locked buffer keeps the cache in order, and
leaves what other processes have locked. -/

namespace Xv6Monitor.Disk.Sections
open Function Lib.Links Lib.Tally Process.Table Concurrent Holding
open Buffers (NBUF ROOTDEV Handle)
open Journal (Block)

variable {c c' : Cache} {view view' : Nat → Block} {pinned pinned' : List Nat} {b : Handle} {n : Nat} {p : Slot}

/-- `bget` finds the buffer of the block, or one that nobody refers to, or nothing. -/
theorem bget_cases (sound : Sound c view pinned) (p : Slot) (n : Nat) : (∃ b, Caches c b n ∧ c.bget p n =
      some (b, (c.put b { c.buf b with refcnt := (c.buf b).refcnt + 1 }).goto p (.locking b n))) ∨
    ((∀ a, ¬Caches c a n) ∧ ∃ b, (c.buf b).refcnt = 0 ∧ c.bget p n = some (b, (c.put b
      { c.buf b with dev := ROOTDEV, blockno := n, valid := false, refcnt := 1 }).goto p (.locking b n))) ∨
    ((∀ a, ¬Caches c a n) ∧ (∀ a, (c.buf a).refcnt ≠ 0) ∧ c.bget p n = none) := by
  obtain ⟨order, all, double⟩ := sound.listed
  have back : Ring c.links.prev (none :: order.reverse.map some) := by
    rw [List.map_reverse]
    exact double.back
  have turned : order.reverse.Perm (List.finRange NBUF) := (List.reverse_perm order).trans all
  unfold Cache.bget
  rw [search_eq _ double.forth all, search_eq _ back turned]
  cases hit : order.find? fun b => (c.buf b).dev = ROOTDEV ∧ (c.buf b).blockno = n with
  | some b =>
    have found := List.find?_some hit
    exact Or.inl ⟨b, of_decide_eq_true found, rfl⟩
  | none =>
    have nowhere : ∀ a, ¬Caches c a n := by
      intro a cached
      exact List.find?_eq_none.mp hit a (mem_order all a) (decide_eq_true cached)
    cases free : order.reverse.find? fun b => (c.buf b).refcnt = 0 with
    | some b =>
      have found := List.find?_some free
      exact Or.inr (Or.inl ⟨nowhere, b, of_decide_eq_true found, rfl⟩)
    | none =>
      refine Or.inr (Or.inr ⟨nowhere, fun a idle => ?_, rfl⟩)
      exact List.find?_eq_none.mp free a (mem_order turned a) (decide_eq_true idle)

theorem keeps_put {entry : Buf} (bufs : c'.buf = update c.buf b entry) (marks : c'.dirty = c.dirty)
    (refcnt : (c.buf b).lock ≠ none → entry = { c.buf b with refcnt := entry.refcnt }) (q : Slot) : Keeps c c' q := by
  intro a locked _
  rw [bufs, marks]
  refine ⟨rfl, ?_⟩
  by_cases here : a = b
  · subst here
    refine ⟨entry.refcnt, ?_⟩
    rw [update_self]
    exact refcnt (by rw [locked]; exact Option.some_ne_none q)
  · exact ⟨(c.buf a).refcnt, update_of_ne here ..⟩

theorem caches_put {entry : Buf} {pc : Pc} {a : Handle} {m : Nat} : Caches ((c.put b entry).goto p pc) a m ↔
    if a = b then entry.dev = ROOTDEV ∧ entry.blockno = m else Caches c a m := by
  unfold Caches
  by_cases here : a = b
  · subst here
    rw [if_pos rfl, Cache.goto_buf, Cache.put_buf, update_self]
  · rw [if_neg here, Cache.goto_buf, Cache.put_buf, update_of_ne here]

variable (sound : Sound c view pinned)
include sound

theorem recycle_sound (ready : c.pc p = .ready) (nowhere : ∀ a, ¬Caches c a n)
    (idle : (c.buf b).refcnt = 0) : Sound ((c.put b
      { c.buf b with dev := ROOTDEV, blockno := n, valid := false, refcnt := 1 }).goto p (.locking b n)) view pinned := by
  obtain ⟨free, unpinned, uncounted⟩ := sound.idle_free idle
  have loose : n ∉ pinned := by
    intro mem
    obtain ⟨a, cached, -⟩ := sound.kept n mem
    exact nowhere a cached
  have pcs : ∀ q, q ≠ p → ((c.put b { c.buf b with dev := ROOTDEV, blockno := n, valid := false, refcnt := 1 }).goto p
      (.locking b n)).pc q = c.pc q := fun q other => update_of_ne other ..
  have buf : ∀ a, a ≠ b → ((c.put b { c.buf b with dev := ROOTDEV, blockno := n, valid := false, refcnt := 1 }).goto p
      (.locking b n)).buf a = c.buf a := fun a other => update_of_ne other ..
  refine ⟨sound.listed, ?_, ?_, ?_, ?_, ?_, ?_, ?_, ?_, ?_, ?_⟩
  · intro a
    by_cases here : a = b
    · subst here
      exact Or.inr (by simp)
    · rw [buf a here]
      exact sound.devs a
  · intro a a' m first second
    rw [caches_put] at first second
    split at first <;> split at second
    · simp_all
    next here there =>
      rw [← first.2] at second
      exact absurd second (nowhere a')
    next here there =>
      rw [← second.2] at first
      exact absurd first (nowhere a)
    · exact sound.unique a a' m first second
  · intro a
    have count := sound.counted a
    unfold references at count ⊢
    rw [tally_change pcs, ready, Cache.goto_pc, update_self]
    change _ = _ - 0 + (Pi.single b 1 : Handle → Int) a + _ + _
    by_cases here : a = b
    · subst here
      have locks := owned_nonneg (c.buf a).lock
      have pins := logged_nonneg pinned (c.buf a)
      have waits := tally_nonneg (fun q => counts (c.pc q)) a
      have gone : logged pinned { c.buf a with dev := ROOTDEV, blockno := n, valid := false, refcnt := 1 } = 0 :=
        if_neg fun both => loose both.2
      rw [Pi.single_eq_same, Cache.goto_buf, Cache.put_buf, update_self, gone]
      change ((1 : Nat) : Int) = _ - 0 + 1 + owned (c.buf a).lock + 0
      omega
    · rw [buf a here, count, Pi.single_eq_of_ne here]
      omega
  · intro m mem
    obtain ⟨a, cached, valid⟩ := sound.kept m mem
    have other : a ≠ b := by
      rintro rfl
      exact unpinned m cached mem
    refine ⟨a, caches_put.mpr ?_, ?_⟩
    · rw [if_neg other]
      exact cached
    · rw [buf a other]
      exact valid
  · intro a m cached valid settled
    rw [caches_put] at cached
    by_cases here : a = b
    · subst here
      simp at valid
    · rw [if_neg here] at cached
      rw [buf a here] at valid ⊢
      exact sound.content a m cached valid settled
  · intro q a counted
    by_cases mine : q = p
    · rw [mine, Cache.goto_pc, update_self] at counted
      obtain rfl := Option.some.inj counted
      rw [Cache.goto_buf, Cache.put_buf, update_self]
    rw [pcs q mine] at counted
    have other : a ≠ b := by
      rintro rfl
      exact uncounted q counted
    rw [buf a other]
    exact sound.rooted q a counted
  · intro q a m waits
    rw [caches_put]
    by_cases mine : q = p
    · rw [mine, Cache.goto_pc, update_self] at waits
      cases waits
      rw [if_pos rfl]
      exact ⟨rfl, rfl⟩
    · rw [pcs q mine] at waits
      have other : a ≠ b := by
        rintro rfl
        exact uncounted q (by rw [waits]; rfl)
      rw [if_neg other]
      exact sound.locking q a m waits
  · intro q a m reads
    rw [caches_put]
    by_cases mine : q = p
    · rw [mine, Cache.goto_pc, update_self] at reads
      exact nomatch reads
    rw [pcs q mine] at reads
    obtain ⟨cached, locked, invalid⟩ := sound.filling q a m reads
    have other : a ≠ b := by
      rintro rfl
      exact nomatch free.symm.trans locked
    rw [if_neg other, buf a other]
    exact ⟨cached, locked, invalid⟩
  · intro a q locked
    by_cases here : a = b
    · rw [here, Cache.goto_buf, Cache.put_buf, update_self] at locked
      exact nomatch free.symm.trans locked
    rw [buf a here] at locked ⊢
    obtain ⟨rooted, state⟩ := sound.locked a q locked
    refine ⟨rooted, state.imp_right fun reads => ?_⟩
    have other : q ≠ p := by
      rintro rfl
      exact nomatch ready.symm.trans reads
    rw [pcs q other]
    exact reads
  · intro a dirty
    have before := sound.dirtied a dirty
    have other : a ≠ b := by
      rintro rfl
      exact before.1 free
    rw [buf a other]
    exact before

theorem bget_sound (ready : c.pc p = .ready) (got : c.bget p n = some (b, c')) :
    Sound c' view pinned ∧ Caches c' b n ∧ c'.pc p = .locking b n ∧ (∀ q, q ≠ p → c'.pc q = c.pc q) ∧ ∀ q, Keeps c c' q := by
  rcases bget_cases sound p n with ⟨b', cached, state⟩ | ⟨nowhere, b', idle, state⟩ | ⟨-, -, none⟩
  · obtain ⟨rfl, rfl⟩ := Prod.mk.inj (Option.some.inj (got.symm.trans state))
    refine ⟨?_, ?_, update_self .., fun q other => update_of_ne other .., keeps_put rfl rfl fun _ => rfl⟩
    · have alone : ∀ a m, c.pc p = .filling a m → a = b := by rw [ready]; rintro _ _ ⟨⟩
      refine sound.move cached sound.listed ?_ (by rw [ready]; rintro _ ⟨⟩) ?_ alone (Or.inl rfl) ?_ ?_ (by rintro _ _ ⟨⟩) ?_
      · rw [ready]
        simp only [counts, token_none, token_some, Pi.zero_apply, Pi.single_eq_same]
        omega
      · exact fun a same => (Option.some.inj same).symm
      · intro q locked
        obtain ⟨-, state⟩ := sound.locked b q locked
        refine state.imp_right fun reads => ?_
        have other : q ≠ p := by
          rintro rfl
          cases ready.symm.trans reads
        rw [update_of_ne other, reads, cached.2]
      · rintro a m ⟨⟩
        exact ⟨rfl, rfl⟩
      · exact fun marked => (sound.dirtied b marked).1
    · exact caches_put.mpr (by rw [if_pos rfl]; exact cached)
  · obtain ⟨rfl, rfl⟩ := Prod.mk.inj (Option.some.inj (got.symm.trans state))
    refine ⟨recycle_sound sound ready nowhere idle, ?_, update_self .., fun q other => update_of_ne other ..,
      keeps_put rfl rfl ?_⟩
    · exact caches_put.mpr (by rw [if_pos rfl]; exact ⟨rfl, rfl⟩)
    · intro locked
      exact absurd (sound.idle_free idle).1 locked
  · cases got.symm.trans none

theorem acquiresleep_sound (done : c.acquiresleep p = some c') :
    Sound c' view pinned ∧ (∀ q, q ≠ p → c'.pc q = c.pc q) ∧ (∀ q, Keeps c c' q) ∧ ∃ b n, c.pc p = .locking b n ∧
      Caches c' b n ∧ (c'.buf b).lock = some p ∧ c'.dirty b = false ∧
      (c'.pc p = .ready ∧ (c'.buf b).valid = true ∨ c'.pc p = .filling b n) := by
  unfold Cache.acquiresleep at done
  cases place : c.pc p with
  | locking b n =>
    rw [place] at done
    dsimp only at done
    by_cases free : (c.buf b).lock = none
    · rw [if_pos free] at done
      obtain rfl := Option.some.inj done
      have cached := sound.locking p b n place
      have settled : c.dirty b = false := by
        by_contra dirty
        exact (sound.dirtied b (by simpa using dirty)).1 free
      have uncounted : counts (if (c.buf b).valid = true then .ready else .filling b n) = none := by
        split <;> rfl
      have entry : ((c.put b { c.buf b with lock := some p }).goto p
          (if (c.buf b).valid = true then .ready else .filling b n)).buf b = { c.buf b with lock := some p } :=
        update_self ..
      refine ⟨?_, fun q other => update_of_ne other .., keeps_put rfl rfl fun locked => absurd free locked, b, n, rfl, ?_⟩
      · have alone : ∀ a m, c.pc p = .filling a m → a = b := by rw [place]; rintro _ _ ⟨⟩
        have before : ∀ a, counts (c.pc p) = some a → a = b := by
          rw [place]
          exact fun a same => (Option.some.inj same).symm
        refine sound.move cached sound.listed ?_ before (by rw [uncounted]; rintro _ ⟨⟩) alone (Or.inr ?_) ?_ ?_ ?_ ?_
        · rw [place, uncounted, free]
          change (_ : Int) + (Pi.single b 1 : Handle → Int) b + 0 = _ + 0 + 1
          rw [Pi.single_eq_same, add_zero, add_zero]
        · rw [free]
          rintro _ ⟨⟩
        · intro q taken
          obtain rfl := Option.some.inj taken
          rw [update_self]
          by_cases valid : (c.buf b).valid = true
          · exact Or.inl valid
          · rw [if_neg valid]
            exact Or.inr rfl
        · intro a m waits
          split at waits <;> cases waits
        · intro a m reads
          by_cases valid : (c.buf b).valid = true
          · rw [if_pos valid] at reads
            cases reads
          · rw [if_neg valid] at reads
            cases reads
            exact ⟨rfl, rfl, rfl, Bool.eq_false_iff.mpr valid⟩
        · exact fun _ => Option.some_ne_none p
      · rw [Caches, entry]
        refine ⟨cached, rfl, settled, ?_⟩
        rw [Cache.goto_pc, update_self]
        by_cases valid : (c.buf b).valid = true
        · rw [if_pos valid]
          exact Or.inl ⟨rfl, valid⟩
        · rw [if_neg valid]
          exact Or.inr rfl
    · rw [if_neg free] at done
      cases done
  | _ =>
    rw [place] at done
    cases done

theorem fill_sound {disk : Nat → Block} (clean : ∀ m, m ∉ pinned → view m = disk m)
    (done : c.fill disk p = some c') : Sound c' view pinned ∧ (∀ q, q ≠ p → c'.pc q = c.pc q) ∧ (∀ q, Keeps c c' q) ∧
      ∃ b n, c.pc p = .filling b n ∧ c'.pc p = .ready ∧ Caches c' b n ∧ (c'.buf b).lock = some p ∧
      (c'.buf b).valid = true ∧ c'.dirty b = false := by
  unfold Cache.fill at done
  cases place : c.pc p with
  | filling b n =>
    rw [place] at done
    obtain rfl := Option.some.inj done
    obtain ⟨cached, locked, invalid⟩ := sound.filling p b n place
    have settled : c.dirty b = false := by
      by_contra dirty
      cases invalid.symm.trans (sound.dirtied b (by simpa using dirty)).2
    have loose : n ∉ pinned := by
      intro mem
      obtain ⟨a, same, valid⟩ := sound.kept n mem
      rw [sound.unique a b n same cached] at valid
      cases invalid.symm.trans valid
    have entry : ((c.put b { c.buf b with data := disk (c.buf b).blockno, valid := true }).goto p .ready).buf b =
        { c.buf b with data := disk (c.buf b).blockno, valid := true } := update_self ..
    refine ⟨?_, fun q other => update_of_ne other .., fun q a _ valid => ⟨rfl, (c.buf a).refcnt, ?_⟩,
      b, n, rfl, update_self .., ?_⟩
    · have alone : ∀ a m, c.pc p = .filling a m → a = b := by
        rw [place]
        rintro a m ⟨⟩
        rfl
      have filled := sound.rewrite { c.buf b with data := disk (c.buf b).blockno, valid := true } false view pinned cached
        locked (by rw [place]; rfl) alone cached.1 cached.2 locked rfl rfl (fun _ => by rw [clean n loose, ← cached.2])
        (fun m _ => rfl) fun m _ => Iff.rfl
      have same : (((c.put b { c.buf b with data := disk (c.buf b).blockno, valid := true }).goto p .ready).mark b false) =
          (c.put b { c.buf b with data := disk (c.buf b).blockno, valid := true }).goto p .ready := by
        unfold Cache.mark
        rw [← settled]
        exact congrArg _ (update_eq_self ..)
      rw [← same]
      exact filled
    · have apart : a ≠ b := by
        rintro rfl
        cases invalid.symm.trans valid
      exact update_of_ne apart ..
    · rw [Caches, entry]
      exact ⟨cached, locked, rfl, settled⟩
  | _ =>
    rw [place] at done
    cases done

theorem releasesleep_sound (ready : c.pc p = .ready) (locked : (c.buf b).lock = some p)
    (settled : c.dirty b = false) : Sound (c.releasesleep p b) view pinned := by
  obtain ⟨cached, valid⟩ := sound.ready locked ready
  have alone : ∀ a m, c.pc p = .filling a m → a = b := by rw [ready]; exact nofun
  refine sound.move cached sound.listed ?_ (by rw [ready]; exact nofun) (fun a same => (Option.some.inj same).symm) alone ?_
    nofun nofun nofun ?_
  · rw [ready, locked]
    change (_ : Int) + 0 + 1 = _ + (Pi.single b 1 : Handle → Int) b + 0
    rw [Pi.single_eq_same, add_zero, add_zero]
  · exact Or.inr fun q owner => Option.some.inj (owner.symm.trans locked)
  · rw [settled]
    exact nofun

omit sound

theorem keeps_locked {q : Slot} (bufs : ∀ a, a ≠ b → c'.buf a = c.buf a) (marks : ∀ a, a ≠ b → c'.dirty a = c.dirty a)
    (locked : (c.buf b).lock = some p) (other : q ≠ p) : Keeps c c' q := by
  intro a owner _
  have apart : a ≠ b := by
    rintro rfl
    exact other (Option.some.inj (owner.symm.trans locked))
  exact ⟨marks a apart, (c.buf a).refcnt, bufs a apart⟩

theorem drop_sound (sound : Sound c view pinned) (done : c.drop p = some c') : Sound c' view pinned ∧
    (∀ q, q ≠ p → c'.pc q = c.pc q) ∧ (∀ q, Keeps c c' q) ∧ c'.pc p = .ready := by
  unfold Cache.drop at done
  cases place : c.pc p with
  | dropping b =>
    rw [place] at done
    obtain rfl := Option.some.inj done
    have counted : counts (c.pc p) = some b := by
      rw [place]
      rfl
    have positive : 0 < (c.buf b).refcnt := by
      have waits : 0 < tally (fun q => counts (c.pc q)) b := tally_pos counted
      have locks := owned_nonneg (c.buf b).lock
      have pins := logged_nonneg pinned (c.buf b)
      have count := sound.counted b
      unfold references at count
      omega
    have listed : Listed (if (c.buf b).refcnt - 1 = 0 then (c.links.unlink b).push b else c.links) := by
      split
      · exact listed_requeue sound.listed b
      · exact sound.listed
    refine ⟨?_, fun q other => update_of_ne other .., keeps_put rfl rfl fun _ => rfl, update_self ..⟩
    have before : ∀ a, counts (c.pc p) = some a → a = b := by
      rw [counted]
      exact fun a same => (Option.some.inj same).symm
    refine sound.move ⟨sound.rooted p b counted, rfl⟩ listed ?_ before nofun (by rw [place]; exact nofun) (Or.inl rfl) ?_
      nofun nofun fun marked => (sound.dirtied b marked).1
    · rw [counted]
      change (((c.buf b).refcnt - 1 : Nat) : Int) + (Pi.single b 1 : Handle → Int) b + _ = _ + 0 + _
      rw [Pi.single_eq_same]
      omega
    intro q locked
    obtain ⟨-, state⟩ := sound.locked b q locked
    refine state.imp_right fun reads => ?_
    have other : q ≠ p := by
      rintro rfl
      exact nomatch place.symm.trans reads
    rw [update_of_ne other]
    exact reads
  | _ =>
    rw [place] at done
    exact nomatch done

theorem goto_same {pc : Pc} (same : c.pc p = pc) : c.goto p pc = c := by
  rw [← same]
  exact congrArg (fun f => { c with pc := f }) (update_eq_self ..)

variable (ready : c.pc p = .ready) (locked : (c.buf b).lock = some p)
include sound ready locked

theorem rewrite_sound (data : Block) (refcnt : Nat) (marked : Bool) (view' : Nat → Block) (pinned' : List Nat)
    (count : (refcnt : Int) + logged pinned (c.buf b) = (c.buf b).refcnt + logged pinned' (c.buf b))
    (content : marked = false → data = view' (c.buf b).blockno) (views : ∀ m, m ≠ (c.buf b).blockno → view' m = view m)
    (pins : ∀ m, m ≠ (c.buf b).blockno → (m ∈ pinned' ↔ m ∈ pinned)) :
    Sound ((c.put b { c.buf b with refcnt := refcnt, data := data }).mark b marked) view' pinned' := by
  obtain ⟨cached, valid⟩ := sound.ready locked ready
  have done := sound.rewrite { c.buf b with refcnt := refcnt, data := data } marked view' pinned' cached locked
    (by rw [ready]; rfl) (by rw [ready]; exact nofun) cached.1 rfl locked valid count content views pins
  rw [goto_same (c := c.put b _) ready] at done
  exact done

theorem memmove_sound (data : Block) :
    Sound (c.memmove b data) view pinned :=
  rewrite_sound sound ready locked data (c.buf b).refcnt true view pinned rfl nofun (fun _ _ => rfl) fun _ _ => Iff.rfl

theorem written_sound (content : (c.buf b).data = view' (c.buf b).blockno) (views : ∀ m, m ≠ (c.buf b).blockno → view' m = view m) :
    Sound (c.mark b false) view' pinned := by
  have done := rewrite_sound sound ready locked (c.buf b).data (c.buf b).refcnt false view' pinned rfl (fun _ => content) views
    fun _ _ => Iff.rfl
  have same : c.put b (c.buf b) = c := congrArg (fun f => { c with buf := f }) (update_eq_self ..)
  have shown : (c.put b (c.buf b)).mark b false = c.mark b false := by rw [same]
  rw [← shown]
  exact done

theorem logWrite_sound :
    Sound ((if (c.buf b).blockno ∈ pinned then c else c.bpin b).mark b false)
      (update view (c.buf b).blockno (c.buf b).data)
      (if (c.buf b).blockno ∈ pinned then pinned else pinned ++ [(c.buf b).blockno]) := by
  obtain ⟨cached, -⟩ := sound.ready locked ready
  have content : (c.buf b).data = update view (c.buf b).blockno (c.buf b).data (c.buf b).blockno := by
    rw [update_self]
  have views : ∀ m, m ≠ (c.buf b).blockno → update view (c.buf b).blockno (c.buf b).data m = view m :=
    fun m other => update_of_ne other ..
  by_cases old : (c.buf b).blockno ∈ pinned
  · rw [if_pos old, if_pos old]
    exact written_sound sound ready locked content views
  rw [if_neg old, if_neg old]
  refine rewrite_sound sound ready locked (c.buf b).data ((c.buf b).refcnt + 1) false _ _ ?_ (fun _ => content) views ?_
  · have before : logged pinned (c.buf b) = 0 := if_neg fun both => old both.2
    have after : logged (pinned ++ [(c.buf b).blockno]) (c.buf b) = 1 := if_pos ⟨cached.1, by simp⟩
    omega
  · intro m other
    simp [other]

theorem bunpin_sound (settled : c.dirty b = false) (pins : ∀ m, m ∈ pinned' ↔ m ∈ pinned ∧ m ≠ (c.buf b).blockno)
    (mem : (c.buf b).blockno ∈ pinned) : Sound (c.bunpin b) view pinned' := by
  obtain ⟨cached, valid⟩ := sound.ready locked ready
  have before : logged pinned (c.buf b) = 1 := if_pos ⟨cached.1, mem⟩
  have after : logged pinned' (c.buf b) = 0 := if_neg fun both => ((pins _).mp both.2).2 rfl
  have positive : 0 < (c.buf b).refcnt := by
    have count := sound.counted b
    have waits := tally_nonneg (fun q => counts (c.pc q)) b
    have locks := owned_nonneg (c.buf b).lock
    unfold references at count
    omega
  have done := rewrite_sound sound ready locked (c.buf b).data ((c.buf b).refcnt - 1) false view pinned'
    (by rw [before]; omega) (fun _ => sound.content b _ cached valid settled) (fun _ _ => rfl)
    fun m other => (pins m).trans (and_iff_left other)
  have same : (c.bunpin b).mark b false = c.bunpin b := by
    rw [← settled]
    exact congrArg (fun f => { c.bunpin b with dirty := f }) (update_eq_self ..)
  rw [← same]
  exact done

end Xv6Monitor.Disk.Sections
