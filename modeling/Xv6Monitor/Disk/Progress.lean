import Xv6Monitor.Disk.Coherence
import Mathlib.Data.List.GetD

/-! Every section of the commit keeps the invariant: the blocks go to the log, the header commits them, and they are
installed from the log while other processes read. -/

namespace Xv6Monitor.Disk.Progress
open Function Lib.Program Process.Table Concurrent Holding Sections Stages Coherence
open Buffers (NBUF ROOTDEV Handle)
open Journal (Block Log Layout readHead storeHead)

variable {layout : Layout} {s t : Sys} {recorded : Nat → Block} {w : Slot} {b l d : Handle} {n i : Nat}
  {c : Cache}

theorem Gets.has (gets : Gets c w b n) (ready : c.pc w = .ready) : Has c w b n := by
  rcases gets with waits | reads | ⟨-, has⟩
  · exact nomatch ready.symm.trans waits
  · exact nomatch ready.symm.trans reads
  · exact has

variable (inv : Coherent layout s recorded)
include inv

theorem start_not_home : ¬s.log.home s.log.start := by
  have size := inv.size
  have header := layout.header
  rintro (below | above) <;> omega

theorem logBlock_not_home (less : i < s.log.lh.length) : ¬s.log.home (logBlock s.log i) := by
  have short := inv.short
  unfold logBlock
  rintro (below | above) <;> omega

omit inv

theorem getD_mem {lh : List Nat} (less : i < lh.length) : lh.getD i 0 ∈ lh := by
  rw [List.getD_eq_getElem _ _ less]
  exact List.getElem_mem less

include inv

theorem home_entry (less : i < s.log.lh.length) : s.log.home (s.log.lh.getD i 0) :=
  inv.home _ (getD_mem less)

omit inv

theorem Has.apart {m : Nat} (first : Has c w l n) (second : Has c w d m) (other : n ≠ m) : l ≠ d := by
  rintro rfl
  exact other (first.caches.2.symm.trans second.caches.2)

include inv

theorem Has.data (has : Has s.cache w b n) :
    (s.cache.buf b).data = view s.log s.disk recorded n := inv.sound.content b n has.caches has.valid has.settled

omit inv

structure Alike (log : Log) (here next : Job) : Prop where
  flag : commits next = commits here
  pins : pinned log next = pinned log here
  copies : copied log next = copied log here

variable {here next : Job}

theorem Coherent.shift (disk : Nat → Block) (cache : Cache) (inv : Coherent layout s recorded)
    (place : s.job = here) (busy : here ≠ .idle) (flag : commits next = commits here)
    (sound : Sound cache (view s.log disk recorded) (pinned s.log next))
    (clean : ∀ n, s.log.home n → n ∉ pinned s.log next → disk n = recorded n)
    (copies : ∀ i < copied s.log next, disk (logBlock s.log i) = recorded (s.log.lh.getD i 0))
    (stage : Stage cache s.log disk recorded s.worker next) :
    Coherent layout { s with disk := disk, cache := cache, job := next } recorded := by
  refine ⟨inv.start, inv.size, inv.home, inv.nodup, inv.short, inv.outstanding, fun _ => inv.quiet (place ▸ busy), ?_, sound, clean,
    copies, stage⟩
  rw [flag, ← place]
  exact inv.committing

include inv

theorem Coherent.pass {cache : Cache} (place : s.job = here)
    (busy : here ≠ .idle) (alike : Alike s.log here next)
    (sound : Sound cache (view s.log s.disk recorded) (pinned s.log s.job))
    (stage : Stage cache s.log s.disk recorded s.worker next) : Coherent layout { s with cache := cache, job := next } recorded := by
  have clean := inv.clean
  have copies := inv.copies
  rw [place, ← alike.pins] at sound clean
  rw [place, ← alike.copies] at copies
  exact Coherent.shift s.disk cache inv place busy alike.flag sound clean copies stage

theorem coherent_get {next : Handle → Job} (place : s.job = here)
    (busy : here ≠ .idle) (ready : s.cache.pc s.worker = .ready) (alike : ∀ b, Alike s.log here (next b))
    (stage : ∀ b c, Gets c s.worker b n → Keeps s.cache c s.worker → Stage c s.log s.disk recorded s.worker (next b)) :
    Ends Any (bget s.worker n >>= fun b => goto (next b)) s fun _ t => Coherent layout t recorded := by
  refine Ends.bind (bget_ends (Q := fun b t => Coherent layout { t with job := next b } recorded) trivial ?_)
    fun b t done => done
  intro b cache got
  obtain ⟨sound, -, waits, -, keeps⟩ := bget_sound inv.sound ready got
  exact Coherent.pass (s := s) inv place busy (alike b) sound (stage b cache (Or.inl waits) (keeps _))

omit inv

theorem Has.beside {c' : Cache} {a : Handle} (has : Has c w a n) (buf : c'.buf a = c.buf a) (mark : c'.dirty a = c.dirty a) :
    Has c' w a n := by
  refine ⟨?_, ?_, ?_, mark.trans has.settled⟩
  · rw [Caches, buf]
    exact has.caches
  · rw [buf]
    exact has.lock
  · rw [buf]
    exact has.valid

include inv

theorem coherent_release (place : s.job = here) (busy : here ≠ .idle)
    (ready : s.cache.pc s.worker = .ready) (has : Has s.cache s.worker b n) (alike : Alike s.log here next)
    (stage : ∀ c, (∀ a m, a ≠ b → Has s.cache s.worker a m → Has c s.worker a m) →
      Stage c s.log s.disk recorded s.worker next) :
    Ends Any (brelse s.worker b >>= fun _ => goto next) s fun _ t => Coherent layout t recorded := by
  refine Ends.bind (brelse_ends (Q := fun _ t => Coherent layout { t with job := next } recorded) has.lock ?_) fun _ t done => done
  refine Coherent.pass (s := s) inv place busy alike (releasesleep_sound inv.sound ready has.lock has.settled) (stage _ ?_)
  exact fun a m other held => Has.beside held (update_of_ne other ..) rfl

theorem coherent_memmove {data : Block} (place : s.job = here)
    (busy : here ≠ .idle) (ready : s.cache.pc s.worker = .ready) (has : Has s.cache s.worker b n) (alike : Alike s.log here next)
    (stage : ∀ c, Changed c s.worker b n data → (∀ a m, a ≠ b → Has s.cache s.worker a m → Has c s.worker a m) →
      Stage c s.log s.disk recorded s.worker next) :
    Ends Any (memmove b data >>= fun _ => goto next) s fun _ t => Coherent layout t recorded := by
  refine Coherent.pass (s := s) inv place busy alike (memmove_sound inv.sound ready has.lock data) (stage _ ?_ ?_)
  · have same : (s.cache.memmove b data).buf b = { s.cache.buf b with data := data } := update_self ..
    refine ⟨?_, ?_, ?_, ?_⟩
    · rw [Caches, same]
      exact has.caches
    · rw [same]
      exact has.lock
    · rw [same]
      exact has.valid
    · rw [same]
  · exact fun a m other held => Has.beside held (update_of_ne other ..) (update_of_ne other ..)

theorem coherent_write {data : Block} (place : s.job = here)
    (busy : here ≠ .idle) (ready : s.cache.pc s.worker = .ready) (changed : Changed s.cache s.worker b n data)
    (flag : commits next = commits here) (pins : pinned s.log next = pinned s.log here)
    (right : s.log.home n → data = recorded n)
    (copies : ∀ i < copied s.log next, update s.disk n data (logBlock s.log i) = recorded (s.log.lh.getD i 0))
    (stage : ∀ c, Has c s.worker b n → (∀ a m, a ≠ b → Has s.cache s.worker a m → Has c s.worker a m) →
      Stage c s.log (update s.disk n data) recorded s.worker next) :
    Ends Any (bwrite s.worker b >>= fun _ => goto next) s fun _ t => Coherent layout t recorded := by
  refine Ends.bind (bwrite_ends (Q := fun _ t => Coherent layout { t with job := next } recorded) changed.lock ?_)
    fun _ t done => done
  rw [changed.caches.2, changed.data]
  have sound := inv.sound
  have clean := inv.clean
  rw [place, ← pins] at sound clean
  refine Coherent.shift (s := s) (update s.disk n data) (s.cache.mark b false) inv place busy flag ?_ ?_ copies (stage _ ?_ ?_)
  · refine written_sound sound ready changed.lock ?_ ?_
    · rw [changed.caches.2, changed.data, view]
      by_cases home : s.log.home n
      · rw [if_pos home]
        exact right home
      · rw [if_neg home, update_self]
    · intro m other
      rw [changed.caches.2] at other
      unfold view
      rw [update_of_ne other]
  · intro m home loose
    by_cases here : m = n
    · rw [here, update_self]
      exact right (here ▸ home)
    · rw [update_of_ne here]
      exact clean m home loose
  · exact ⟨changed.caches, changed.lock, changed.valid, update_self ..⟩
  · exact fun a m other held => Has.beside held rfl (update_of_ne other ..)

omit inv

variable {tail : Nat} {place : Copying}

theorem logBlock_ne {log : Log} {j : Nat} (other : i ≠ j) : logBlock log i ≠ logBlock log j := by
  unfold logBlock
  omega

theorem ne_of_home {log : Log} {m : Nat} (home : log.home n) (inside : ¬log.home m) : m ≠ n := by
  rintro rfl
  exact inside home

include inv

theorem writeLog_coherent (job : s.job = .writeLog tail place)
    (ready : s.cache.pc s.worker = .ready) : Ends Any (writeLog tail place) s fun _ t => Coherent layout t recorded := by
  have stage := inv.stage
  have copies := inv.copies
  rw [job] at stage copies
  obtain ⟨within, inside, writing⟩ := stage
  cases place with
  | start =>
    unfold writeLog
    rw [ends_get_bind]
    by_cases more : tail < s.log.lh.length
    · rw [if_pos more]
      exact coherent_get inv job nofun ready (fun b => ⟨rfl, rfl, rfl⟩) fun b c gets _ => ⟨more, inside, gets⟩
    · rw [if_neg more]
      have all : tail = s.log.lh.length := by omega
      refine Coherent.pass inv job nofun ⟨rfl, rfl, all.symm⟩ inv.sound trivial
  | first l =>
    have has := Gets.has writing ready
    unfold writeLog
    rw [ends_get_bind]
    exact coherent_get inv job nofun ready (fun b => ⟨rfl, rfl, rfl⟩) fun d c gets keeps => ⟨within, inside, has.keep keeps, gets⟩
  | both l d =>
    obtain ⟨hasL, getsD⟩ := writing
    have hasD := Gets.has getsD ready
    have home := home_entry inv within
    have apart := Has.apart hasD hasL (ne_of_home home (logBlock_not_home inv within)).symm
    have data : (s.cache.buf d).data = recorded (s.log.lh.getD tail 0) := (Has.data inv hasD).trans (if_pos home)
    unfold writeLog
    rw [ends_get_bind]
    refine coherent_memmove inv job nofun ready hasL ⟨rfl, rfl, rfl⟩ fun c changed others => ⟨within, inside, ?_, others d _ apart hasD⟩
    rw [← data]
    exact changed
  | copied l d =>
    obtain ⟨changed, hasD⟩ := writing
    have inLog := logBlock_not_home inv within
    have apart : d ≠ l := by
      rintro rfl
      exact ne_of_home (home_entry inv within) inLog (changed.caches.2.symm.trans hasD.caches.2)
    unfold writeLog
    refine coherent_write inv job nofun ready changed rfl rfl (fun home => absurd home inLog) ?_
      fun c has others => ⟨within, inside, has, others d _ apart hasD⟩
    intro i less
    by_cases last : i = tail
    · rw [last, update_self]
    have before : i < tail := by
      change i < tail + 1 at less
      omega
    rw [update_of_ne (logBlock_ne last)]
    exact copies i before
  | written l d =>
    obtain ⟨hasL, hasD⟩ := writing
    have apart := Has.apart hasL hasD (ne_of_home (home_entry inv within) (logBlock_not_home inv within))
    unfold writeLog
    rw [ends_get_bind]
    exact coherent_release inv job nofun ready hasD ⟨rfl, rfl, rfl⟩ fun c others => ⟨within, inside, others l _ apart hasL⟩
  | released l =>
    unfold writeLog
    exact coherent_release inv job nofun ready writing ⟨rfl, rfl, rfl⟩ fun c others => ⟨trivial, within, trivial⟩

theorem writeHead_coherent {here : Heading → Job} {place : Heading}
    (job : s.job = here place) (busy : ∀ place, here place ≠ .idle) (ready : s.cache.pc s.worker = .ready)
    (alike : ∀ place place', Alike s.log (here place) (here place')) (after : Alike s.log (here place) next)
    (heads : Heads s.cache s.worker s.log.start place)
    (enter : ∀ c disk place, Heads c s.worker s.log.start place → Stage c s.log disk recorded s.worker (here place))
    (leave : ∀ c, Stage c s.log s.disk recorded s.worker next) :
    Ends Any (writeHead next here place) s fun _ t => Coherent layout t recorded := by
  cases place with
  | start =>
    unfold Concurrent.writeHead
    rw [ends_get_bind]
    exact coherent_get inv job (busy _) ready (fun b => alike _ _) fun b c gets _ => enter c _ _ gets
  | first b =>
    unfold Concurrent.writeHead
    rw [ends_get_bind]
    exact coherent_memmove inv job (busy _) ready (Gets.has heads ready) (alike _ _)
      fun c changed _ => enter c _ _ ⟨_, changed⟩
  | filled b =>
    obtain ⟨data, changed⟩ := heads
    unfold Concurrent.writeHead
    rw [ends_get_bind]
    have inLog := start_not_home inv
    have copies := inv.copies
    refine coherent_write inv job (busy _) ready changed (alike _ _).flag (alike _ _).pins (fun home => absurd home inLog) ?_
      fun c has _ => enter c _ _ has
    intro i less
    have other : logBlock s.log i ≠ s.log.start := by
      unfold logBlock
      omega
    rw [(alike (.filled b) _).copies, ← job] at less
    rw [update_of_ne other]
    exact copies i less
  | written b =>
    unfold Concurrent.writeHead
    exact coherent_release inv job (busy _) ready heads after fun c _ => leave c

omit inv

theorem mem_drop_succ {lh : List Nat} (nodup : lh.Nodup) (less : tail < lh.length) (m : Nat) :
    m ∈ lh.drop (tail + 1) ↔ m ∈ lh.drop tail ∧ m ≠ lh.getD tail 0 := by
  rw [List.getD_eq_getElem _ _ less, List.drop_eq_getElem_cons less, List.mem_cons]
  have fresh := (List.nodup_cons.mp (List.drop_eq_getElem_cons less ▸ (List.drop_sublist tail lh).nodup nodup)).1
  constructor
  · intro later
    refine ⟨Or.inr later, ?_⟩
    rintro rfl
    exact fresh later
  · rintro ⟨same | later, other⟩
    · exact absurd same other
    · exact later

include inv

theorem coherent_cleared {recovering : Bool} (job : s.job = .install recovering tail .start)
    (done : ¬tail < s.log.lh.length) :
    Coherent layout { s with log := { s.log with lh := [] }, job := .erase recovering .start } recorded := by
  have sound := inv.sound
  have clean := inv.clean
  have flag := inv.committing
  have none : pinned s.log (.install recovering tail .start) = [] := List.drop_eq_nil_iff.mpr (Nat.not_lt.mp done)
  rw [job, none] at sound clean
  rw [job] at flag
  refine ⟨inv.start, inv.size, fun n mem => (nomatch mem), List.nodup_nil, Nat.zero_le _, inv.outstanding, fun _ => inv.quiet ?_,
    ?_, sound, clean, fun i less => absurd less (Nat.not_lt_zero i), rfl, trivial⟩
  · rw [job]
    exact nofun
  · cases recovering <;> exact flag

theorem coherent_unpin (job : s.job = .install false tail (.written l d))
    (ready : s.cache.pc s.worker = .ready) (within : tail < s.log.lh.length) (hasL : Has s.cache s.worker l (logBlock s.log tail))
    (hasD : Has s.cache s.worker d (s.log.lh.getD tail 0)) (home : s.disk (s.log.lh.getD tail 0) = recorded (s.log.lh.getD tail 0)) :
    Coherent layout { s with cache := (s.cache.bunpin d).releasesleep s.worker l, job := .install false tail (.released d) }
      recorded := by
  have sound := inv.sound
  have clean := inv.clean
  have copies := inv.copies
  rw [job] at sound clean copies
  have pins : ∀ m, m ∈ s.log.lh.drop (tail + 1) ↔ m ∈ s.log.lh.drop tail ∧ m ≠ (s.cache.buf d).blockno := by
    rw [hasD.caches.2]
    exact mem_drop_succ inv.nodup within
  have member : (s.cache.buf d).blockno ∈ s.log.lh.drop tail := by
    rw [hasD.caches.2, List.getD_eq_getElem _ _ within, List.drop_eq_getElem_cons within]
    exact List.mem_cons_self ..
  have apart := Has.apart hasL hasD (ne_of_home (home_entry inv within) (logBlock_not_home inv within))
  have unpinned := bunpin_sound sound ready hasD.lock hasD.settled pins member
  have same : (s.cache.bunpin d).buf l = s.cache.buf l := update_of_ne apart ..
  have held : ((s.cache.bunpin d).buf l).lock = some s.worker := by
    rw [same]
    exact hasL.lock
  refine Coherent.shift (s := s) s.disk ((s.cache.bunpin d).releasesleep s.worker l) inv job nofun rfl
    (releasesleep_sound unpinned ready held hasL.settled) ?_ copies ⟨nofun, within, Nat.le_of_lt within, ?_⟩
  · intro m outside loose
    by_cases here : m = s.log.lh.getD tail 0
    · rw [here]
      exact home
    · refine clean m outside fun mem => loose ((pins m).mpr ⟨mem, ?_⟩)
      rw [hasD.caches.2]
      exact here
  · have entry : ((s.cache.bunpin d).releasesleep s.worker l).buf d =
        { s.cache.buf d with refcnt := (s.cache.buf d).refcnt - 1 } := by
      change update (update s.cache.buf d _) l _ d = _
      rw [update_of_ne apart.symm, update_self]
    refine ⟨?_, ?_, ?_, hasD.settled⟩
    · rw [Caches, entry]
      exact hasD.caches
    · rw [entry]
      exact hasD.lock
    · rw [entry]
      exact hasD.valid

theorem install_coherent {recovering : Bool} (job : s.job = .install recovering tail place)
    (ready : s.cache.pc s.worker = .ready) : Ends Any (install recovering tail place) s fun _ t => Coherent layout t recorded := by
  have stage := inv.stage
  have copies := inv.copies
  rw [job] at stage copies
  obtain ⟨recovers, within, inside, installing⟩ := stage
  cases place with
  | start =>
    unfold install
    rw [ends_get_bind]
    by_cases more : tail < s.log.lh.length
    · rw [if_pos more]
      exact coherent_get inv job nofun ready (fun b => ⟨by cases recovering <;> rfl, rfl, rfl⟩)
        fun b c gets _ => ⟨recovers, more, inside, gets⟩
    · rw [if_neg more, ends_modify_bind]
      exact coherent_cleared (s := s) inv job more
  | first l =>
    have has := Gets.has installing ready
    unfold install
    rw [ends_get_bind]
    exact coherent_get inv job nofun ready (fun b => ⟨by cases recovering <;> rfl, rfl, rfl⟩)
      fun d c gets keeps => ⟨recovers, within, inside, has.keep keeps, gets⟩
  | both l d =>
    obtain ⟨hasL, getsD⟩ := installing
    have hasD := Gets.has getsD ready
    have inLog := logBlock_not_home inv within
    have apart := Has.apart hasL hasD (ne_of_home (home_entry inv within) inLog)
    have data : (s.cache.buf l).data = recorded (s.log.lh.getD tail 0) :=
      (Has.data inv hasL).trans ((if_neg inLog).trans (copies tail within))
    unfold install
    rw [ends_get_bind]
    refine coherent_memmove inv job nofun ready hasD ⟨by cases recovering <;> rfl, rfl, rfl⟩
      fun c changed others => ⟨recovers, within, inside, others l _ apart hasL, ?_⟩
    rw [← data]
    exact changed
  | copied l d =>
    obtain ⟨hasL, changed⟩ := installing
    have inLog := logBlock_not_home inv within
    have home := home_entry inv within
    have apart : l ≠ d := by
      rintro rfl
      exact ne_of_home home inLog (hasL.caches.2.symm.trans changed.caches.2)
    unfold install
    refine coherent_write inv job nofun ready changed (by cases recovering <;> rfl) rfl (fun _ => rfl) ?_
      fun c has others => ⟨recovers, within, inside, others l _ apart hasL, has, update_self ..⟩
    intro i less
    rw [update_of_ne (ne_of_home home (logBlock_not_home inv less))]
    exact copies i less
  | written l d =>
    obtain ⟨hasL, hasD, home⟩ := installing
    have normal : recovering = false := by
      by_contra recovery
      rw [recovers (by simpa using recovery)] at within
      exact absurd within (Nat.not_lt_zero tail)
    subst normal
    have apart := Has.apart hasL hasD (ne_of_home (home_entry inv within) (logBlock_not_home inv within))
    have held : ((s.cache.bunpin d).buf l).lock = some s.worker := by
      have same : (s.cache.bunpin d).buf l = s.cache.buf l := update_of_ne apart ..
      rw [same]
      exact hasL.lock
    unfold install
    change Ends Any (brelse s.worker l >>= fun _ => goto (.install false tail (.released d)))
      { s with cache := s.cache.bunpin d } _
    refine Ends.bind (brelse_ends (Q := fun _ t => Coherent layout { t with job := .install false tail (.released d) } recorded) held ?_)
      fun _ t done => done
    exact coherent_unpin (s := s) inv job ready within hasL hasD home
  | released d =>
    unfold install
    exact coherent_release inv job nofun ready installing ⟨by cases recovering <;> rfl, rfl, rfl⟩
      fun c others => ⟨recovers, trivial, within, trivial⟩

theorem loadHead_coherent (job : s.job = .loadHead b) (ready : s.cache.pc s.worker = .ready) :
    Ends Any (work (.loadHead b)) s fun _ t => Coherent layout t recorded := by
  have stage := inv.stage
  rw [job] at stage
  obtain ⟨empty, clean, gets⟩ := stage
  have has := Gets.has gets ready
  have data : readHead (s.cache.buf b).data = s.log.lh := by
    rw [Has.data inv has, view, if_neg (start_not_home inv), clean, empty]
  unfold work
  rw [ends_modify_bind]
  rw [data]
  exact coherent_release inv job nofun ready has ⟨rfl, rfl, by rw [copied, empty]; rfl⟩
    fun c _ => ⟨fun _ => empty, trivial, Nat.zero_le _, trivial⟩

theorem finish_coherent (job : s.job = .finish) :
    Coherent layout { s with log := { s.log with committing := false }, job := .idle } recorded := by
  have sound := inv.sound
  have clean := inv.clean
  rw [job] at sound clean
  refine ⟨inv.start, inv.size, inv.home, inv.nodup, inv.short, inv.outstanding, fun busy => absurd rfl busy, rfl, sound, clean,
    fun i less => absurd less (Nat.not_lt_zero i), trivial⟩

theorem work_coherent (ready : s.cache.pc s.worker = .ready) :
    Ends Any (work s.job) s fun _ t => Coherent layout t recorded := by
  have stage := inv.stage
  cases job : s.job with
  | idle => exact inv
  | readHead =>
    rw [job] at stage
    unfold work
    rw [ends_get_bind]
    exact coherent_get inv job nofun ready (fun b => ⟨rfl, rfl, rfl⟩) fun b c gets _ => ⟨stage.1, stage.2, gets⟩
  | loadHead b => exact loadHead_coherent inv job ready
  | commit =>
    unfold work
    rw [ends_get_bind]
    by_cases some : 0 < s.log.lh.length
    · rw [if_pos some]
      exact Coherent.pass inv job nofun ⟨rfl, rfl, rfl⟩ inv.sound ⟨trivial, Nat.zero_le _, trivial⟩
    · rw [if_neg some]
      have none : s.log.lh = [] := List.eq_nil_of_length_eq_zero (by omega)
      exact Coherent.pass inv job nofun ⟨rfl, rfl, rfl⟩ inv.sound none
  | writeLog tail place => exact writeLog_coherent inv job ready
  | writeHead place =>
    rw [job] at stage
    exact writeHead_coherent inv job nofun ready (fun _ _ => ⟨rfl, rfl, rfl⟩) ⟨rfl, rfl, rfl⟩ stage
      (fun c disk place heads => heads) fun c => ⟨nofun, trivial, Nat.zero_le _, trivial⟩
  | install recovering tail place => exact install_coherent inv job ready
  | erase recovering place =>
    rw [job] at stage
    cases recovering with
    | false =>
      exact writeHead_coherent inv job nofun ready (fun _ _ => ⟨rfl, rfl, rfl⟩) ⟨rfl, rfl, rfl⟩ stage.2
        (fun c disk place heads => ⟨stage.1, heads⟩) fun c => stage.1
    | true =>
      exact writeHead_coherent inv job nofun ready (fun _ _ => ⟨rfl, rfl, rfl⟩) ⟨rfl, rfl, rfl⟩ stage.2
        (fun c disk place heads => ⟨stage.1, heads⟩) fun c => trivial
  | finish => exact finish_coherent (s := s) inv job

end Xv6Monitor.Disk.Progress
