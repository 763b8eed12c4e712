import Xv6Monitor.Scheduler.Scan

/-! The locks that the scans of `scheduler` hold. The loop is taken by itself, with every `acquire` and `release` in
it; the table gives each entry as it is when the loop has locked it. -/

namespace Xv6Monitor.Scheduler.Locking
open Lib.Selection Process.Table Process.Machine Process.Step Process.Moves Scan

/-- The candidate, and the slots whose `p->lock` is held, the latest first. -/
structure Locks where
  cand : Option Slot
  held : List Slot

variable (branch : Branch) (proc : Slot → Proc)

def Takes (s : Locks) (p : Slot) : Prop :=
  (proc p).state = .runnable ∧ ∀ old ∈ s.cand, branch.better (proc p) (proc old) = true

instance (s : Locks) (p : Slot) : Decidable (Takes branch proc s p) := inferInstanceAs (Decidable (_ ∧ _))

def Locks.acquire (s : Locks) (p : Slot) : Locks := { s with held := p :: s.held }

def Locks.release (s : Locks) (p : Slot) : Locks := { s with held := s.held.erase p }

/-- What a round of the loop does with the entry that it has locked. -/
def judge (s : Locks) (p : Slot) : Locks :=
  if Takes branch proc s p then
    match s.cand with
    | none => { s with cand := some p }
    | some old => { s.release old with cand := some p }
  else s.release p

def scanFrom : (left k : Nat) → Locks → List Locks × Locks
  | 0, _, s => ([], s)
  | left + 1, k, s =>
    match slotAt k with
    | none => ([], s)
    | some p =>
      let next := judge branch proc (s.acquire p) p
      let (way, last) := scanFrom left (k + 1) next
      (s.acquire p :: next :: way, last)

def scan : List Locks × Locks := scanFrom branch proc NPROC 0 ⟨none, []⟩

variable {branch proc} {s : Locks} {k : Nat} {p : Slot}

/-- Between two rounds the lock of the candidate is held, and the candidate is the best so far. -/
structure Between (branch : Branch) (proc : Slot → Proc) (k : Nat) (s : Locks) : Prop where
  held : s.held = s.cand.toList
  least : Least (fun q => (proc q).state = .runnable) (fun q => key branch (proc q)) k s.cand

/-- At most two locks are held, and the second belongs to a higher slot. -/
def Ordered (s : Locks) : Prop := s.held.length ≤ 2 ∧ s.held.Pairwise fun later earlier => earlier < later

theorem takes_iff : Takes branch proc s p ↔
    (proc p).state = .runnable ∧ ∀ old ∈ s.cand, key branch (proc p) < key branch (proc old) := by
  simp only [Takes, better_iff]

theorem Between.ordered (between : Between branch proc k s) : Ordered s := by
  rw [Ordered, between.held]
  cases s.cand <;> simp

theorem Between.below (between : Between branch proc k s) {q : Slot} (here : s.cand = some q) : q.val < k := by
  have least := between.least
  rw [here] at least
  exact least.2.1

theorem Between.acquire (between : Between branch proc p.val s) : Ordered (s.acquire p) := by
  rw [Ordered, Locks.acquire]
  dsimp only
  rw [between.held]
  cases here : s.cand with
  | none => simp
  | some _ => simpa using between.below here

theorem Between.judge (between : Between branch proc p.val s) :
    Between branch proc (p.val + 1) (judge branch proc (s.acquire p) p) := by
  have held := between.held
  unfold Locking.judge
  split
  next takes =>
    obtain ⟨ready, better⟩ := takes_iff.mp takes
    have least := between.least.take ready better
    cases here : s.cand with
    | none =>
      rw [here] at held
      simp only [Locks.acquire, here, held]
      exact ⟨rfl, least⟩
    | some old =>
      have apart : p ≠ old := fun same => absurd (between.below here) (by rw [same]; exact Nat.lt_irrefl _)
      rw [here] at held
      simp only [Locks.acquire, Locks.release, here, held]
      refine ⟨?_, least⟩
      simp [apart]
  next stays =>
    refine ⟨?_, between.least.skip (mt takes_iff.mpr stays)⟩
    rw [Locks.release, Locks.acquire]
    exact (List.erase_cons_head ..).trans held

section Machine

variable {C : Nat} {m t : Sys C} {c : Fin C}

/-- CPU `c` of the kernel stands before slot `k` of a scan with this candidate and these locks. -/
def Scans (m : Sys C) (c : Fin C) (branch : Branch) (k : Nat) (s : Locks) : Prop :=
  (m.cpu c).loc = .scan branch k s.cand ∧ ∀ q, m.plock q = some c ↔ q ∈ s.held

/-- A step of the kernel inside a scan is a round of the loop. -/
theorem schedStep_judge (between : Between branch m.proc p.val s) (scans : Scans m c branch p.val s)
    (moved : schedStep m c = some t) :
    Scans t c branch (p.val + 1) (judge branch m.proc (s.acquire p) p) ∧ t.proc = m.proc := by
  obtain ⟨loc, locks⟩ := scans
  have held := between.held
  cases schedStep_move moved with
  | scanSkip b q cand place free worse =>
    cases Fin.ext (SchedLoc.scan.inj (place.symm.trans loc)).2.1
    cases place.symm.trans loc
    have stays : ¬Takes branch m.proc (s.acquire p) p := worse
    rw [judge, if_neg stays]
    refine ⟨⟨by simp [Locks.acquire, Locks.release], fun q => ?_⟩, rfl⟩
    simpa [Locks.acquire, Locks.release] using locks q
  | scanTake b q cand place free ready better =>
    cases Fin.ext (SchedLoc.scan.inj (place.symm.trans loc)).2.1
    cases place.symm.trans loc
    have takes : Takes branch m.proc (s.acquire p) p := ⟨ready, better⟩
    rw [judge, if_pos takes]
    cases here : s.cand with
    | none =>
      rw [here] at held
      refine ⟨⟨by simp [Locks.acquire, here], fun r => ?_⟩, rfl⟩
      by_cases this : r = p <;> simp [this, dropCand, Locks.acquire, here, locks, held]
    | some old =>
      have apart : p ≠ old := fun same => absurd (between.below here) (by rw [same]; exact Nat.lt_irrefl _)
      rw [here] at held
      refine ⟨⟨by simp [Locks.acquire, Locks.release, here], fun r => ?_⟩, rfl⟩
      by_cases this : r = p
      · simp [this, dropCand, Locks.acquire, Locks.release, here, held, apart]
      · by_cases that : r = old <;>
          simp [this, that, dropCand, Locks.acquire, Locks.release, here, held, apart, locks, apart.symm]
  | reread place | passEnd _ place | passSkip _ place | passDispatch _ place | swtchIn _ _ place
  | swtchOut _ _ place => cases place.symm.trans loc
  | scanNone _ _ place last | scanDispatch _ _ _ place last =>
    rw [(SchedLoc.scan.inj (place.symm.trans loc)).2.1] at last
    exact absurd p.isLt (not_lt.mpr last)

end Machine

theorem start (branch : Branch) (proc : Slot → Proc) : Between branch proc 0 ⟨none, []⟩ := ⟨rfl, least_start⟩

theorem scanFrom_spec {left : Nat} (whole : left + k = NPROC) (between : Between branch proc k s) :
    (∀ u ∈ (scanFrom branch proc left k s).1, Ordered u) ∧ Between branch proc NPROC (scanFrom branch proc left k s).2 := by
  induction left generalizing k s with
  | zero =>
    rw [Nat.zero_add] at whole
    exact ⟨fun _ mem => absurd mem List.not_mem_nil, whole ▸ between⟩
  | succ left ih =>
    have inside : k < NPROC := by omega
    have next : Between branch proc (k + 1) _ := Between.judge (p := ⟨k, inside⟩) between
    obtain ⟨way, last⟩ := ih (by omega) next
    rw [scanFrom, slotAt, dif_pos inside]
    refine ⟨?_, last⟩
    intro u mem
    rcases List.mem_cons.mp mem with rfl | mem
    · exact Between.acquire (p := ⟨k, inside⟩) between
    rcases List.mem_cons.mp mem with rfl | mem
    · exact next.ordered
    · exact way u mem

/-- A scan of the table ends with the first of the best entries, if one is RUNNABLE, and holds its lock alone; on the way it
holds two locks at most, the second of a higher slot. -/
theorem scan_selects (branch : Branch) (proc : Slot → Proc) :
    (∀ s ∈ (scan branch proc).1, s.held.length ≤ 2 ∧ s.held.Pairwise fun later earlier => earlier < later) ∧
    (scan branch proc).2.held = (scan branch proc).2.cand.toList ∧
    ((scan branch proc).2.cand = none ↔ ∀ r, (proc r).state ≠ .runnable) ∧
    ∀ q, (scan branch proc).2.cand = some q → (proc q).state = .runnable ∧ ∀ r, (proc r).state = .runnable →
      match branch with
      | .fcfs => (proc q).creationTime < (proc r).creationTime ∨
          (proc q).creationTime = (proc r).creationTime ∧ q ≤ r
      | .priority => (proc q).priority < (proc r).priority ∨ (proc q).priority = (proc r).priority ∧
          ((proc q).creationTime < (proc r).creationTime ∨ (proc q).creationTime = (proc r).creationTime ∧ q ≤ r) := by
  obtain ⟨way, last⟩ := scanFrom_spec (Nat.add_zero NPROC) (start branch proc)
  have least := last.least
  refine ⟨way, last.held, ?_, fun q here => ?_⟩
  · cases here : (scan branch proc).2.cand with
    | none =>
      rw [scan] at here
      rw [here] at least
      exact iff_of_true rfl fun r => least r r.isLt
    | some q =>
      rw [scan] at here
      rw [here] at least
      exact iff_of_false nofun fun none => none q least.1
  · rw [scan] at here
    rw [here] at least
    refine ⟨least.1, fun r ready => ?_⟩
    have best := least.2.2 r r.isLt ready
    cases branch with
    | fcfs => exact key_fcfs_le best
    | priority =>
      simp only [key, Prod.Lex.toLex_le_toLex, Prod.Lex.toLex_lt_toLex, toLex_inj, Prod.mk.injEq] at best
      rcases best with (less | ⟨same, less⟩) | ⟨⟨same, level⟩, before⟩
      · exact Or.inl less
      · exact Or.inr ⟨same, Or.inl less⟩
      · exact Or.inr ⟨same, Or.inr ⟨level, before⟩⟩

end Xv6Monitor.Scheduler.Locking
