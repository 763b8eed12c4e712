import Xv6Monitor.Util.Diff

/-! The verdict of `user/diff.c`. A line is read in parts of at most 255 characters, and the parts tell the line. -/

namespace Xv6Monitor.Util.Verdict
open Strings Diff

variable {ch : UInt8} {file file1 file2 : List UInt8} {left : Nat} {s t : State} {stale : Nat → UInt8 × UInt8}


structure File where
  bytes : List UInt8
  small : bytes.length < 2 ^ 32

/-- The files are equal, or one has a newline more at its end, after a line that is not empty. -/
inductive Alike (file1 file2 : List UInt8) : Prop where
  | equal (same : file1 = file2)
  | more (some : file2 ≠ []) (newline : file1 = file2 ++ [newline])
  | fewer (some : file1 ≠ []) (newline : file2 = file1 ++ [newline])

theorem Alike.append {l : List UInt8} (alike : Alike file1 file2) : Alike (l ++ file1) (l ++ file2) := by
  cases alike with
  | equal same => exact .equal (by rw [same])
  | more some newline => exact .more (by simp [some]) (by rw [newline, List.append_assoc])
  | fewer some newline => exact .fewer (by simp [some]) (by rw [newline, List.append_assoc])

theorem Alike.nil_right (alike : Alike file1 []) : file1 = [] := by
  cases alike with
  | equal same => exact same
  | more some => exact absurd rfl some
  | fewer some newline => exact absurd newline.symm (by simp)

theorem Alike.symm (alike : Alike file1 file2) : Alike file2 file1 := by
  cases alike with
  | equal same => exact .equal same.symm
  | more some newline => exact .fewer some newline
  | fewer some newline => exact .more some newline

theorem alike_of_rest {ch1 ch2 : UInt8} (some1 : file1 ≠ []) (some2 : file2 ≠ [])
    (same : (readLine ch1 file1).chars = (readLine ch2 file2).chars)
    (alike : Alike (readLine ch1 file1).rest (readLine ch2 file2).rest) : Alike file1 file2 := by
  have length := congrArg List.length same
  cases readLine_reads ch1 file1 with
  | full full1 split1 =>
    cases readLine_reads ch2 file2 with
    | full full2 split2 =>
      rw [split1, split2, same]
      exact alike.append
    | newline short2 => omega
    | last short2 => omega
  | newline short1 split1 =>
    cases readLine_reads ch2 file2 with
    | full full2 => omega
    | newline short2 split2 =>
      rw [split1, split2, same]
      exact (alike.append (l := [newline])).append
    | last short2 split2 none2 =>
      rw [none2] at alike
      rw [alike.nil_right, same, ← split2] at split1
      exact .more some2 split1
  | last short1 split1 none1 =>
    cases readLine_reads ch2 file2 with
    | full full2 => omega
    | newline short2 split2 =>
      rw [none1] at alike
      rw [alike.symm.nil_right, ← same, ← split1] at split2
      exact .fewer some1 split2
    | last short2 split2 => exact .equal (split1.trans (same.trans split2.symm))

theorem has_iff (fresh : file = [] → ch ≠ newline) : (readLine ch file).has = true ↔ file ≠ [] := by
  constructor
  · intro has empty
    rw [empty] at has
    exact fresh empty (has_nil.mp has)
  · exact fun some => (readLine_some some).1

theorem ended_of_eof {eof : Bool} (fresh : file = [] → ch ≠ newline) (early : eof = true → file = [])
    (now : (eof || !(readLine ch file).has) = true) : file = [] := by
  rcases (Bool.or_eq_true ..).mp now with set | none
  · exact early set
  · by_contra some
    rw [(has_iff fresh).mpr some] at none
    exact nomatch none

theorem readLine_congr (some : file ≠ []) (ch ch' : UInt8) : readLine ch file = readLine ch' file := by
  cases file with
  | nil => exact absurd rfl some
  | cons _ file => rfl

theorem rest_lt (ch : UInt8) (file : List UInt8) : (readLine ch file).rest.length < max 1 file.length := by
  by_cases empty : file = []
  · rw [empty]
    exact Nat.zero_lt_one
  · exact Nat.lt_of_lt_of_le (readLine_some empty).2 (Nat.le_max_right ..)

theorem difference_ne_identical {n : Int32} {line1 line2 : Line} : difference n line1 line2 ≠ some .identical := by
  unfold difference
  split
  · split <;> simp
  · split
    · simp
    · split <;> simp

theorem readLine_subset (ch : UInt8) (file : List UInt8) :
    (readLine ch file).chars ⊆ file ∧ (readLine ch file).rest ⊆ file := by
  cases readLine_reads ch file with
  | full length split => exact ⟨fun x mem => by rw [split]; simp [mem], fun x mem => by rw [split]; simp [mem]⟩
  | newline length split => exact ⟨fun x mem => by rw [split]; simp [mem], fun x mem => by rw [split]; simp [mem]⟩
  | last length split none => exact ⟨fun x mem => split ▸ mem, by rw [none]; exact List.nil_subset _⟩

section Verdict

variable {ch1 ch2 : UInt8} {n : Int32} (fresh1 : file1 = [] → ch1 ≠ newline) (fresh2 : file2 = [] → ch2 ≠ newline)
include fresh1 fresh2

theorem difference_none (free1 : 0 ∉ file1) (free2 : 0 ∉ file2) (some : file1 ≠ [] ∨ file2 ≠ []) :
    difference n (readLine ch1 file1) (readLine ch2 file2) = none ↔
      file1 ≠ [] ∧ file2 ≠ [] ∧ (readLine ch1 file1).chars = (readLine ch2 file2).chars := by
  have nul1 : 0 ∉ (readLine ch1 file1).chars := fun mem => free1 ((readLine_subset ch1 file1).1 mem)
  have nul2 : 0 ∉ (readLine ch2 file2).chars := fun mem => free2 ((readLine_subset ch2 file2).1 mem)
  have compared : strcmp (readLine ch1 file1).chars (readLine ch2 file2).chars = 0 ↔ _ := strcmp_eq_zero nul1 nul2
  unfold difference
  rw [cut_free nul1, cut_free nul2]
  simp only [has_iff fresh1, has_iff fresh2]
  by_cases empty1 : file1 = [] <;> by_cases empty2 : file2 = [] <;> simp_all

end Verdict

/-- The rest of a run: how many differences are found, and what it means that there are none. -/
theorem compareFrom_spec (fresh : Fresh stale file1 file2) {k : Nat} (here : before stale file1 file2 k = some s)
    (free1 : 0 ∉ s.file1) (free2 : 0 ∉ s.file2) (eof1 : s.eof1 = true → s.file1 = []) (eof2 : s.eof2 = true → s.file2 = [])
    (enough : max s.file1.length s.file2.length < left) :
    ∃ t d, compareFrom stale left k s = some t ∧ t.differences = s.differences + Int32.ofNat d ∧
      d ≤ max s.file1.length s.file2.length ∧ (d = 0 → Alike s.file1 s.file2 ∧ t.output = s.output) ∧
      (s.file1 = s.file2 → d = 0) ∧ ∀ m ∈ t.output, m ∈ s.output ∨ m ≠ .identical := by
  induction left generalizing s k with
  | zero => exact absurd enough (Nat.not_lt_zero _)
  | succ left ih =>
    obtain ⟨fresh1, fresh2⟩ := fresh k s here
    rw [compareFrom]
    cases ran : compare s (stale k).1 (stale k).2 with
    | none =>
      obtain ⟨first, second⟩ := compare_none ran
      have empty1 := ended_of_eof fresh1 eof1 first
      have empty2 := ended_of_eof fresh2 eof2 second
      refine ⟨s, 0, rfl, (Int32.add_zero _).symm, Nat.zero_le _, fun _ => ⟨.equal ?_, rfl⟩, fun _ => rfl, fun m mem => .inl mem⟩
      rw [empty1, empty2]
    | some u =>
      have round := compare_some ran
      have next : before stale file1 file2 (k + 1) = some u := by
        rw [before, here]
        exact ran
      have some := round.some.imp (has_iff fresh1).mp (has_iff fresh2).mp
      have positive := some.imp List.length_pos_iff.mpr List.length_pos_iff.mpr
      have less1 := round.file1 ▸ rest_lt (stale k).1 s.file1
      have less2 := round.file2 ▸ rest_lt (stale k).2 s.file2
      have ends1 : u.eof1 = true → u.file1 = [] := by
        intro set
        rw [round.file1, ended_of_eof fresh1 eof1 (round.eof1 ▸ set), readLine_nil]
      have ends2 : u.eof2 = true → u.file2 = [] := by
        intro set
        rw [round.file2, ended_of_eof fresh2 eof2 (round.eof2 ▸ set), readLine_nil]
      have silent := difference_none (n := s.lineNum) fresh1 fresh2 free1 free2 some
      obtain ⟨t, d, ran', count, most, alike, equal, printed⟩ := ih next
        (fun mem => free1 ((readLine_subset _ _).2 (round.file1 ▸ mem))) (fun mem => free2 ((readLine_subset _ _).2 (round.file2 ▸ mem)))
        ends1 ends2 (by omega)
      rw [round.differences] at count
      have other : ∀ m ∈ t.output, m ∈ s.output ∨ m ≠ .identical := by
        intro m mem
        refine (printed m mem).elim (fun early => (round.printed m early).imp_right ?_) .inr
        rintro (gap | found) same
        · cases gap.symm.trans same
        · exact difference_ne_identical (same ▸ found)
      cases found : difference s.lineNum (readLine (stale k).1 s.file1) (readLine (stale k).2 s.file2) with
      | none =>
        rw [found, Option.isSome_none, if_neg Bool.false_ne_true, Int32.add_zero] at count
        obtain ⟨some1, some2, chars⟩ := silent.mp found
        refine ⟨t, d, ran', count, by omega, fun zero => ?_, fun same => equal ?_, other⟩
        · obtain ⟨rest, output⟩ := alike zero
          rw [round.file1, round.file2] at rest
          exact ⟨alike_of_rest some1 some2 chars rest, output.trans (round.output found)⟩
        · rw [round.file1, round.file2, ← same, readLine_congr some1]
      | some message =>
        rw [found, Option.isSome_some, if_pos rfl, Int32.add_assoc, Int32.add_comm 1] at count
        refine ⟨t, d + 1, ran', count.trans ?_, by omega, fun zero => absurd zero (Nat.succ_ne_zero d), fun same => ?_, other⟩
        · rw [Int32.ofNat_add]
          rfl
        · have some1 : s.file1 ≠ [] := some.elim id fun some2 => same ▸ some2
          have quiet := silent.mpr ⟨some1, same ▸ some1, by rw [← same, readLine_congr some1]⟩
          cases quiet.symm.trans found

theorem ofNat_eq_zero {d : Nat} (small : d < 2 ^ 32) : Int32.ofNat d = 0 ↔ d = 0 := by
  constructor
  · intro zero
    have bits : (Int32.ofNat d).toBitVec.toNat = 0 := by rw [zero]; rfl
    rw [Int32.toBitVec_ofNat', BitVec.toNat_ofNat] at bits
    omega
  · rintro rfl
    rfl

/-- Equal files are reported to be identical, and files are reported to be identical only if they are equal or differ in one
newline at the end of one of them. -/
theorem verdict_right (stale : Nat → UInt8 × UInt8) (file1 file2 : File) (fresh : Fresh stale file1.bytes file2.bytes)
    (free1 : 0 ∉ file1.bytes) (free2 : 0 ∉ file2.bytes) :
    ∃ out, diff stale file1.bytes file2.bytes = some out ∧ (file1.bytes = file2.bytes → out = [.identical]) ∧
      (.identical ∈ out → file1.bytes = file2.bytes ∨ file1.bytes = file2.bytes ++ [newline] ∨
        file2.bytes = file1.bytes ++ [newline]) := by
  obtain ⟨t, d, ran, count, most, alike, equal, printed⟩ := compareFrom_spec fresh (k := 0) rfl free1 free2
    nofun nofun (Nat.lt_add_one (max file1.bytes.length file2.bytes.length))
  have small : d < 2 ^ 32 := by
    have small1 := file1.small
    have small2 := file2.small
    dsimp only [start] at most
    omega
  have counted : t.differences = 0 ↔ d = 0 := by
    rw [count, ← ofNat_eq_zero small]
    exact iff_of_eq (congrArg (· = 0) (Int32.zero_add _))
  unfold diff
  rw [ran, Option.map_some]
  refine ⟨_, rfl, fun same => ?_, fun said => ?_⟩
  · have zero := equal same
    rw [if_pos (counted.mpr zero), (alike zero).2]
    rfl
  by_cases zero : t.differences = 0
  · cases (alike (counted.mp zero)).1 with
    | equal same => exact .inl same
    | more some newline => exact .inr (.inl newline)
    | fewer some newline => exact .inr (.inr newline)
  · rw [if_neg zero] at said
    exact absurd rfl ((printed _ said).resolve_left List.not_mem_nil)

/-- The files `a` and `a\n`, with zeros in the variable throughout. -/
theorem verdict_right_newline :
    ∃ out, diff (fun _ => (0, 0)) [97] [97, newline] = some out ∧ ([97] = [97, newline] → out = [.identical]) ∧
      (.identical ∈ out → [97] = [97, newline] ∨ [97] = [97, newline] ++ [newline] ∨ [97, newline] = [97] ++ [newline]) := by
  have fresh : (0 : UInt8) ≠ newline := by decide
  exact verdict_right (fun _ => (0, 0)) ⟨[97], by decide⟩ ⟨[97, newline], by decide⟩ (fun _ _ _ => ⟨fun _ => fresh, fun _ => fresh⟩)
    (by decide) (by decide)

end Xv6Monitor.Util.Verdict
