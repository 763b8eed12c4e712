import Xv6Monitor.FileSystem.Format

/-! Reading back what was written into a block: inodes, bits of the free map, entries of an indirect block and
directory entries. -/

namespace Xv6Monitor.FileSystem.Fields
open Lib.Bytes Format

variable {b : Data} {o : Nat}

/-! ### Bits of the free map -/

theorem bit_setBit (b : Data) (n k : Nat) : bit (setBit b n) k = (bit b k || decide (k = n)) := by
  unfold bit setBit
  by_cases byte : k / 8 = n / 8
  · have small : (b (n / 8)).toNat ||| 1 <<< (n % 8) < 2 ^ 8 := by
      refine Nat.or_lt_two_pow (b (n / 8)).toNat_lt ?_
      rw [Nat.one_shiftLeft]
      exact Nat.pow_lt_pow_right (by decide) (Nat.mod_lt n (by decide))
    have same : k = n ↔ n % 8 = k % 8 := by omega
    rw [byte, Function.update_self, UInt8.toNat_ofNat', Nat.mod_eq_of_lt small, Nat.testBit_or, Nat.one_shiftLeft,
      Nat.testBit_two_pow]
    congr 1
    exact decide_eq_decide.mpr same.symm
  · rw [Function.update_of_ne byte]
    have other : ¬k = n := fun same => byte (by rw [same])
    rw [decide_eq_false other, Bool.or_false]

/-! ### Inodes -/

theorem load_digit {n v : Nat} (digits : ∀ k < n, b (o + k) = digit v k) : load n b o = v % 256 ^ n :=
  load_digits digits

theorem load16_digit {v : UInt16} (digits : ∀ k < 2, b (o + k) = digit v.toNat k) : load16 b o = v := by
  have bound : v.toNat < 256 ^ 2 := v.toNat_lt
  rw [load16, load_digit digits, Nat.mod_eq_of_lt bound, UInt16.ofNat_toNat]

theorem load32_digit {v : UInt32} (digits : ∀ k < 4, b (o + k) = digit v.toNat k) : load32 b o = v := by
  have bound : v.toNat < 256 ^ 4 := v.toNat_lt
  rw [load32, load_digit digits, Nat.mod_eq_of_lt bound, UInt32.ofNat_toNat]

theorem write_inside (b : Data) (o : Nat) (n : Dinode) {i : Nat} (inside : i < 64) : Dinode.write b o n (o + i) = n.bytes i := by
  rw [Dinode.write, splice, if_pos (by omega), Nat.add_sub_cancel_left]

theorem read_write (b : Data) (o : Nat) (n : Dinode) : Dinode.read (Dinode.write b o n) o = n := by
  have short : ∀ (v : Int16) (d : Nat), (∀ k < 2, Dinode.write b o n (o + d + k) = digit v.toUInt16.toNat k) →
      (load16 (Dinode.write b o n) (o + d)).toInt16 = v := by
    intro v d digits
    rw [load16_digit digits, Int16.toInt16_toUInt16]
  have bytes : ∀ d i, d + i < 64 → Dinode.write b o n (o + d + i) = n.bytes (d + i) := by
    intro d i inside
    rw [Nat.add_assoc]
    exact write_inside b o n inside
  apply Dinode.ext
  · refine short n.type 0 fun k less => ?_
    rw [bytes 0 k (by omega), Dinode.bytes, if_pos (by omega), Nat.zero_add]
  · refine short n.major 2 fun k less => ?_
    rw [bytes 2 k (by omega), Dinode.bytes, if_neg (by omega), if_pos (by omega), Nat.add_sub_cancel_left]
  · refine short n.minor 4 fun k less => ?_
    rw [bytes 4 k (by omega), Dinode.bytes, if_neg (by omega), if_neg (by omega), if_pos (by omega), Nat.add_sub_cancel_left]
  · refine short n.nlink 6 fun k less => ?_
    rw [bytes 6 k (by omega), Dinode.bytes, if_neg (by omega), if_neg (by omega), if_neg (by omega), if_pos (by omega),
      Nat.add_sub_cancel_left]
  · refine load32_digit fun k less => ?_
    rw [bytes 8 k (by omega), Dinode.bytes, if_neg (by omega), if_neg (by omega), if_neg (by omega), if_neg (by omega),
      if_pos (by omega), Nat.add_sub_cancel_left]
  funext a
  refine load32_digit fun k less => ?_
  have address : (12 + 4 * a.val + k - 12) / 4 = a := by omega
  have place : (12 + 4 * a.val + k - 12) % 4 = k := by omega
  have inside : (12 + 4 * a.val + k - 12) / 4 < 13 := by omega
  rw [Nat.add_assoc o 12, bytes (12 + 4 * a) k (by omega), Dinode.bytes, if_neg (by omega), if_neg (by omega),
    if_neg (by omega), if_neg (by omega), if_neg (by omega), dif_pos inside, place]
  congr 3
  exact Fin.ext address

theorem read_write_other {p : Nat} (n : Dinode) (apart : o + 64 ≤ p ∨ p + 64 ≤ o) :
    Dinode.read (Dinode.write b o n) p = Dinode.read b p := by
  have same : ∀ w d, d + w ≤ 64 → load w (Dinode.write b o n) (p + d) = load w b (p + d) :=
    fun w d inside => load_splice_other (by omega)
  apply Dinode.ext
  · exact congrArg (fun v => (UInt16.ofNat v).toInt16) (same 2 0 (by omega))
  · exact congrArg (fun v => (UInt16.ofNat v).toInt16) (same 2 2 (by omega))
  · exact congrArg (fun v => (UInt16.ofNat v).toInt16) (same 2 4 (by omega))
  · exact congrArg (fun v => (UInt16.ofNat v).toInt16) (same 2 6 (by omega))
  · exact congrArg UInt32.ofNat (same 4 8 (by omega))
  · funext a
    refine congrArg UInt32.ofNat ?_
    rw [Nat.add_assoc p 12]
    exact same 4 (12 + 4 * a) (by omega)

/-! ### Directory entries -/

theorem Dirent.read_bytes (inum : UInt16) (name : Name) (text : ∀ c ∈ name, c ≠ 0) :
    Dirent.read (Dirent.bytes ⟨inum, name⟩) = ⟨inum, name.take DIRSIZ⟩ := by
  have number : load16 (Dirent.bytes ⟨inum, name⟩) 0 = inum :=
    load16_digit fun k less => by rw [Dirent.bytes, if_pos (by omega), Nat.zero_add]
  have chars : ∀ k, ((List.range k).map fun i => Dirent.bytes ⟨inum, name⟩ (2 + i)).takeWhile (· ≠ 0) = name.take k := by
    intro k
    have each : (List.range k).map (fun i => Dirent.bytes ⟨inum, name⟩ (2 + i)) = (List.range k).map fun i => (name[i]?).getD 0 := by
      refine List.map_congr_left fun i _ => ?_
      rw [Dirent.bytes, if_neg (by omega), Nat.add_sub_cancel_left]
    rw [each]
    clear each number
    induction k generalizing name with
    | zero => simp
    | succ k ih =>
      rw [List.range_succ_eq_map, List.map_cons, List.map_map]
      cases name with
      | nil => simp
      | cons c rest =>
        have some : c ≠ 0 := text c (List.mem_cons_self ..)
        have tail := ih rest fun d mem => text d (List.mem_cons_of_mem c mem)
        rw [List.takeWhile_cons_of_pos (by simpa using some)]
        exact congrArg (c :: ·) tail
  rw [Dirent.read, number, chars]

end Xv6Monitor.FileSystem.Fields
