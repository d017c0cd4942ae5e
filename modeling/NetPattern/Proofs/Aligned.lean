import NetPattern.Cidr
import NetPattern.Proofs.Positional

/-!
# Aligned bounds

The size of a block is a power of two that divides its first address. So the segments of its bounds
agree up to some place, differ in one segment at most, and leave nothing out behind it.
-/

namespace NetPattern

/-- Lists of segments that agree up to one segment, with everything between them behind it. -/
inductive Aligned (top : Nat) : (low high : List Nat) → Prop
  | full (width : Nat) : Aligned top (List.replicate width 0) (List.replicate width top)
  | same (segment : Nat) {low high : List Nat} :
      Aligned top low high → Aligned top (segment :: low) (segment :: high)
  | split {l h : Nat} (width : Nat) : l < h →
      Aligned top (l :: List.replicate width 0) (h :: List.replicate width top)

namespace Aligned

variable {top : Nat}

/-- One more segment behind aligned bounds that leaves nothing out. -/
theorem concat {low high : List Nat} (h : Aligned top low high) :
    Aligned top (low ++ [0]) (high ++ [top]) := by
  induction h with
  | full width =>
      rw [← List.replicate_succ', ← List.replicate_succ']
      exact full (width + 1)
  | same segment _ ih => exact ih.same segment
  | split width hlt =>
      rw [List.cons_append, List.cons_append, ← List.replicate_succ', ← List.replicate_succ']
      exact split (width + 1) hlt

/-- A last segment in which the bounds differ. -/
theorem of_common {l h : Nat} (hle : l ≤ h) (common : List Nat) :
    Aligned top (common ++ [l]) (common ++ [h]) := by
  induction common with
  | nil =>
      rcases Nat.lt_or_eq_of_le hle with hlt | rfl
      · exact split 0 hlt
      · exact (full 0).same l
  | cons segment common ih => exact ih.same segment

end Aligned

namespace Positional

/-- The digits of the bounds of a block whose size is a power of two are aligned. -/
theorem aligned_digits (bits width hostBits block : Nat) :
    Aligned (2 ^ bits - 1) (digits (2 ^ bits) width (block * 2 ^ hostBits))
      (digits (2 ^ bits) width (block * 2 ^ hostBits + (2 ^ hostBits - 1))) := by
  have hbase : 0 < 2 ^ bits := Nat.two_pow_pos bits
  induction width generalizing hostBits block with
  | zero => exact .full 0
  | succ width ih =>
      by_cases hwide : bits ≤ hostBits
      · -- The last digit is free, and the other digits are those of a block of blocks.
        obtain ⟨more, rfl⟩ := Nat.exists_eq_add_of_le hwide
        have hmore : 0 < 2 ^ more := Nat.two_pow_pos more
        have hfirst : block * 2 ^ (bits + more) = block * 2 ^ more * 2 ^ bits + 0 := by
          rw [Nat.pow_add, Nat.add_zero, Nat.mul_assoc, Nat.mul_comm (2 ^ more)]
        have hlast : block * 2 ^ (bits + more) + (2 ^ (bits + more) - 1) =
            (block * 2 ^ more + (2 ^ more - 1)) * 2 ^ bits + (2 ^ bits - 1) := by
          rw [hfirst, Nat.pow_add, Nat.add_mul, Nat.sub_mul, Nat.mul_comm (2 ^ bits)]
          have := Nat.le_mul_of_pos_left (2 ^ bits) hmore
          omega
        rw [hlast, hfirst, digits_mul_add hbase, digits_mul_add (Nat.sub_lt hbase Nat.one_pos)]
        exact (ih more block).concat
      · -- The whole block lies within one value of the other digits.
        obtain ⟨more, rfl⟩ := Nat.exists_eq_add_of_le (Nat.le_of_not_le hwide)
        have hmore : 0 < 2 ^ more := Nat.two_pow_pos more
        have hfirst : block * 2 ^ hostBits =
            block / 2 ^ more * 2 ^ (hostBits + more) + block % 2 ^ more * 2 ^ hostBits := by
          conv => lhs; rw [← Nat.div_add_mod block (2 ^ more)]
          rw [Nat.pow_add]
          ring
        have hroom : block % 2 ^ more * 2 ^ hostBits + (2 ^ hostBits - 1) <
            2 ^ (hostBits + more) := by
          have hlt := Nat.mul_le_mul_right (2 ^ hostBits) (Nat.mod_lt block hmore)
          rw [Nat.succ_mul, Nat.mul_comm (2 ^ more), ← Nat.pow_add] at hlt
          have := Nat.two_pow_pos hostBits
          omega
        rw [hfirst, Nat.add_assoc, digits_mul_add hroom,
          digits_mul_add (Nat.lt_of_le_of_lt (Nat.le_add_right _ _) hroom)]
        exact .of_common (Nat.le_add_right _ _) _

end Positional

/-- The segments of the bounds of a block are aligned. -/
theorem Cidr.aligned (cidr : Cidr) :
    Aligned cidr.family.segmentMax cidr.range.firstSegments cidr.range.lastSegments := by
  have h := Positional.aligned_digits cidr.family.segmentBits cidr.family.segmentCount
    cidr.hostBits (cidr.address % cidr.family.size / cidr.blockSize)
  have hbase : cidr.family.segmentMax + 1 = 2 ^ cidr.family.segmentBits := by
    rw [cidr.family.segmentMax_succ, Nat.one_shiftLeft]
  have hsize : cidr.blockSize = 2 ^ cidr.hostBits := by
    rw [blockSize, Nat.one_shiftLeft]
  rw [← hbase, Nat.add_sub_cancel, ← hsize] at h
  exact h

end NetPattern
