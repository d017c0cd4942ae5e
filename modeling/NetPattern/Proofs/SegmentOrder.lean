import NetPattern.Proofs.Prefix
import NetPattern.Proofs.Runs

/-!
# Addresses and segments in one order

The addresses of a family and the lists of its segments correspond to each other, each list to the
number that it stands for, and both are in the same order. So a range of addresses is a range of
lists of segments, compared from the most significant one on. Shifts and masks give the segments of
an address without leaving a word.
-/

namespace NetPattern

namespace Positional

/-- Each digit of a number is found at its place, counted from the least significant one. -/
theorem digits_eq_map (base width n : Nat) : digits base width n =
    (List.range width).reverse.map fun place => n / base ^ place % base := by
  induction width generalizing n with
  | zero => rfl
  | succ width ih =>
      have hplaces : (List.range width).reverse.map (fun place => n / base / base ^ place % base) =
          ((List.range width).map Nat.succ).reverse.map fun place => n / base ^ place % base := by
        rw [← List.map_reverse, List.map_map]
        apply List.map_congr_left
        intro place _
        rw [Nat.div_div_eq_div_mul, Function.comp_apply, Nat.pow_succ']
      rw [digits, ih, hplaces, List.range_succ_eq_map, List.reverse_cons, List.map_append,
        List.map_singleton, Nat.pow_zero, Nat.div_one]

end Positional

namespace Family

theorem segmentMax_succ_eq_two_pow (family : Family) :
    family.segmentMax + 1 = 2 ^ family.segmentBits := by
  rw [segmentMax_succ, Nat.one_shiftLeft]

theorem segmentBits_le (family : Family) : family.segmentBits ≤ 16 := by
  cases family <;> decide

/-- No segment starts beyond the width of an address. -/
theorem mul_segmentBits_lt {family : Family} {place : Nat} (h : place < family.segmentCount) :
    place * family.segmentBits < 128 := by
  have hpos : 0 < family.segmentBits := by cases family <;> decide
  calc place * family.segmentBits
      < family.segmentCount * family.segmentBits := Nat.mul_lt_mul_of_pos_right h hpos
    _ = family.bits := family.bits_eq_mul.symm
    _ ≤ 128 := family.bits_le

end Family

theorem Range.firstSegments_le_lastSegments (range : Range) :
    range.firstSegments ≤ range.lastSegments :=
  (range.segmentBounds false).low_le_high

/-- The segments between those of the bounds of a range are those of its addresses. -/
theorem Range.between_iff_contains_recombine (range : Range) {segments : List Nat}
    
    (hfits : Row.Fits range.family.segmentMax range.family.segmentCount segments) :
    range.firstSegments ≤ segments ∧ segments ≤ range.lastSegments ↔
      range.contains (range.family.recombine segments) = true := by
  rw [contains_iff_segments (Family.recombine_lt hfits), Family.segments_recombine hfits]

namespace Word

/-- A segment moved to the low end of a word and masked out of it is a digit of the address. -/
theorem toNat_segment {family : Family} (address : Word) (place : Nat) :
    ((address >>> (place * family.segmentBits) &&&
        BitVec.ofNat 128 family.segmentMax).setWidth 16).toNat =
      address.toNat / (family.segmentMax + 1) ^ place % (family.segmentMax + 1) := by
  have hbits := family.segmentBits_le
  have hmax : family.segmentMax = 2 ^ family.segmentBits - 1 := by
    rw [← family.segmentMax_succ_eq_two_pow, Nat.add_sub_cancel]
  have hplace : 2 ^ (place * family.segmentBits) = (family.segmentMax + 1) ^ place := by
    rw [family.segmentMax_succ_eq_two_pow, ← Nat.pow_mul, Nat.mul_comm]
  have hmask : (BitVec.ofNat 128 family.segmentMax).toNat = 2 ^ family.segmentBits - 1 := by
    rw [hmax]
    exact toNat_lowBits (hbits.trans (by decide))
  have hfits : address.toNat / (family.segmentMax + 1) ^ place % (family.segmentMax + 1) < 2 ^ 16 :=
    calc _ < family.segmentMax + 1 := Nat.mod_lt _ (Nat.succ_pos _)
      _ = 2 ^ family.segmentBits := family.segmentMax_succ_eq_two_pow
      _ ≤ 2 ^ 16 := Nat.pow_le_pow_right Nat.two_pos hbits
  rw [BitVec.toNat_setWidth, BitVec.toNat_and, BitVec.toNat_ushiftRight, hmask,
    Nat.and_two_pow_sub_one_eq_mod, Nat.shiftRight_eq_div_pow, hplace,
    ← family.segmentMax_succ_eq_two_pow, Nat.mod_eq_of_lt hfits]

/-- Shifts and masks give the segments of an address without a shift by the width of a word. -/
theorem segments?_eq (family : Family) (address : Word) :
    ∃ segments, segments? family address = some segments ∧
      segments.map BitVec.toNat = family.segments address.toNat := by
  refine ⟨(List.range family.segmentCount).reverse.map fun place =>
    (address >>> (place * family.segmentBits) &&&
      BitVec.ofNat 128 family.segmentMax).setWidth 16, ?_, ?_⟩
  · rw [segments?, mapM_eq_some_iff, List.forall₂_map_right_iff, List.forall₂_same]
    intro place hplace
    have hlt := Family.mul_segmentBits_lt (List.mem_range.mp (List.mem_reverse.mp hplace))
    rw [shiftRight?, if_pos hlt]
    rfl
  · rw [List.map_map, Family.segments, Positional.digits_eq_map]
    exact List.map_congr_left fun place _ => toNat_segment address place

end Word

/-- The addresses of a family are in the order of their segments, from which each is read back, and
so the segments between those of the bounds of a range are those of its addresses. No step leaves
the word in which the segments are masked out of an address. -/
theorem segments_are_ordered_as_addresses :
    (∀ (family : Family) (v w : Nat), v < 2 ^ family.bits → w < 2 ^ family.bits →
        (family.segments v).length = family.segmentCount ∧
          (∀ segment ∈ family.segments v, segment ≤ family.segmentMax) ∧
          family.recombine (family.segments v) = v ∧
          (v ≤ w ↔ family.segments v ≤ family.segments w)) ∧
      (∀ (family : Family) (segments : List Nat),
        Row.Fits family.segmentMax family.segmentCount segments →
          family.recombine segments < 2 ^ family.bits ∧
            family.segments (family.recombine segments) = segments) ∧
      (∀ range : Range, range.firstSegments ≤ range.lastSegments ∧
        ∀ segments, Row.Fits range.family.segmentMax range.family.segmentCount segments →
          (range.firstSegments ≤ segments ∧ segments ≤ range.lastSegments ↔
            range.contains (range.family.recombine segments) = true)) ∧
      ∀ (family : Family) (address : Word), ∃ segments,
        Word.segments? family address = some segments ∧
          segments.map BitVec.toNat = family.segments address.toNat := by
  simp only [← Family.size_eq_two_pow]
  refine ⟨fun family v w hv hw => ?_, fun family segments hfits => ?_, fun range => ?_,
    Word.segments?_eq⟩
  · obtain ⟨hlength, hmax⟩ := family.fits_segments v
    exact ⟨hlength, hmax, Family.recombine_segments hv,
      (Family.segments_le_segments_iff hv hw).symm⟩
  · exact ⟨Family.recombine_lt hfits, Family.segments_recombine hfits⟩
  · exact ⟨range.firstSegments_le_lastSegments,
      fun _ => range.between_iff_contains_recombine⟩

/-- Neighbours of which the lower one has the larger last segment, and a range around them. -/
theorem segments_are_ordered_as_addresses_carry :
    0x0a0000ff < 2 ^ Family.v4.bits ∧ 0x0a000100 < 2 ^ Family.v4.bits ∧
      Family.v4.segments 0x0a0000ff ≤ Family.v4.segments 0x0a000100 ∧
      Row.Fits Family.v4.segmentMax Family.v4.segmentCount [10, 0, 0, 255] ∧
      Family.v4.segments (Family.v4.recombine [10, 0, 0, 255]) = [10, 0, 0, 255] ∧
      (⟨.v4, 0x0a0000fe, 0x0a000100, by decide, by decide⟩ : Range).contains
        (Family.v4.recombine [10, 0, 0, 255]) = true := by
  have hlow : 0x0a0000ff < 2 ^ Family.v4.bits := by decide
  have hhigh : 0x0a000100 < 2 ^ Family.v4.bits := by decide
  have hfits : Row.Fits Family.v4.segmentMax Family.v4.segmentCount [10, 0, 0, 255] :=
    ⟨rfl, by decide⟩
  obtain ⟨hvalues, hlists, hranges, -⟩ := segments_are_ordered_as_addresses
  obtain ⟨-, -, -, hordered⟩ := hvalues .v4 _ _ hlow hhigh
  obtain ⟨-, hbetween⟩ := hranges ⟨.v4, 0x0a0000fe, 0x0a000100, by decide, by decide⟩
  exact ⟨hlow, hhigh, hordered.mp (by decide), hfits, (hlists .v4 _ hfits).2,
    (hbetween _ hfits).mp (by decide)⟩

end NetPattern
