import NetPattern.Proofs.Row.Decomposition

/-!
# Rows in the order of their intervals

A box of a range fixes the segments in front, leaves an interval at one position and anything
behind it, so it is an interval of lists of segments. The boxes come in ascending order, and the
rows with them. At a bound each level of the recursion adds two boxes at most, so their number is
linear in the number of segments.
-/

namespace NetPattern

open Row (Fits)

namespace Box

/-- The least of the lists of segments that a box holds. -/
def least (box : Box) : List Nat :=
  box.map Prod.fst

/-- The largest of the lists of segments that a box holds. -/
def largest (box : Box) : List Nat :=
  box.map Prod.snd

section Interval

variable {top width : Nat} {low high : List Nat}

theorem least_le_largest {box : Box} (h : box.Within top) : box.least ≤ box.largest := by
  induction box with
  | nil => exact nil_le_nil
  | cons bounds box ih =>
      obtain ⟨hbounds, hbox⟩ := List.forall_mem_cons.mp h
      rcases Nat.lt_or_eq_of_le hbounds.1 with hlt | heq
      · exact cons_le_cons_iff.mpr (.inl hlt)
      · exact cons_le_cons_iff.mpr (.inr ⟨heq, ih hbox⟩)

/-- The least and the largest list of a box of a range are bounds again. -/
theorem segmentBounds (hbounds : SegmentBounds top width low high) {box : Box}
    (hbox : box ∈ ofRange top width low high) :
    SegmentBounds top width box.least box.largest := by
  obtain ⟨hlength, hwithin⟩ := of_mem_ofRange hbounds hbox
  refine ⟨?_, ?_, ?_, ?_, least_le_largest hwithin⟩
  · rw [least, List.length_map, hlength]
  · rw [largest, List.length_map, hlength]
  · intro segment hsegment
    obtain ⟨bounds, hmem, rfl⟩ := List.mem_map.mp hsegment
    exact Nat.le_trans (hwithin bounds hmem).1 (hwithin bounds hmem).2
  · intro segment hsegment
    obtain ⟨bounds, hmem, rfl⟩ := List.mem_map.mp hsegment
    exact (hwithin bounds hmem).2

/-- An interval at the first position and anything behind it is an interval of lists. -/
theorem holds_cons_replicate_iff {l h : Nat} {segments : List Nat}
    (hfits : Fits top (width + 1) segments) :
    Holds ((l, h) :: List.replicate width (0, top)) segments ↔
      l :: List.replicate width 0 ≤ segments ∧ segments ≤ h :: List.replicate width top := by
  obtain ⟨segment, rest, rfl⟩ := List.exists_cons_of_length_eq_add_one hfits.1
  have hlength := Nat.succ.inj hfits.1
  have hrest := (List.forall_mem_cons.mp hfits.2).2
  have hholds := holds_replicate hrest
  rw [hlength] at hholds
  simp only [holds_cons_iff, cons_le_cons_iff, hholds, replicate_zero_le hlength,
    le_replicate hlength hrest, and_true]
  omega

/-- One segment in front of an interval of lists leaves it one. -/
theorem holds_cons_self_iff {l : Nat} {rest : Box}
    (hrest : ∀ {segments}, Fits top width segments →
      (rest.Holds segments ↔ rest.least ≤ segments ∧ segments ≤ rest.largest))
    {segments : List Nat} (hfits : Fits top (width + 1) segments) :
    Holds ((l, l) :: rest) segments ↔
      l :: rest.least ≤ segments ∧ segments ≤ l :: rest.largest := by
  obtain ⟨segment, others, rfl⟩ := List.exists_cons_of_length_eq_add_one hfits.1
  rw [holds_cons_iff, between_cons_self_iff,
    hrest ⟨Nat.succ.inj hfits.1, (List.forall_mem_cons.mp hfits.2).2⟩]
  exact and_congr_left fun _ => by omega

/-- A box of a range holds the lists of segments from its least to its largest. -/
theorem holds_iff_between (hbounds : SegmentBounds top width low high) {box : Box}
    (hbox : box ∈ ofRange top width low high) {segments : List Nat}
    (hfits : Fits top width segments) :
    box.Holds segments ↔ box.least ≤ segments ∧ segments ≤ box.largest := by
  induction hbounds using SegmentBounds.induction generalizing box segments with
  | nil hbounds =>
      obtain rfl := List.mem_singleton.mp hbox
      obtain rfl := List.length_eq_zero_iff.mp hfits.1
      exact iff_of_true .nil ⟨nil_le_nil, nil_le_nil⟩
  | full width hbounds =>
      rw [ofRange_full, List.mem_singleton] at hbox
      rw [hbox, least, largest, List.map_replicate, List.map_replicate, List.replicate_succ]
      exact holds_cons_replicate_iff hfits
  | same width l low high hbounds hfull ih =>
      rw [ofRange_same hfull] at hbox
      obtain ⟨rest, hrest, rfl⟩ := List.mem_map.mp hbox
      exact holds_cons_self_iff (ih hrest) hfits
  | split width l h low high hbounds hfull hlt ihlow ihhigh =>
      rcases (mem_ofRange_split hfull hlt).mp hbox with ⟨rest, hrest, rfl⟩ | ⟨-, rfl⟩ |
        ⟨rest, hrest, rfl⟩
      · exact holds_cons_self_iff (ihlow hrest) hfits
      · rw [least, largest, List.map_cons, List.map_cons, List.map_replicate, List.map_replicate]
        exact holds_cons_replicate_iff hfits
      · exact holds_cons_self_iff (ihhigh hrest) hfits

theorem exists_holds_iff (hbounds : SegmentBounds top width low high) {segments : List Nat}
    (hfits : Fits top width segments) :
    (∃ box ∈ ofRange top width low high, box.Holds segments) ↔
      low ≤ segments ∧ segments ≤ high := by
  have hcount := countP_ofRange hbounds hfits.1 hfits.2
  have hpos : 0 < (ofRange top width low high).countP (fun box => decide (Holds box segments)) ↔
      ∃ box ∈ ofRange top width low high, box.Holds segments := by
    simp [List.countP_pos_iff]
  rw [← hpos, hcount]
  split
  next hbetween => exact iff_of_true Nat.one_pos hbetween
  next hbetween => exact iff_of_false (Nat.lt_irrefl 0) hbetween

/-- Whether a box ends before another one begins. -/
def Precedes (first second : Box) : Prop :=
  first.largest < second.least

theorem precedes_cons_of_lt {bounds bounds' : Nat × Nat} (h : bounds.2 < bounds'.1)
    (rest rest' : Box) : Precedes (bounds :: rest) (bounds' :: rest') :=
  List.cons_lt_cons_iff.mpr (.inl h)

theorem pairwise_map_cons {boxes : List Box} (h : boxes.Pairwise Precedes) (segment : Nat) :
    (boxes.map ((segment, segment) :: ·)).Pairwise Precedes :=
  List.pairwise_map.mpr (h.imp fun hprecedes => List.cons_lt_cons_iff.mpr (.inr ⟨rfl, hprecedes⟩))

/-- The boxes of a range ascend: each ends before the next begins. -/
theorem pairwise_ofRange (hbounds : SegmentBounds top width low high) :
    (ofRange top width low high).Pairwise Precedes := by
  induction hbounds using SegmentBounds.induction with
  | nil hbounds => exact List.pairwise_singleton _ _
  | full width hbounds =>
      rw [ofRange_full]
      exact List.pairwise_singleton _ _
  | same width l low high hbounds hfull ih =>
      rw [ofRange_same hfull]
      exact pairwise_map_cons ih l
  | split width l h low high hbounds hfull hlt ihlow ihhigh =>
      have hmiddle : ∀ box ∈ (if l + 1 < h then [(l + 1, h - 1) :: List.replicate width (0, top)]
          else []), box = (l + 1, h - 1) :: List.replicate width (0, top) ∧ l + 1 < h := by
        intro box hbox
        split at hbox
        next hgap => exact ⟨List.mem_singleton.mp hbox, hgap⟩
        next => exact nomatch hbox
      rw [ofRange_split hfull hlt, List.pairwise_append, List.pairwise_append]
      -- Boxes of different parts are told apart by their first segments.
      refine ⟨⟨pairwise_map_cons ihlow l, ?_, ?_⟩, pairwise_map_cons ihhigh h, ?_⟩
      · split
        · exact List.pairwise_singleton _ _
        · exact List.Pairwise.nil
      · intro first hfirst second hsecond
        obtain ⟨rest, -, rfl⟩ := List.mem_map.mp hfirst
        obtain ⟨rfl, -⟩ := hmiddle second hsecond
        exact precedes_cons_of_lt (Nat.lt_succ_self l) _ _
      · intro first hfirst second hsecond
        obtain ⟨after, -, rfl⟩ := List.mem_map.mp hsecond
        rcases List.mem_append.mp hfirst with hbelow | hbetween
        · obtain ⟨rest, -, rfl⟩ := List.mem_map.mp hbelow
          exact precedes_cons_of_lt hlt _ _
        · obtain ⟨rfl, hgap⟩ := hmiddle first hbetween
          exact precedes_cons_of_lt (Nat.sub_lt (by omega) Nat.one_pos) _ _

theorem length_ofRange_full (top width : Nat) :
    (ofRange top width (List.replicate width 0) (List.replicate width top)).length = 1 := by
  cases width with
  | zero => rfl
  | succ width =>
      rw [ofRange_full]
      rfl

/-- A range that leaves nothing out at one bound is split at the other one only: each level adds
its boundary segment and the segments that are free. A range with two bounds is split into two of
these once, behind the segments that both bounds begin with. -/
theorem length_ofRange_le (hbounds : SegmentBounds top width low high) :
    (low = List.replicate width 0 ∨ high = List.replicate width top →
        (ofRange top width low high).length ≤ 2 * width + 1) ∧
      (ofRange top width low high).length ≤ max 1 (4 * width - 1) := by
  induction hbounds using SegmentBounds.induction with
  | nil hbounds => exact ⟨fun _ => Nat.le_refl 1, Nat.le_refl 1⟩
  | full width hbounds =>
      rw [length_ofRange_full]
      omega
  | same width l low high hbounds hfull ih =>
      rw [ofRange_same hfull, List.length_map, List.replicate_succ, List.replicate_succ,
        List.cons.injEq, List.cons.injEq]
      refine ⟨fun hopen => ?_, by omega⟩
      have hrest := ih.1 (hopen.imp And.right And.right)
      omega
  | split width l h low high hbounds hfull hlt ihlow ihhigh =>
      have hmiddle : (if l + 1 < h then [(l + 1, h - 1) :: List.replicate width (0, top)]
          else []).length ≤ 1 := by
        split <;> simp
      have hbelow := ihlow.1 (.inr rfl)
      have habove := ihhigh.1 (.inl rfl)
      rw [ofRange_split hfull hlt, List.length_append, List.length_append, List.length_map,
        List.length_map]
      refine ⟨fun hopen => ?_, by omega⟩
      -- The part at the open bound leaves nothing out behind its first segment.
      rcases hopen with hlow | hhigh
      · obtain ⟨-, rfl⟩ := List.cons.inj hlow
        rw [length_ofRange_full]
        omega
      · obtain ⟨-, rfl⟩ := List.cons.inj hhigh
        rw [length_ofRange_full]
        omega

/-- There are ranges of IPv4 addresses with as many boxes as the bound allows. -/
example : (ofRange 255 4 [0, 0, 0, 1] [255, 255, 255, 254]).length = 15 := by decide

end Interval

end Box

/-- Some intervals of lists of `width` segments, each by its least and its largest, into which the
lists between two bounds are divided in ascending order. -/
structure Divides (top width : Nat) (low high : List Nat)
    (intervals : List (List Nat × List Nat)) : Prop where
  bounds : ∀ interval ∈ intervals, SegmentBounds top width interval.1 interval.2
  ascending : intervals.Pairwise fun first second => first.2 < second.1
  disjoint : intervals.Pairwise fun first second => ∀ segments,
    ¬ ((first.1 ≤ segments ∧ segments ≤ first.2) ∧ second.1 ≤ segments ∧ segments ≤ second.2)
  exists_iff : ∀ segments, Fits top width segments →
    ((∃ interval ∈ intervals, interval.1 ≤ segments ∧ segments ≤ interval.2) ↔
      low ≤ segments ∧ segments ≤ high)

/-- The boxes of a range divide it. -/
theorem Box.divides_ofRange {top width : Nat} {low high : List Nat}
    (hbounds : SegmentBounds top width low high) :
    Divides top width low high
      ((ofRange top width low high).map fun box => (box.least, box.largest)) where
  bounds := by
    intro interval hinterval
    obtain ⟨box, hbox, rfl⟩ := List.mem_map.mp hinterval
    exact segmentBounds hbounds hbox
  ascending := List.pairwise_map.mpr (pairwise_ofRange hbounds)
  disjoint := List.pairwise_map.mpr ((pairwise_ofRange hbounds).imp fun hlt _ hboth =>
    absurd (lt_of_le_of_lt (le_trans hboth.2.1 hboth.1.2) hlt) (lt_irrefl _))
  exists_iff := by
    intro segments hfits
    rw [← exists_holds_iff hbounds hfits]
    simp only [List.mem_map, exists_exists_and_eq_and]
    exact exists_congr fun box => and_congr_right fun hbox =>
      (holds_iff_between hbounds hbox hfits).symm

namespace Row

/-- Whether a row has a fragment for each of `width` segments and matches the written forms of the
lists of segments in an interval, and nothing else. -/
structure StandsFor (family : Family) (leadingZeros : Bool) (width : Nat) (row : Row)
    (interval : List Nat × List Nat) : Prop where
  length_eq : row.length = width
  matches_iff : ∀ ignoreCase, (family = .v6 → ignoreCase = true) → ∀ text,
    (row.render family).matchesWhole ignoreCase text = true ↔
      ∃ segments, Fits (SegmentForm.of family leadingZeros).top width segments ∧
        (interval.1 ≤ segments ∧ segments ≤ interval.2) ∧
          family.WritesSegments leadingZeros segments text

section StandsFor

variable {family : Family} {leadingZeros : Bool} {width : Nat} {low high : List Nat}

theorem standsFor_toRow
    (hbounds : SegmentBounds (SegmentForm.of family leadingZeros).top width low high) {box : Box}
    (hbox : box ∈ Box.ofRange (SegmentForm.of family leadingZeros).top width low high) :
    StandsFor family leadingZeros width (box.toRow (.of family leadingZeros))
      (box.least, box.largest) where
  length_eq := by
    rw [Box.toRow, List.length_map]
    exact (Box.of_mem_ofRange hbounds hbox).1
  matches_iff := by
    intro ignoreCase hcase text
    rw [matches_of_mem_decompose hcase hbounds hbox]
    constructor
    · intro h
      obtain ⟨segments, hholds, hwrites⟩ := h
      have hfits := fits_of_holds hbounds hbox hholds
      exact ⟨segments, hfits, (Box.holds_iff_between hbounds hbox hfits).mp hholds, hwrites⟩
    · intro h
      obtain ⟨segments, hfits, hbetween, hwrites⟩ := h
      exact ⟨segments, (Box.holds_iff_between hbounds hbox hfits).mpr hbetween, hwrites⟩

/-- The rows of a range stand, in order, for intervals into which the range is divided. They are
distinct, so none is dropped as repeated at any level, and their number is bounded by that of the
segments. -/
theorem decompose_divides_range
    (hbounds : SegmentBounds (SegmentForm.of family leadingZeros).top width low high) :
    (∃ intervals, Divides (SegmentForm.of family leadingZeros).top width low high intervals ∧
        List.Forall₂ (StandsFor family leadingZeros width)
          (decompose (.of family leadingZeros) low high) intervals) ∧
      (decompose (.of family leadingZeros) low high).Nodup ∧
      decompose (.of family leadingZeros) low high =
        withRepeats (.of family leadingZeros) width low high ∧
      (width = 0 → (decompose (.of family leadingZeros) low high).length = 1) ∧
      (0 < width → (decompose (.of family leadingZeros) low high).length ≤ 4 * width - 1) := by
  have hrows := decompose_eq_map hbounds
  refine ⟨⟨_, Box.divides_ofRange hbounds, ?_⟩, hrows ▸ nodup_toRow hbounds,
    decompose_eq_withRepeats hbounds, ?_, ?_⟩
  · rw [hrows, List.forall₂_map_left_iff, List.forall₂_map_right_iff, List.forall₂_same]
    exact fun box hbox => standsFor_toRow hbounds hbox
  · intro hzero
    subst hzero
    obtain rfl := List.length_eq_zero_iff.mp hbounds.length_low
    obtain rfl := List.length_eq_zero_iff.mp hbounds.length_high
    rfl
  · intro hpos
    have hle := (Box.length_ofRange_le hbounds).2
    rw [hrows, List.length_map]
    omega

end StandsFor

/-- Bounds that differ in their second segment, with a rest at either end. -/
theorem decompose_divides_range_rests :
    ∃ intervals, Divides 255 4 [10, 0, 0, 5] [10, 3, 0, 9] intervals ∧
      List.Forall₂ (StandsFor .v4 true 4)
        (decompose (.octet true) [10, 0, 0, 5] [10, 3, 0, 9]) intervals ∧
      (decompose (.octet true) [10, 0, 0, 5] [10, 3, 0, 9]).Nodup ∧
      (decompose (.octet true) [10, 0, 0, 5] [10, 3, 0, 9]).length ≤ 15 := by
  have hbounds : SegmentBounds 255 4 [10, 0, 0, 5] [10, 3, 0, 9] :=
    ⟨rfl, rfl, by decide, by decide, by decide⟩
  obtain ⟨⟨intervals, hdivides, hrows⟩, hnodup, -, -, hlength⟩ :=
    @decompose_divides_range .v4 true 4 _ _ hbounds
  exact ⟨intervals, hdivides, hrows, hnodup, hlength (by decide)⟩

end Row

end NetPattern
