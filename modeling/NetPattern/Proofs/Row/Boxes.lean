import Mathlib.Data.List.Forall2
import Mathlib.Data.List.Nodup
import NetPattern.Proofs.Positional

/-!
# Boxes of segments

A row of a decomposed range stands for a box: an interval of segments at each position. The boxes
of a range are found by the same recursion as its rows, and every list of segments in the range
lies in exactly one of them.
-/

namespace NetPattern

/-- The bounds of a range of lists of segments: of one width, with no segment above `top`, and in
order. -/
structure SegmentBounds (top width : Nat) (low high : List Nat) : Prop where
  length_low : low.length = width
  length_high : high.length = width
  low_le_top : ∀ segment ∈ low, segment ≤ top
  high_le_top : ∀ segment ∈ high, segment ≤ top
  low_le_high : low ≤ high

namespace SegmentBounds

variable {top width l h : Nat} {low high : List Nat}

/-- The bounds of the part of a range that begins with the first segment of its lower bound. -/
theorem below (hbounds : SegmentBounds top (width + 1) (l :: low) (h :: high)) :
    SegmentBounds top width low (List.replicate width top) where
  length_low := Nat.succ.inj hbounds.length_low
  length_high := List.length_replicate
  low_le_top := (List.forall_mem_cons.mp hbounds.low_le_top).2
  high_le_top := fun _ hmem => Nat.le_of_eq (List.eq_of_mem_replicate hmem)
  low_le_high :=
    le_replicate (Nat.succ.inj hbounds.length_low) (List.forall_mem_cons.mp hbounds.low_le_top).2

/-- The bounds of the part of a range that begins with the first segment of its upper bound. -/
theorem above (hbounds : SegmentBounds top (width + 1) (l :: low) (h :: high)) :
    SegmentBounds top width (List.replicate width 0) high where
  length_low := List.length_replicate
  length_high := Nat.succ.inj hbounds.length_high
  low_le_top := fun _ hmem => List.eq_of_mem_replicate hmem ▸ Nat.zero_le top
  high_le_top := (List.forall_mem_cons.mp hbounds.high_le_top).2
  low_le_high := replicate_zero_le (Nat.succ.inj hbounds.length_high)

/-- The bounds behind a first segment that both bounds have. -/
theorem tail (hbounds : SegmentBounds top (width + 1) (l :: low) (l :: high)) :
    SegmentBounds top width low high where
  length_low := Nat.succ.inj hbounds.length_low
  length_high := Nat.succ.inj hbounds.length_high
  low_le_top := (List.forall_mem_cons.mp hbounds.low_le_top).2
  high_le_top := (List.forall_mem_cons.mp hbounds.high_le_top).2
  low_le_high := cons_le_cons_self_iff.mp hbounds.low_le_high

theorem first_low_le_top (hbounds : SegmentBounds top width (l :: low) high) : l ≤ top :=
  hbounds.low_le_top l List.mem_cons_self

theorem first_high_le_top (hbounds : SegmentBounds top width low (h :: high)) : h ≤ top :=
  hbounds.high_le_top h List.mem_cons_self

/-- Where the bounds differ in the first segment, that of the lower bound is less. -/
theorem first_lt_of_ne (hbounds : SegmentBounds top width (l :: low) (h :: high)) (hne : l ≠ h) :
    l < h := by
  rcases cons_le_cons_iff.mp hbounds.low_le_high with hlt | ⟨heq, -⟩
  · exact hlt
  · exact absurd heq hne

/-- The bounds behind all segments that both bounds begin with. -/
theorem of_append {common : List Nat}
    (hbounds : SegmentBounds top (common.length + width) (common ++ low) (common ++ high)) :
    SegmentBounds top width low high := by
  induction common with
  | nil => rwa [List.length_nil, Nat.zero_add] at hbounds
  | cons segment common ih =>
      rw [List.length_cons, Nat.add_right_comm] at hbounds
      exact ih hbounds.tail

/-- Whether the bounds of a range leave nothing out. -/
def Full (top : Nat) (low high : List Nat) : Prop :=
  low.all (· = 0) = true ∧ high.all (· = top) = true

instance (top : Nat) (low high : List Nat) : Decidable (Full top low high) :=
  inferInstanceAs (Decidable (_ ∧ _))

theorem full_replicate (top width : Nat) :
    Full top (List.replicate width 0) (List.replicate width top) := by
  simp [Full]

/-- Ranges are taken apart as their rows are: a range of everything is left whole, a segment that
both bounds begin with is split off, and otherwise the first segment divides the range. -/
theorem induction
    {motive : (width : Nat) → (low high : List Nat) → SegmentBounds top width low high → Prop}
    (nil : ∀ hbounds, motive 0 [] [] hbounds)
    (full : ∀ width hbounds, motive (width + 1) (List.replicate (width + 1) 0)
      (List.replicate (width + 1) top) hbounds)
    (same : ∀ width l low high (hbounds : SegmentBounds top (width + 1) (l :: low) (l :: high)),
      ¬ Full top (l :: low) (l :: high) → motive width low high hbounds.tail →
      motive (width + 1) (l :: low) (l :: high) hbounds)
    (split : ∀ width l h low high
      (hbounds : SegmentBounds top (width + 1) (l :: low) (h :: high)),
      ¬ Full top (l :: low) (h :: high) → l < h →
      motive width low (List.replicate width top) hbounds.below →
      motive width (List.replicate width 0) high hbounds.above →
      motive (width + 1) (l :: low) (h :: high) hbounds)
    {width : Nat} {low high : List Nat} (hbounds : SegmentBounds top width low high) :
    motive width low high hbounds := by
  induction width generalizing low high with
  | zero =>
      obtain rfl := List.length_eq_zero_iff.mp hbounds.length_low
      obtain rfl := List.length_eq_zero_iff.mp hbounds.length_high
      exact nil hbounds
  | succ width ih =>
      obtain ⟨l, lows, rfl⟩ := List.exists_cons_of_length_eq_add_one hbounds.length_low
      obtain ⟨h, highs, rfl⟩ := List.exists_cons_of_length_eq_add_one hbounds.length_high
      by_cases hfull : Full top (l :: lows) (h :: highs)
      · have hlow := (all_eq_iff hbounds.length_low).mp hfull.1
        have hhigh := (all_eq_iff hbounds.length_high).mp hfull.2
        simp only [hlow, hhigh] at hbounds ⊢
        exact full width hbounds
      · rcases cons_le_cons_iff.mp hbounds.low_le_high with hlt | ⟨rfl, -⟩
        · exact split width l h lows highs hbounds hfull hlt (ih hbounds.below) (ih hbounds.above)
        · exact same width l lows highs hbounds hfull (ih hbounds.tail)

end SegmentBounds

/-- For each position the least and the largest of the segments there. -/
abbrev Box := List (Nat × Nat)

namespace Box

/-- Whether each of some segments lies in the interval at its position. -/
def Holds (box : Box) (segments : List Nat) : Prop :=
  List.Forall₂ (fun bounds segment => bounds.1 ≤ segment ∧ segment ≤ bounds.2) box segments

instance (box : Box) (segments : List Nat) : Decidable (box.Holds segments) :=
  inferInstanceAs (Decidable (List.Forall₂ _ box segments))

/-- Whether the intervals of a box are not empty and hold no segment above `top`. -/
def Within (top : Nat) (box : Box) : Prop :=
  ∀ bounds ∈ box, bounds.1 ≤ bounds.2 ∧ bounds.2 ≤ top

theorem holds_cons_iff {bounds : Nat × Nat} {box : Box} {segment : Nat} {segments : List Nat} :
    Holds (bounds :: box) (segment :: segments) ↔
      (bounds.1 ≤ segment ∧ segment ≤ bounds.2) ∧ box.Holds segments :=
  List.forall₂_cons

theorem holds_replicate {top : Nat} {segments : List Nat}
    (h : ∀ segment ∈ segments, segment ≤ top) :
    Holds (List.replicate segments.length (0, top)) segments := by
  induction segments with
  | nil => exact .nil
  | cons segment segments ih =>
      obtain ⟨hsegment, hsegments⟩ := List.forall_mem_cons.mp h
      exact .cons ⟨Nat.zero_le _, hsegment⟩ (ih hsegments)

/-- The boxes of the lists of `width` segments between two such lists. -/
def ofRange (top : Nat) : (width : Nat) → (low high : List Nat) → List Box
  | width + 1, l :: low, h :: high =>
      if SegmentBounds.Full top (l :: low) (h :: high) then [List.replicate (width + 1) (0, top)]
      else if l = h then (ofRange top width low high).map ((l, l) :: ·)
      else
        (ofRange top width low (List.replicate width top)).map ((l, l) :: ·) ++
          (if l + 1 < h then [(l + 1, h - 1) :: List.replicate width (0, top)] else []) ++
          (ofRange top width (List.replicate width 0) high).map ((h, h) :: ·)
  | _, _, _ => [[]]

section Equations

variable {top width l h : Nat} {low high : List Nat}

theorem ofRange_full : ofRange top (width + 1) (List.replicate (width + 1) 0)
    (List.replicate (width + 1) top) = [List.replicate (width + 1) (0, top)] :=
  if_pos (SegmentBounds.full_replicate top (width + 1))

theorem ofRange_same (hfull : ¬ SegmentBounds.Full top (l :: low) (l :: high)) :
    ofRange top (width + 1) (l :: low) (l :: high) =
      (ofRange top width low high).map ((l, l) :: ·) := by
  rw [ofRange, if_neg hfull, if_pos rfl]

theorem ofRange_split (hfull : ¬ SegmentBounds.Full top (l :: low) (h :: high)) (hlt : l < h) :
    ofRange top (width + 1) (l :: low) (h :: high) =
      (ofRange top width low (List.replicate width top)).map ((l, l) :: ·) ++
        (if l + 1 < h then [(l + 1, h - 1) :: List.replicate width (0, top)] else []) ++
        (ofRange top width (List.replicate width 0) high).map ((h, h) :: ·) := by
  rw [ofRange, if_neg hfull, if_neg (Nat.ne_of_lt hlt)]

theorem mem_ofRange_split (hfull : ¬ SegmentBounds.Full top (l :: low) (h :: high)) (hlt : l < h)
    {box : Box} :
    box ∈ ofRange top (width + 1) (l :: low) (h :: high) ↔
      (∃ rest ∈ ofRange top width low (List.replicate width top), (l, l) :: rest = box) ∨
        (l + 1 < h ∧ box = (l + 1, h - 1) :: List.replicate width (0, top)) ∨
        ∃ rest ∈ ofRange top width (List.replicate width 0) high, (h, h) :: rest = box := by
  rw [ofRange_split hfull hlt, List.mem_append, List.mem_append, List.mem_map, List.mem_map,
    or_assoc]
  refine or_congr_right (or_congr_left ?_)
  split <;> simp_all

end Equations

section Bounds

variable {top width : Nat} {low high : List Nat}

theorem within_cons {bounds : Nat × Nat} {box : Box} (hle : bounds.1 ≤ bounds.2)
    (htop : bounds.2 ≤ top) (hbox : box.Within top) : Within top (bounds :: box) :=
  List.forall_mem_cons.mpr ⟨⟨hle, htop⟩, hbox⟩

theorem within_replicate : Within top (List.replicate width (0, top)) := by
  intro bounds hmem
  rw [List.eq_of_mem_replicate hmem]
  exact ⟨Nat.zero_le top, Nat.le_refl top⟩

/-- The boxes of a range have an interval for each position, none of them empty. -/
theorem of_mem_ofRange (hbounds : SegmentBounds top width low high) {box : Box}
    (hbox : box ∈ ofRange top width low high) : box.length = width ∧ box.Within top := by
  induction hbounds using SegmentBounds.induction generalizing box with
  | nil hbounds =>
      rw [List.mem_singleton.mp hbox]
      exact ⟨rfl, fun _ hmem => nomatch hmem⟩
  | full width hbounds =>
      rw [ofRange_full] at hbox
      rw [List.mem_singleton.mp hbox]
      exact ⟨List.length_replicate, within_replicate⟩
  | same width l low high hbounds hfull ih =>
      have hl := hbounds.first_low_le_top
      rw [ofRange_same hfull] at hbox
      obtain ⟨rest, hrest, rfl⟩ := List.mem_map.mp hbox
      obtain ⟨hlength, hwithin⟩ := ih hrest
      exact ⟨congrArg Nat.succ hlength, within_cons (Nat.le_refl l) hl hwithin⟩
  | split width l h low high hbounds hfull hlt ihlow ihhigh =>
      have hl := hbounds.first_low_le_top
      have hh := hbounds.first_high_le_top
      rcases (mem_ofRange_split hfull hlt).mp hbox with ⟨rest, hrest, rfl⟩ | ⟨hgap, rfl⟩ |
        ⟨rest, hrest, rfl⟩
      · obtain ⟨hlength, hwithin⟩ := ihlow hrest
        exact ⟨congrArg Nat.succ hlength, within_cons (Nat.le_refl l) hl hwithin⟩
      · have hle : l + 1 ≤ h - 1 := by omega
        have htop : h - 1 ≤ top := by omega
        exact ⟨by simp, within_cons hle htop within_replicate⟩
      · obtain ⟨hlength, hwithin⟩ := ihhigh hrest
        exact ⟨congrArg Nat.succ hlength, within_cons (Nat.le_refl h) hh hwithin⟩

theorem countP_map_cons (bounds : Nat × Nat) (boxes : List Box) (segment : Nat)
    (segments : List Nat) :
    (boxes.map (bounds :: ·)).countP (fun box => decide (Holds box (segment :: segments))) =
      if bounds.1 ≤ segment ∧ segment ≤ bounds.2 then
        boxes.countP fun box => decide (Holds box segments)
      else 0 := by
  rw [List.countP_map]
  split
  next hsegment =>
    apply List.countP_congr
    intro box _
    simp [holds_cons_iff, hsegment]
  next hsegment =>
    apply List.countP_eq_zero.mpr
    intro box _
    simp [holds_cons_iff, hsegment]

/-- A list of segments lies in exactly one box of a range if it is between the bounds, and in
none otherwise. -/
theorem countP_ofRange (hbounds : SegmentBounds top width low high) {segments : List Nat}
    (hlength : segments.length = width) (htop : ∀ segment ∈ segments, segment ≤ top) :
    (ofRange top width low high).countP (fun box => decide (Holds box segments)) =
      if low ≤ segments ∧ segments ≤ high then 1 else 0 := by
  induction hbounds using SegmentBounds.induction generalizing segments with
  | nil hbounds =>
      obtain rfl := List.length_eq_zero_iff.mp hlength
      rfl
  | full width hbounds =>
      have hholds := holds_replicate htop
      rw [hlength] at hholds
      rw [ofRange_full, if_pos ⟨replicate_zero_le hlength, le_replicate hlength htop⟩]
      simp [hholds]
  | same width l low high hbounds hfull ih =>
      obtain ⟨segment, rest, rfl⟩ := List.exists_cons_of_length_eq_add_one hlength
      have hrest := (List.forall_mem_cons.mp htop).2
      have hself : l ≤ segment ∧ segment ≤ l ↔ segment = l := by omega
      rw [ofRange_same hfull, countP_map_cons, ih (Nat.succ.inj hlength) hrest]
      simp only [between_cons_self_iff, hself]
      by_cases hsegment : segment = l <;> simp [hsegment]
  | split width l h low high hbounds hfull hlt ihlow ihhigh =>
      obtain ⟨segment, rest, rfl⟩ := List.exists_cons_of_length_eq_add_one hlength
      have hrest := (List.forall_mem_cons.mp htop).2
      have hlength := Nat.succ.inj hlength
      have hmiddle : (if l + 1 < h then [(l + 1, h - 1) :: List.replicate width (0, top)]
          else []).countP (fun box => decide (Holds box (segment :: rest))) =
            if l < segment ∧ segment < h then 1 else 0 := by
        have hholds := holds_replicate hrest
        rw [hlength] at hholds
        split
        next hgap =>
          simp only [List.countP_singleton, holds_cons_iff, hholds, and_true, decide_eq_true_eq]
          congr 1
          apply propext
          omega
        next hgap =>
          rw [List.countP_nil, if_neg (by omega)]
      rw [ofRange_split hfull hlt, List.countP_append, List.countP_append, countP_map_cons,
        countP_map_cons, ihlow hlength hrest, ihhigh hlength hrest, hmiddle]
      simp only [between_cons_iff hlt, replicate_zero_le hlength, le_replicate hlength hrest]
      -- Exactly one of the three parts can hold a list that begins with this segment.
      rcases Nat.lt_trichotomy segment l with hl | rfl | hl
      · grind
      · grind
      · rcases Nat.lt_trichotomy segment h with hh | rfl | hh <;> grind

theorem holds_lows {box : Box} (hbox : box.Within top) : box.Holds (box.map Prod.fst) := by
  unfold Holds
  rw [List.forall₂_map_right_iff, List.forall₂_same]
  exact fun bounds hmem => ⟨Nat.le_refl _, (hbox bounds hmem).1⟩

/-- No box of a range is repeated, since each holds some segments and no other holds these. -/
theorem nodup_ofRange (hbounds : SegmentBounds top width low high) :
    (ofRange top width low high).Nodup := by
  apply List.nodup_iff_count_le_one.mpr
  intro box
  by_cases hbox : box ∈ ofRange top width low high
  · obtain ⟨hlength, hwithin⟩ := of_mem_ofRange hbounds hbox
    have htop : ∀ segment ∈ box.map Prod.fst, segment ≤ top := by
      intro segment hsegment
      obtain ⟨bounds, hmem, rfl⟩ := List.mem_map.mp hsegment
      exact Nat.le_trans (hwithin bounds hmem).1 (hwithin bounds hmem).2
    -- Another copy of the box would hold its least segments a second time.
    calc (ofRange top width low high).count box
        ≤ (ofRange top width low high).countP
            (fun other => decide (Holds other (box.map Prod.fst))) := by
          apply List.countP_mono_left
          intro other _ hother
          rw [eq_of_beq hother]
          exact decide_eq_true (holds_lows hwithin)
      _ = _ := countP_ofRange hbounds (by rw [List.length_map, hlength]) htop
      _ ≤ 1 := by split <;> omega
  · rw [List.count_eq_zero_of_not_mem hbox]
    exact Nat.zero_le 1

end Bounds

end Box

end NetPattern
