import NetPattern.Proofs.Distinct
import NetPattern.Proofs.Fragment.Octet
import NetPattern.Proofs.Row.Boxes
import NetPattern.Proofs.Row.Language

/-!
# Rows of a range

The rows that a range is decomposed into are those of its boxes. A written form of some segments is
taken by one row if the segments lie in the range, and no row takes anything else.
-/

namespace NetPattern

namespace Box

/-- The row of a box. -/
def toRow (form : SegmentForm) (box : Box) : Row :=
  box.map fun bounds => form.fragment bounds.1 bounds.2

theorem toRow_injective {form : SegmentForm} {first second : Box} (hfirst : first.Within form.top)
    (hsecond : second.Within form.top) (heq : first.toRow form = second.toRow form) :
    first = second := by
  induction first generalizing second with
  | nil => exact (List.map_eq_nil_iff.mp heq.symm).symm
  | cons bounds first ih =>
      cases second with
      | nil => exact nomatch heq
      | cons bounds' second =>
          obtain ⟨hbounds, hfirst⟩ := List.forall_mem_cons.mp hfirst
          obtain ⟨hbounds', hsecond⟩ := List.forall_mem_cons.mp hsecond
          obtain ⟨hfragment, hrest⟩ := List.cons.inj heq
          have hsame := SegmentForm.fragment_injective hbounds.1 hbounds.2 hbounds'.1 hbounds'.2
            hfragment
          rw [ih hfirst hsecond hrest, Prod.ext hsame.1 hsame.2]

end Box

namespace Row

theorem anything_eq_toRow (form : SegmentForm) (width : Nat) :
    anything form width = Box.toRow form (List.replicate width (0, form.top)) := by
  rw [anything, Box.toRow, List.map_replicate, form.any_eq_fragment]

theorem nodup_toRow {form : SegmentForm} {width : Nat} {low high : List Nat}
    (hbounds : SegmentBounds form.top width low high) :
    ((Box.ofRange form.top width low high).map (Box.toRow form)).Nodup := by
  apply List.Nodup.map_on _ (Box.nodup_ofRange hbounds)
  intro first hfirst second hsecond heq
  exact Box.toRow_injective (Box.of_mem_ofRange hbounds hfirst).2
    (Box.of_mem_ofRange hbounds hsecond).2 heq

section Equations

variable {m : Type → Type} [Monad m] (fragment : Nat → Nat → m Fragment)
  {form : SegmentForm} {width l h : Nat} {low high : List Nat}

theorem decomposeWith_full (hfull : SegmentBounds.Full form.top (l :: low) (h :: high)) :
    decomposeWith fragment form (width + 1) (l :: low) (h :: high) =
      pure [anything form (width + 1)] := by
  rw [decomposeWith]
  exact if_pos hfull

theorem decomposeWith_same (hfull : ¬ SegmentBounds.Full form.top (l :: low) (l :: high)) :
    decomposeWith fragment form (width + 1) (l :: low) (l :: high) = (do
      let only ← fragment l l
      let rows ← decomposeWith fragment form width low high
      pure (rows.map (only :: ·))) := by
  rw [decomposeWith]
  exact (if_neg hfull).trans (if_pos rfl)

theorem decomposeWith_split (hfull : ¬ SegmentBounds.Full form.top (l :: low) (h :: high))
    (hne : l ≠ h) :
    decomposeWith fragment form (width + 1) (l :: low) (h :: high) = (do
      let lowest ← fragment l l
      let below ← decomposeWith fragment form width low (List.replicate width form.top)
      let middle ←
        if l + 1 < h then do
          let between ← fragment (l + 1) (h - 1)
          pure [between :: anything form width]
        else pure []
      let highest ← fragment h h
      let above ← decomposeWith fragment form width (List.replicate width 0) high
      pure (below.map (lowest :: ·) ++ middle ++ above.map (highest :: ·)).eraseDups) := by
  rw [decomposeWith]
  exact (if_neg hfull).trans (if_neg hne)

variable (form width l h low high)

/-- The rows of the lists of `width` segments between two such lists, as long as the lists are. -/
def ofBounds : List Row :=
  Id.run (decomposeWith (form.fragmentWith Fragment.freshHextets) form width low high)

theorem ofBounds_cons : ofBounds form (width + 1) (l :: low) (h :: high) =
    if SegmentBounds.Full form.top (l :: low) (h :: high) then [anything form (width + 1)]
    else if l = h then (ofBounds form width low high).map (form.fragment l l :: ·)
    else
      ((ofBounds form width low (List.replicate width form.top)).map (form.fragment l l :: ·) ++
        (if l + 1 < h then [form.fragment (l + 1) (h - 1) :: anything form width] else []) ++
        (ofBounds form width (List.replicate width 0) high).map
          (form.fragment h h :: ·)).eraseDups := by
  unfold ofBounds
  by_cases hfull : SegmentBounds.Full form.top (l :: low) (h :: high)
  · rw [if_pos hfull, decomposeWith_full _ hfull]
    rfl
  rw [if_neg hfull]
  by_cases hsame : l = h
  · subst hsame
    rw [if_pos rfl, decomposeWith_same _ hfull]
    rfl
  · rw [if_neg hsame, decomposeWith_split _ hfull hsame]
    by_cases hgap : l + 1 < h <;> simp only [hgap, if_true, if_false] <;> rfl

end Equations

/-- The rows of the lists of `width` segments between two such lists, put together in the same way
but without a look for repeated rows. -/
def withRepeats (form : SegmentForm) : (width : Nat) → (low high : List Nat) → List Row
  | width + 1, l :: low, h :: high =>
      if SegmentBounds.Full form.top (l :: low) (h :: high) then [anything form (width + 1)]
      else if l = h then (withRepeats form width low high).map (form.fragment l l :: ·)
      else
        (withRepeats form width low (List.replicate width form.top)).map (form.fragment l l :: ·) ++
          (if l + 1 < h then [form.fragment (l + 1) (h - 1) :: anything form width] else []) ++
          (withRepeats form width (List.replicate width 0) high).map (form.fragment h h :: ·)
  | _, _, _ => [[]]

/-- The rows of a range are those of its boxes, in order. -/
theorem withRepeats_eq_map (form : SegmentForm) (width : Nat) (low high : List Nat) :
    withRepeats form width low high =
      (Box.ofRange form.top width low high).map (Box.toRow form) := by
  have hcons : ∀ (bounds : Nat × Nat) (boxes : List Box),
      (boxes.map (Box.toRow form)).map (form.fragment bounds.1 bounds.2 :: ·) =
        (boxes.map (bounds :: ·)).map (Box.toRow form) := by
    intro bounds boxes
    rw [List.map_map, List.map_map]
    rfl
  fun_induction Box.ofRange form.top width low high with
  | case1 width l low h high hfull =>
      rw [withRepeats, if_pos hfull, anything_eq_toRow]
      rfl
  | case2 width low segment high hfull ih =>
      rw [withRepeats, if_neg hfull, if_pos rfl, ih, hcons (segment, segment)]
  | case3 width l low h high hfull hne ihlow ihhigh =>
      rw [withRepeats, if_neg hfull, if_neg hne, ihlow, ihhigh, hcons (l, l), hcons (h, h),
        List.map_append, List.map_append, apply_ite (List.map (Box.toRow form)),
        anything_eq_toRow]
      rfl
  | case4 width low high hnone =>
      rw [withRepeats]
      · rfl
      · exact hnone

/-- No row of a range is dropped as repeated. -/
theorem ofBounds_eq_withRepeats {form : SegmentForm} {width : Nat} {low high : List Nat}
    (hbounds : SegmentBounds form.top width low high) :
    ofBounds form width low high = withRepeats form width low high := by
  induction hbounds using SegmentBounds.induction with
  | nil hbounds => rfl
  | full width hbounds =>
      have hfull := SegmentBounds.full_replicate form.top (width + 1)
      rw [List.replicate_succ, List.replicate_succ] at hfull ⊢
      rw [ofBounds_cons, withRepeats, if_pos hfull, if_pos hfull]
  | same width l low high hbounds hfull ih =>
      rw [ofBounds_cons, withRepeats, if_neg hfull, if_neg hfull, if_pos rfl, if_pos rfl, ih]
  | split width l h low high hbounds hfull hlt ihlow ihhigh =>
      -- The rows of the parts are distinct, as different boxes have different rows.
      have hnodup := nodup_toRow hbounds
      rw [← withRepeats_eq_map, withRepeats, if_neg hfull, if_neg (Nat.ne_of_lt hlt)] at hnodup
      rw [ofBounds_cons, withRepeats, if_neg hfull, if_neg hfull, if_neg (Nat.ne_of_lt hlt),
        if_neg (Nat.ne_of_lt hlt), ihlow, ihhigh, eraseDups_eq_self hnodup]

theorem decompose_eq_withRepeats {form : SegmentForm} {width : Nat} {low high : List Nat}
    (hbounds : SegmentBounds form.top width low high) :
    decompose form low high = withRepeats form width low high := by
  rw [← ofBounds_eq_withRepeats hbounds, ← hbounds.length_low]
  rfl

theorem decompose_eq_map {form : SegmentForm} {width : Nat} {low high : List Nat}
    (hbounds : SegmentBounds form.top width low high) :
    decompose form low high = (Box.ofRange form.top width low high).map (Box.toRow form) := by
  rw [decompose_eq_withRepeats hbounds, withRepeats_eq_map]

/-- The rows of a range have a fragment for each segment. -/
theorem width_decompose {form : SegmentForm} {width : Nat} {low high : List Nat}
    (hbounds : SegmentBounds form.top width low high) :
    ∀ row ∈ decompose form low high, row.length = width := by
  intro row hrow
  rw [decompose_eq_map hbounds] at hrow
  obtain ⟨box, hbox, rfl⟩ := List.mem_map.mp hrow
  rw [Box.toRow, List.length_map]
  exact (Box.of_mem_ofRange hbounds hbox).1

end Row

section Language

variable {family : Family} {leadingZeros ignoreCase : Bool}

theorem Family.eq_v6_of_hextet (h : SegmentForm.of family leadingZeros = .hextet) :
    family = .v6 := by
  cases family with
  | v4 => exact nomatch h
  | v6 => rfl

namespace Box

theorem toRow_isSingle {form : SegmentForm} {box : Box} (hbox : box.Within form.top) :
    ∀ fragment ∈ box.toRow form, fragment.IsSingle := by
  intro fragment hfragment
  obtain ⟨bounds, hmem, rfl⟩ := List.mem_map.mp hfragment
  exact (form.denotes_fragment (fun _ => rfl) (hbox bounds hmem).1 (hbox bounds hmem).2).isSingle

theorem forall₂_toRow_iff (hcase : family = .v6 → ignoreCase = true) {box : Box}
    (hbox : box.Within (SegmentForm.of family leadingZeros).top) (parts : List (List Char)) :
    List.Forall₂ (fun fragment part => Fragment.matchesWhole ignoreCase fragment part = true)
        (box.toRow (.of family leadingZeros)) parts ↔
      ∃ segments, box.Holds segments ∧
        List.Forall₂ (SegmentForm.of family leadingZeros).Writes segments parts := by
  unfold toRow
  rw [List.forall₂_map_left_iff]
  induction box generalizing parts with
  | nil => simp [Holds]
  | cons bounds box ih =>
      obtain ⟨hbounds, hbox⟩ := List.forall_mem_cons.mp hbox
      have hfragment := ((SegmentForm.of family leadingZeros).denotes_fragment
        (fun h => hcase (Family.eq_v6_of_hextet h)) hbounds.1 hbounds.2).matches_iff
      simp only [List.forall₂_cons_left_iff, ih hbox, hfragment, Holds]
      constructor
      · intro h
        obtain ⟨part, rest, ⟨v, hlow, hhigh, hv⟩, ⟨segments, hsegments, hrest⟩, rfl⟩ := h
        exact ⟨v :: segments, ⟨v, segments, ⟨hlow, hhigh⟩, hsegments, rfl⟩, .cons hv hrest⟩
      · intro h
        obtain ⟨_, ⟨v, segments, hv, hsegments, rfl⟩, hwrites⟩ := h
        cases hwrites with
        | cons hpart hrest =>
            exact ⟨_, _, ⟨v, hv.1, hv.2, hpart⟩, ⟨segments, hsegments, hrest⟩, rfl⟩

/-- The row of a box matches the written forms of the segments that the box holds. -/
theorem matches_toRow_iff (hcase : family = .v6 → ignoreCase = true) {box : Box}
    (hbox : box.Within (SegmentForm.of family leadingZeros).top) (text : List Char) :
    (box.toRow (.of family leadingZeros)).Matches family ignoreCase text ↔
      ∃ segments, box.Holds segments ∧ family.WritesSegments leadingZeros segments text := by
  unfold Row.Matches Family.WritesSegments
  simp only [forall₂_toRow_iff hcase hbox]
  constructor
  · intro h
    obtain ⟨parts, htext, segments, hholds, hwrites⟩ := h
    exact ⟨segments, hholds, parts, htext, hwrites⟩
  · intro h
    obtain ⟨segments, hholds, parts, htext, hwrites⟩ := h
    exact ⟨parts, htext, segments, hholds, hwrites⟩

end Box

namespace Row

/-- Segments of an address, as far as their number and their size go. -/
def Fits (top width : Nat) (segments : List Nat) : Prop :=
  segments.length = width ∧ ∀ segment ∈ segments, segment ≤ top

theorem matches_of_mem_decompose (hcase : family = .v6 → ignoreCase = true) {width : Nat}
    {low high : List Nat}
    (hbounds : SegmentBounds (SegmentForm.of family leadingZeros).top width low high) {box : Box}
    (hbox : box ∈ Box.ofRange (SegmentForm.of family leadingZeros).top width low high)
    (text : List Char) :
    ((box.toRow (.of family leadingZeros)).render family).matchesWhole ignoreCase text = true ↔
      ∃ segments, box.Holds segments ∧ family.WritesSegments leadingZeros segments text := by
  have hwithin := (Box.of_mem_ofRange hbounds hbox).2
  rw [matchesWhole_render_iff (Box.toRow_isSingle hwithin), Box.matches_toRow_iff hcase hwithin]

theorem fits_of_holds {top width : Nat} {low high : List Nat}
    (hbounds : SegmentBounds top width low high) {box : Box}
    (hbox : box ∈ Box.ofRange top width low high) {segments : List Nat}
    (hholds : box.Holds segments) : Fits top width segments := by
  obtain ⟨hlength, hwithin⟩ := Box.of_mem_ofRange hbounds hbox
  refine ⟨hholds.length_eq ▸ hlength, ?_⟩
  clear hbox hlength
  induction hholds with
  | nil => exact fun _ hmem => nomatch hmem
  | cons hsegment _ ih =>
      obtain ⟨hbounds', hrest⟩ := List.forall_mem_cons.mp hwithin
      exact List.forall_mem_cons.mpr ⟨Nat.le_trans hsegment.2 hbounds'.2, ih hrest⟩

/-- A written form of some segments is taken by one row if they lie between the bounds, and
otherwise by none. -/
theorem matchCount_decompose_of_writes (hcase : family = .v6 → ignoreCase = true) {width : Nat}
    {low high : List Nat}
    (hbounds : SegmentBounds (SegmentForm.of family leadingZeros).top width low high)
    {segments : List Nat} (hfits : Fits (SegmentForm.of family leadingZeros).top width segments)
    {text : List Char} (hwrites : family.WritesSegments leadingZeros segments text) :
    matchCount family ignoreCase (decompose (.of family leadingZeros) low high) text =
      if low ≤ segments ∧ segments ≤ high then 1 else 0 := by
  rw [← Box.countP_ofRange hbounds hfits.1 hfits.2, matchCount, decompose_eq_map hbounds,
    List.countP_map]
  apply List.countP_congr
  intro box hbox
  rw [Function.comp_apply, matches_of_mem_decompose hcase hbounds hbox, decide_eq_true_eq]
  constructor
  · intro h
    -- The box may hold other segments at first sight, but a text writes one row of segments.
    obtain ⟨others, hholds, hothers⟩ := h
    have hfits' := fits_of_holds hbounds hbox hholds
    rw [← Family.segmentMax_eq_top] at hfits hfits'
    rw [Family.WritesSegments.unique (hfits.1.trans hfits'.1.symm) hfits.2 hfits'.2 hwrites hothers]
    exact hholds
  · intro hholds
    exact ⟨segments, hholds, hwrites⟩

/-- A text that is no written form of any segments is taken by no row. -/
theorem matchCount_decompose_eq_zero (hcase : family = .v6 → ignoreCase = true) {width : Nat}
    {low high : List Nat}
    (hbounds : SegmentBounds (SegmentForm.of family leadingZeros).top width low high)
    {text : List Char}
    (hnone : ∀ segments, Fits (SegmentForm.of family leadingZeros).top width segments →
      ¬ family.WritesSegments leadingZeros segments text) :
    matchCount family ignoreCase (decompose (.of family leadingZeros) low high) text = 0 := by
  rw [matchCount, decompose_eq_map hbounds, List.countP_map, List.countP_eq_zero]
  intro box hbox hmatches
  obtain ⟨segments, hholds, hwrites⟩ :=
    (matches_of_mem_decompose hcase hbounds hbox text).mp hmatches
  exact hnone segments (fits_of_holds hbounds hbox hholds) hwrites

end Row

end Language

end NetPattern
