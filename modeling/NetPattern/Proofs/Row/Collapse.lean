import NetPattern.Proofs.Row.Merge

/-!
# Collapsing as a loop

Rows are merged in passes over their positions, and each pass but the last leaves fewer rows. A
pass that merges nothing finds rows of which no two differ at one position only, and these are
left as they are by any further pass. All of this rests on which rows are equal, whatever their
fragments are; where the fragments are expressions, the loop also keeps what the rows match.
-/

namespace NetPattern.Row

section Settled

variable {position width : Nat} {rows : List Row}

theorem blankAt_mergedRow {blank : Row} (hblank : blank ∈ rows.map (·.blankAt position)) :
    (mergedRow position rows blank).blankAt position = blank := by
  obtain ⟨row, -, rfl⟩ := List.mem_map.mp hblank
  rw [mergedRow_blankAt]
  exact List.set_set ..

/-- Merged rows are distinct, as each still shows the rows that it replaces. -/
theorem nodup_mergeAt (position : Nat) (rows : List Row) : (mergeAt position rows).1.Nodup := by
  rw [mergeAt_eq_map]
  apply List.Nodup.map_on _ (nodup_eraseDups _)
  intro first hfirst second hsecond heq
  rw [← blankAt_mergedRow (List.mem_eraseDups.mp hfirst), heq,
    blankAt_mergedRow (List.mem_eraseDups.mp hsecond)]

/-- Where distinct rows are not merged, no two of them agree at all other positions. -/
theorem nodup_blankAt_of_unmerged (hnodup : rows.Nodup) (h : (mergeAt position rows).2 = false) :
    (rows.map (·.blankAt position)).Nodup := by
  apply List.Nodup.map_on _ hnodup
  intro first hfirst second hsecond heq
  have hblank : first.blankAt position ∈ (rows.map (·.blankAt position)).eraseDups :=
    List.mem_eraseDups.mpr (List.mem_map_of_mem hfirst)
  have hfew : (variants position rows (first.blankAt position)).length ≤ 1 := by
    simpa using List.any_eq_false.mp h _ hblank
  have hone : first.fragmentAt position ∈ variants position rows (first.blankAt position) :=
    mem_variants.mpr ⟨first, hfirst, rfl, rfl⟩
  have hother : second.fragmentAt position ∈ variants position rows (first.blankAt position) :=
    mem_variants.mpr ⟨second, hsecond, heq.symm, rfl⟩
  obtain ⟨fragment, hvariants⟩ :=
    List.length_eq_one_iff.mp (Nat.le_antisymm hfew (List.length_pos_of_mem hone))
  rw [hvariants, List.mem_singleton] at hone hother
  exact eq_of_blankAt_of_fragmentAt heq (hone.trans hother.symm)

/-- Whether nothing is left to merge: the rows are distinct, and no two of them agree everywhere
but at one of the first `width` positions. -/
structure Settled (width : Nat) (rows : List Row) : Prop where
  nodup : rows.Nodup
  nodup_blankAt : ∀ position < width, (rows.map (·.blankAt position)).Nodup

/-- A pass over settled rows changes nothing. -/
theorem Settled.mergePass_eq (h : Settled width rows) : mergePass width rows = (rows, false) := by
  induction width with
  | zero => rfl
  | succ width ih =>
      have hbefore : Settled width rows :=
        ⟨h.nodup, fun position hlt => h.nodup_blankAt position (Nat.lt_succ_of_lt hlt)⟩
      rw [mergePass_succ, ih hbefore,
        mergeAt_of_nodup (h.nodup_blankAt width (Nat.lt_succ_self width))]
      rfl

theorem Settled.settle_eq (h : Settled width rows) : settle width rows = rows := by
  rw [Row.settle_eq, h.mergePass_eq]
  rfl

theorem settled_singleton (width : Nat) (row : Row) : Settled width [row] :=
  ⟨List.nodup_singleton row, fun _ _ => List.nodup_singleton _⟩

/-- Distinct rows of which a pass merges none are settled. -/
theorem settled_of_mergePass (hnodup : rows.Nodup) (h : (mergePass width rows).2 = false) :
    Settled width rows := by
  induction width with
  | zero => exact ⟨hnodup, fun _ hlt => absurd hlt (Nat.not_lt_zero _)⟩
  | succ width ih =>
      rw [mergePass_succ, Bool.or_eq_false_iff] at h
      -- The positions before found nothing to merge, so the last one sees the rows themselves.
      have hbefore := ih h.1
      have hlast := h.2
      rw [hbefore.mergePass_eq] at hlast
      refine ⟨hnodup, fun position hlt => ?_⟩
      rcases Nat.lt_succ_iff_lt_or_eq.mp hlt with hlt | rfl
      · exact hbefore.nodup_blankAt position hlt
      · exact nodup_blankAt_of_unmerged hnodup hlast

end Settled

section Loop

variable {width : Nat} {rows : List Row}

/-- Passes over the first `width` positions stop, after a number of them and with a result: each
but the last merges some rows, and the last merges none. -/
inductive StopsAfter (width : Nat) : (passes : Nat) → (rows result : List Row) → Prop
  | last {rows : List Row} (h : (mergePass width rows).2 = false) :
      StopsAfter width 1 rows (mergePass width rows).1
  | more {passes : Nat} {rows result : List Row} (h : (mergePass width rows).2 = true)
      (hnext : StopsAfter width passes (mergePass width rows).1 result) :
      StopsAfter width (passes + 1) rows result

theorem mergeAt_ne_nil (position : Nat) (h : rows ≠ []) : (mergeAt position rows).1 ≠ [] := by
  obtain ⟨row, hrow⟩ := List.exists_mem_of_ne_nil rows h
  exact List.ne_nil_of_mem (mem_mergeAt.mpr ⟨row, hrow, rfl⟩)

/-- There are no more passes than rows, or one where there are no rows. -/
theorem exists_stopsAfter_settle (width : Nat) (rows : List Row) :
    ∃ passes ≤ max 1 rows.length, StopsAfter width passes rows (settle width rows) := by
  induction rows using settle.induct width with
  | case1 rows next hmerged hless ih =>
      obtain ⟨passes, hpasses, hstops⟩ := ih
      -- Some row is left of those that were merged, so the bound for the rest is their number.
      have hne : (mergePass width rows).1 ≠ [] := by
        apply mergePass_induction (motive := (· ≠ [])) (fun _ _ => mergeAt_ne_nil _)
        exact List.ne_nil_of_length_pos (Nat.zero_lt_of_lt hless)
      rw [Nat.max_eq_right (List.length_pos_of_ne_nil hne)] at hpasses
      have hbound : passes + 1 ≤ rows.length := Nat.lt_of_le_of_lt hpasses hless
      refine ⟨passes + 1, hbound.trans (Nat.le_max_right _ _), ?_⟩
      rw [settle_eq, if_pos hmerged]
      exact .more hmerged hstops
  | case2 rows next hmerged =>
      rw [settle_eq, if_neg hmerged]
      exact ⟨1, Nat.le_max_left _ _, .last (Bool.eq_false_iff.mpr hmerged)⟩

/-- Where passes stop, nothing is left to merge. -/
theorem StopsAfter.settled {passes : Nat} {result : List Row}
    (h : StopsAfter width passes rows result) (hnodup : rows.Nodup) : Settled width result := by
  induction h with
  | last h =>
      have hsettled := settled_of_mergePass hnodup h
      rwa [hsettled.mergePass_eq]
  | more _ _ ih =>
      exact ih (mergePass_induction (fun position rows _ => nodup_mergeAt position rows) width
        hnodup)

/-- The number of positions at which rows are merged, that of the fragments of the first row. -/
def firstWidth (rows : List Row) : Nat :=
  rows.head?.elim 0 List.length

/-- The first of the merged rows stands for the first row, and it is as long. -/
theorem firstWidth_mergeAt (position : Nat) (rows : List Row) :
    firstWidth (mergeAt position rows).1 = firstWidth rows := by
  cases rows with
  | nil => rfl
  | cons row rows =>
      rw [mergeAt_eq_map, List.map_cons, List.eraseDups_cons, List.map_cons]
      simp [firstWidth, mergedRow, blankAt]

theorem firstWidth_collapse (rows : List Row) : firstWidth (collapse rows) = firstWidth rows := by
  apply collapse_induction (motive := (firstWidth · = firstWidth rows))
  · exact fun position _ h => (firstWidth_mergeAt position _).trans h
  · cases rows with
    | nil => rfl
    | cons row rows =>
        rw [List.eraseDups_cons]
        rfl

theorem settled_collapse (rows : List Row) : Settled (firstWidth rows) (collapse rows) := by
  obtain ⟨passes, -, hstops⟩ := exists_stopsAfter_settle (firstWidth rows) rows.eraseDups
  exact hstops.settled (nodup_eraseDups rows)

theorem Settled.collapse_eq (h : Settled (firstWidth rows) rows) : collapse rows = rows := by
  rw [collapse, eraseDups_eq_self h.nodup]
  exact h.settle_eq

/-- Whether two rows of one length agree everywhere but perhaps at a position. -/
structure AgreeOff (position : Nat) (first second : Row) : Prop where
  length_eq : first.length = second.length
  eq_of_ne : ∀ other ≠ position, first[other]? = second[other]?

/-- Rows agree elsewhere where what they have elsewhere is the same. -/
theorem agreeOff_iff_blankAt_eq {position : Nat} {first second : Row} :
    AgreeOff position first second ↔ first.blankAt position = second.blankAt position := by
  unfold blankAt
  constructor
  · intro h
    apply List.ext_getElem?
    intro other
    rw [List.getElem?_set, List.getElem?_set, h.length_eq]
    split
    · rfl
    next hne => exact h.eq_of_ne other (Ne.symm hne)
  · intro h
    refine ⟨by simpa using congrArg List.length h, fun other hne => ?_⟩
    rw [← List.getElem?_set_ne hne.symm, h, List.getElem?_set_ne hne.symm]

instance (position : Nat) (first second : Row) : Decidable (AgreeOff position first second) :=
  decidable_of_iff _ agreeOff_iff_blankAt_eq.symm

/-- Whether two rows of one length differ at a position and agree at every other one. -/
structure DifferOnlyAt (position : Nat) (first second : Row) : Prop where
  length_eq : first.length = second.length
  ne : first[position]? ≠ second[position]?
  eq_of_ne : ∀ other ≠ position, first[other]? = second[other]?

theorem DifferOnlyAt.blankAt_eq {position : Nat} {first second : Row}
    (h : DifferOnlyAt position first second) :
    first.blankAt position = second.blankAt position :=
  agreeOff_iff_blankAt_eq.mp ⟨h.length_eq, h.eq_of_ne⟩

theorem Settled.not_differOnlyAt (h : Settled width rows) {position : Nat}
    (hposition : position < width) {first second : Row} (hfirst : first ∈ rows)
    (hsecond : second ∈ rows) : ¬ DifferOnlyAt position first second := by
  intro hdiffer
  apply hdiffer.ne
  rw [List.inj_on_of_nodup_map (h.nodup_blankAt position hposition) hfirst hsecond
    hdiffer.blankAt_eq]

/-- Collapsing stops after no more passes than there are distinct rows, at rows that are distinct
and of which no two differ at one position only. Collapsed again, these are left as they are. -/
theorem collapse_stops_at_fixed_point (rows : List Row) :
    (∃ passes ≤ max 1 rows.eraseDups.length,
        StopsAfter (firstWidth rows) passes rows.eraseDups (collapse rows)) ∧
      (collapse rows).Nodup ∧
      (∀ position < firstWidth rows, ∀ first ∈ collapse rows, ∀ second ∈ collapse rows,
        ¬ DifferOnlyAt position first second) ∧
      collapse (collapse rows) = collapse rows := by
  have hsettled := settled_collapse rows
  refine ⟨exists_stopsAfter_settle (firstWidth rows) rows.eraseDups, hsettled.nodup, ?_, ?_⟩
  · intro position hposition first hfirst second hsecond
    exact hsettled.not_differOnlyAt hposition hfirst hsecond
  · rw [← firstWidth_collapse] at hsettled
    exact hsettled.collapse_eq

end Loop

section Language

variable {width : Nat} {rows : List Row}

theorem length_collapse_le (rows : List Row) :
    (collapse rows).length ≤ rows.eraseDups.length :=
  collapse_induction (motive := fun middle => middle.length ≤ rows.eraseDups.length)
    (fun position middle h => (length_mergeAt_le position middle).trans h) (Nat.le_refl _)

theorem width_mergeAt (position : Nat) (h : ∀ row ∈ rows, row.length = width) :
    ∀ row ∈ (mergeAt position rows).1, row.length = width := by
  intro merged hmerged
  obtain ⟨row, hrow, rfl⟩ := mem_mergeAt.mp hmerged
  rw [mergedRow_blankAt, List.length_set]
  exact h row hrow

/-- Collapsing changes nothing in what some row matches and leaves no more rows than there were
distinct ones, with as many fragments each and none that needs a group around it. Where no two of
the distinct rows match a text, no two of the collapsed rows do. -/
theorem collapse_keeps_language (hwidth : ∀ row ∈ rows, row.length = width)
    (hsingle : AllSingle rows) :
    (∀ family ignoreCase text,
        (∃ row ∈ collapse rows, (row.render family).matchesWhole ignoreCase text = true) ↔
          ∃ row ∈ rows, (row.render family).matchesWhole ignoreCase text = true) ∧
      (collapse rows).length ≤ rows.eraseDups.length ∧
      (∀ row ∈ collapse rows, row.length = width) ∧
      AllSingle (collapse rows) ∧
      ∀ family ignoreCase,
        (∀ text, matchCount family ignoreCase rows.eraseDups text ≤ 1) →
          ∀ text, matchCount family ignoreCase (collapse rows) text ≤ 1 := by
  have hreplaces := collapse_replaces hsingle
  refine ⟨?_, length_collapse_le rows, ?_, hreplaces.allSingle, ?_⟩
  · intro family ignoreCase text
    have hpos := hreplaces.matchCount_pos_iff family ignoreCase text
    rwa [matchCount, matchCount, List.countP_pos_iff, List.countP_pos_iff] at hpos
  · apply collapse_induction (motive := fun rows => ∀ row ∈ rows, row.length = width)
    · exact fun position _ => width_mergeAt position
    · exact fun row hrow => hwidth row (List.mem_eraseDups.mp hrow)
  · intro family ignoreCase hone text
    exact ((collapse_replaces_eraseDups hsingle).matchCount_le family ignoreCase text).trans
      (hone text)

/-- Two rows that are merged, one of them given twice and one with a union already. -/
theorem collapse_keeps_language_of_merged :
    (collapse [["1".toList, "2".toList], ["(?:3|4)".toList, "2".toList],
        ["1".toList, "2".toList]]).length ≤ 2 ∧
      ∃ row ∈ collapse [["1".toList, "2".toList], ["(?:3|4)".toList, "2".toList],
        ["1".toList, "2".toList]],
        (row.render .v4).matchesWhole false "4.2".toList = true := by
  have hone : Fragment.IsSingle "1".toList :=
    ⟨.symbol (.literal '1') .once .done, by decide, rfl, by decide⟩
  have htwo : Fragment.IsSingle "2".toList :=
    ⟨.symbol (.literal '2') .once .done, by decide, rfl, by decide⟩
  have hunion : Fragment.IsSingle "(?:3|4)".toList :=
    ⟨.group (.symbol (.literal '3') .once (.bar (.symbol (.literal '4') .once .done))) .once .done,
      by decide, rfl, by decide⟩
  have hsingle : AllSingle [["1".toList, "2".toList], ["(?:3|4)".toList, "2".toList],
      ["1".toList, "2".toList]] := by
    simpa [AllSingle] using ⟨⟨hone, htwo⟩, ⟨hunion, htwo⟩, hone, htwo⟩
  obtain ⟨hlanguage, hlength, -⟩ := @collapse_keeps_language 2 _ (by decide) hsingle
  refine ⟨hlength, (hlanguage .v4 false _).mpr ⟨["(?:3|4)".toList, "2".toList], by simp, ?_⟩⟩
  decide

end Language

end NetPattern.Row
