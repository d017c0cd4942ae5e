import Mathlib.Data.List.Nodup
import NetPattern.Proofs.Distinct
import NetPattern.Proofs.Row.Language
import NetPattern.Row.Merge

/-!
# Merging keeps what is matched

A merged row matches what the rows that it replaces matched. So a merge changes nothing in what
some row matches, and it never makes more rows match a text. Both carry over to the whole of
collapsing, whatever is merged and in whatever order.
-/

namespace NetPattern.Row

open Fragment

/-- A row is its fragment at a position, put back where it was blanked. -/
theorem blankAt_set_fragmentAt (row : Row) (position : Nat) :
    (row.blankAt position).set position (row.fragmentAt position) = row := by
  unfold blankAt fragmentAt
  rw [List.set_set]
  by_cases h : position < row.length
  · rw [List.getElem?_eq_getElem h, Option.getD_some, List.set_getElem_self]
  · rw [List.set_eq_of_length_le (Nat.le_of_not_lt h)]

/-- Rows that agree at a position and elsewhere are the same. -/
theorem eq_of_blankAt_of_fragmentAt {first second : Row} {position : Nat}
    (hblank : first.blankAt position = second.blankAt position)
    (hfragment : first.fragmentAt position = second.fragmentAt position) : first = second := by
  rw [← blankAt_set_fragmentAt first position, hblank, hfragment, blankAt_set_fragmentAt]

/-- The row that replaces those which agree with `blank` elsewhere. -/
def mergedRow (position : Nat) (rows : List Row) (blank : Row) : Row :=
  blank.set position (unite (variants position rows blank))

theorem mergeAt_eq_map (position : Nat) (rows : List Row) : (mergeAt position rows).1 =
    (rows.map (·.blankAt position)).eraseDups.map (mergedRow position rows) :=
  rfl

theorem mergedRow_blankAt (position : Nat) (rows : List Row) (row : Row) :
    mergedRow position rows (row.blankAt position) =
      row.set position (unite (variants position rows (row.blankAt position))) :=
  List.set_set ..

/-- The merged rows are those that replace some row. -/
theorem mem_mergeAt {position : Nat} {rows : List Row} {merged : Row} :
    merged ∈ (mergeAt position rows).1 ↔
      ∃ row ∈ rows, mergedRow position rows (row.blankAt position) = merged := by
  simp only [mergeAt_eq_map, List.mem_map, List.mem_eraseDups, exists_exists_and_eq_and]

theorem mem_variants {position : Nat} {rows : List Row} {blank : Row} {fragment : Fragment} :
    fragment ∈ variants position rows blank ↔
      ∃ row ∈ rows, row.blankAt position = blank ∧ row.fragmentAt position = fragment := by
  simp [variants, and_assoc]

theorem variants_ne_nil {position : Nat} {rows : List Row} {row : Row} (hrow : row ∈ rows) :
    variants position rows (row.blankAt position) ≠ [] :=
  List.ne_nil_of_mem (mem_variants.mpr ⟨row, hrow, rfl, rfl⟩)

section Unmerged

variable {position : Nat} {rows : List Row}

theorem filter_blankAt_of_nodup (h : (rows.map (·.blankAt position)).Nodup) {row : Row}
    (hrow : row ∈ rows) :
    (rows.filter fun other => other.blankAt position = row.blankAt position) = [row] := by
  induction rows with
  | nil => exact nomatch hrow
  | cons first others ih =>
      obtain ⟨hfirst, hothers⟩ := List.nodup_cons.mp h
      rcases List.mem_cons.mp hrow with rfl | hmem
      · rw [List.filter_cons_of_pos (by simp), List.cons_inj_right, List.filter_eq_nil_iff]
        intro other hother hsame
        exact hfirst (List.mem_map.mpr ⟨other, hother, of_decide_eq_true hsame⟩)
      · have hne : ¬ first.blankAt position = row.blankAt position :=
          fun hsame => hfirst (List.mem_map.mpr ⟨row, hmem, hsame.symm⟩)
        rw [List.filter_cons_of_neg (by simpa using hne), ih hothers hmem]

theorem variants_of_nodup (h : (rows.map (·.blankAt position)).Nodup) {row : Row}
    (hrow : row ∈ rows) :
    variants position rows (row.blankAt position) = [row.fragmentAt position] := by
  rw [variants, filter_blankAt_of_nodup h hrow]
  rfl

/-- Where no two rows agree at all other positions, nothing is merged. -/
theorem mergeAt_of_nodup (h : (rows.map (·.blankAt position)).Nodup) :
    mergeAt position rows = (rows, false) := by
  have hrows : (rows.map (·.blankAt position)).map (mergedRow position rows) = rows := by
    rw [List.map_map]
    refine (List.map_congr_left ?_).trans (List.map_id rows)
    intro row hrow
    rw [Function.comp_apply, mergedRow, variants_of_nodup h hrow, unite, blankAt_set_fragmentAt]
    rfl
  have hmerged : (rows.map (·.blankAt position)).any
      (fun blank => 1 < (variants position rows blank).length) = false := by
    rw [List.any_map, List.any_eq_false]
    intro row hrow
    rw [Function.comp_apply, variants_of_nodup h hrow]
    simp
  refine Prod.ext ?_ ?_
  · rw [mergeAt_eq_map, eraseDups_eq_self h]
    exact hrows
  · simp only [mergeAt, eraseDups_eq_self h]
    exact hmerged

theorem mergeAt_singleton (position : Nat) (row : Row) :
    mergeAt position [row] = ([row], false) :=
  mergeAt_of_nodup (List.nodup_singleton _)

end Unmerged

/-- Whether a property of fragments holds of the empty one and is kept when fragments are united. -/
structure KeptByUnion (P : Fragment → Prop) : Prop where
  nil : P []
  union : ∀ {parts : List Fragment}, (∀ part ∈ parts, P part) → P (Fragment.union parts)

theorem keptByUnion_isSingle : KeptByUnion Fragment.IsSingle :=
  ⟨(denotes_nil false).isSingle, fun h => union_isSingle fun part hpart => (h part hpart).isRegular⟩

section KeptByUnion

variable {P : Fragment → Prop} (hP : KeptByUnion P)

include hP

theorem fragmentAt_of_forall {row : Row} (h : ∀ fragment ∈ row, P fragment) (position : Nat) :
    P (row.fragmentAt position) := by
  unfold fragmentAt
  cases hget : row[position]? with
  | none => exact hP.nil
  | some fragment => exact h fragment (List.mem_of_getElem? hget)

theorem unite_of_forall {fragments : List Fragment} (h : ∀ fragment ∈ fragments, P fragment) :
    P (unite fragments) := by
  unfold unite
  split
  next single => exact h single List.mem_cons_self
  next => exact hP.union h

theorem variants_of_forall {position : Nat} {rows : List Row}
    (h : ∀ row ∈ rows, ∀ fragment ∈ row, P fragment) (blank : Row) :
    ∀ fragment ∈ variants position rows blank, P fragment := by
  intro fragment hfragment
  obtain ⟨row, hrow, -, rfl⟩ := mem_variants.mp hfragment
  exact fragmentAt_of_forall hP (h row hrow) position

theorem mergeAt_of_forall (position : Nat) {rows : List Row}
    (h : ∀ row ∈ rows, ∀ fragment ∈ row, P fragment) :
    ∀ row ∈ (mergeAt position rows).1, ∀ fragment ∈ row, P fragment := by
  intro merged hmerged fragment hfragment
  obtain ⟨row, hrow, rfl⟩ := mem_mergeAt.mp hmerged
  rw [mergedRow_blankAt] at hfragment
  rcases List.mem_or_eq_of_mem_set hfragment with hmem | rfl
  · exact h row hrow fragment hmem
  · exact unite_of_forall hP (variants_of_forall hP h _)

end KeptByUnion

section Unite

variable {ignoreCase : Bool} {fragments : List Fragment}

theorem matchesWhole_unite (hne : fragments ≠ [])
    (h : ∀ fragment ∈ fragments, fragment.IsSingle) (text : List Char) :
    (unite fragments).matchesWhole ignoreCase text = true ↔
      ∃ fragment ∈ fragments, fragment.matchesWhole ignoreCase text = true := by
  unfold unite
  split
  next single => simp
  next =>
    exact matchesWhole_union ignoreCase hne (fun part hpart => (h part hpart).isRegular) text

theorem forall₂_set_unite_iff (hne : fragments ≠ [])
    (h : ∀ fragment ∈ fragments, fragment.IsSingle) (blank : Row) (position : Nat)
    (parts : List (List Char)) :
    List.Forall₂ (fun fragment part => Fragment.matchesWhole ignoreCase fragment part = true)
        (blank.set position (unite fragments)) parts ↔
      ∃ fragment ∈ fragments,
        List.Forall₂ (fun fragment part => Fragment.matchesWhole ignoreCase fragment part = true)
          (blank.set position fragment) parts := by
  obtain ⟨some, hsome⟩ := List.exists_mem_of_ne_nil fragments hne
  induction blank generalizing position parts with
  | nil => exact ⟨fun hnil => ⟨some, hsome, hnil⟩, fun ⟨_, _, hnil⟩ => hnil⟩
  | cons other blank ih =>
      cases position with
      | zero =>
          simp only [List.set_cons_zero, List.forall₂_cons_left_iff, matchesWhole_unite hne h]
          grind
      | succ position =>
          simp only [List.set_cons_succ, List.forall₂_cons_left_iff, ih]
          grind

/-- A row with a union at a position matches what the row does with one of the united fragments
there. -/
theorem matches_set_unite {family : Family} (hne : fragments ≠ [])
    (h : ∀ fragment ∈ fragments, fragment.IsSingle) (blank : Row) (position : Nat)
    (text : List Char) :
    Matches family ignoreCase (blank.set position (unite fragments)) text ↔
      ∃ fragment ∈ fragments,
        Matches family ignoreCase (blank.set position fragment) text := by
  unfold Matches
  simp only [forall₂_set_unite_iff hne h]
  constructor
  · intro hmatches
    obtain ⟨parts, htext, fragment, hmem, hparts⟩ := hmatches
    exact ⟨fragment, hmem, parts, htext, hparts⟩
  · intro hmatches
    obtain ⟨fragment, hmem, parts, htext, hparts⟩ := hmatches
    exact ⟨parts, htext, fragment, hmem, hparts⟩

end Unite

section Merge

variable {family : Family} {ignoreCase : Bool} {position : Nat} {rows : List Row}

/-- A merged row matches what one of the rows does that it replaces. -/
theorem matches_mergedRow_iff (h : AllSingle rows) {blank : Row}
    (hblank : blank ∈ rows.map (·.blankAt position)) (text : List Char) :
    Matches family ignoreCase (mergedRow position rows blank) text ↔
      ∃ row ∈ rows, Matches family ignoreCase row text ∧ row.blankAt position = blank := by
  have hne : variants position rows blank ≠ [] := by
    obtain ⟨row, hrow, rfl⟩ := List.mem_map.mp hblank
    exact variants_ne_nil hrow
  rw [mergedRow, matches_set_unite hne (variants_of_forall keptByUnion_isSingle h blank)]
  constructor
  · intro hmatches
    obtain ⟨fragment, hfragment, hmatches⟩ := hmatches
    obtain ⟨row, hrow, rfl, rfl⟩ := mem_variants.mp hfragment
    rw [blankAt_set_fragmentAt] at hmatches
    exact ⟨row, hrow, hmatches, rfl⟩
  · intro hmatches
    obtain ⟨row, hrow, hmatches, rfl⟩ := hmatches
    refine ⟨row.fragmentAt position, mem_variants.mpr ⟨row, hrow, rfl, rfl⟩, ?_⟩
    rwa [blankAt_set_fragmentAt]

theorem matchesWhole_mergedRow_iff (h : AllSingle rows) {blank : Row}
    (hblank : blank ∈ rows.map (·.blankAt position)) (text : List Char) :
    ((mergedRow position rows blank).render family).matchesWhole ignoreCase text = true ↔
      ∃ row ∈ rows, (row.render family).matchesWhole ignoreCase text = true ∧
        row.blankAt position = blank := by
  have hmem : mergedRow position rows blank ∈ (mergeAt position rows).1 := by
    rw [mergeAt_eq_map]
    exact List.mem_map_of_mem (List.mem_eraseDups.mpr hblank)
  rw [matchesWhole_render_iff (mergeAt_of_forall keptByUnion_isSingle position h _ hmem),
    matches_mergedRow_iff h hblank]
  apply exists_congr
  intro row
  apply and_congr_right
  intro hrow
  rw [matchesWhole_render_iff (h row hrow)]

/-- Merging at a position changes nothing in whether some row takes a text. -/
theorem matchCount_mergeAt_pos_iff (h : AllSingle rows) (text : List Char) :
    0 < matchCount family ignoreCase (mergeAt position rows).1 text ↔
      0 < matchCount family ignoreCase rows text := by
  rw [matchCount, matchCount, List.countP_pos_iff, List.countP_pos_iff]
  constructor
  · intro hmerged
    obtain ⟨_, hmem, htakes⟩ := hmerged
    obtain ⟨row, hrow, rfl⟩ := mem_mergeAt.mp hmem
    obtain ⟨other, hother, hmatches, -⟩ :=
      (matchesWhole_mergedRow_iff h (List.mem_map_of_mem hrow) text).mp htakes
    exact ⟨other, hother, hmatches⟩
  · intro hrows
    obtain ⟨row, hrow, hmatches⟩ := hrows
    exact ⟨_, mem_mergeAt.mpr ⟨row, hrow, rfl⟩,
      (matchesWhole_mergedRow_iff h (List.mem_map_of_mem hrow) text).mpr
        ⟨row, hrow, hmatches, rfl⟩⟩

/-- Each merged row that takes a text stands for a row that did, and no two for the same. -/
theorem matchCount_mergeAt_le (h : AllSingle rows) (text : List Char) :
    matchCount family ignoreCase (mergeAt position rows).1 text ≤
      matchCount family ignoreCase rows text := by
  rw [matchCount, mergeAt_eq_map, List.countP_map]
  -- A merged row is known by its blank, and so is the row that it stands for.
  apply countP_le_of_exists_preimage (nodup_eraseDups _)
  intro blank hblank htakes
  exact (matchesWhole_mergedRow_iff h (List.mem_eraseDups.mp hblank) text).mp htakes

end Merge

section Collapse

variable {motive : List Row → Prop}
  (hstep : ∀ position rows, motive rows → motive (mergeAt position rows).1)

include hstep

theorem mergePass_induction (width : Nat) {rows : List Row} (h : motive rows) :
    motive (mergePass width rows).1 := by
  induction width with
  | zero => exact h
  | succ width ih =>
      rw [mergePass_succ]
      exact hstep width _ ih

theorem settle_induction (width : Nat) {rows : List Row} (h : motive rows) :
    motive (settle width rows) := by
  induction rows using settle.induct width with
  | case1 rows next hmerged hless ih =>
      rw [settle_eq, if_pos hmerged]
      exact ih (mergePass_induction hstep width h)
  | case2 rows next hmerged =>
      rw [settle_eq, if_neg hmerged]
      exact mergePass_induction hstep width h

/-- What holds of the distinct rows and is kept by every merge holds of the collapsed rows. -/
theorem collapse_induction {rows : List Row} (h : motive rows.eraseDups) :
    motive (collapse rows) :=
  settle_induction hstep _ h

end Collapse

/-- What holds of the fragments of some rows holds of those of the collapsed rows. -/
theorem collapse_of_forall {P : Fragment → Prop} (hP : KeptByUnion P) {rows : List Row}
    (h : ∀ row ∈ rows, ∀ fragment ∈ row, P fragment) :
    ∀ row ∈ collapse rows, ∀ fragment ∈ row, P fragment :=
  collapse_induction (motive := fun rows => ∀ row ∈ rows, ∀ fragment ∈ row, P fragment)
    (fun position _ => mergeAt_of_forall hP position)
    fun row hrow => h row (List.mem_eraseDups.mp hrow)

/-- Rows that can stand for others: some row matches a text as before, and no more rows do. -/
structure Replaces (rows others : List Row) : Prop where
  allSingle : AllSingle rows
  matchCount_le : ∀ family ignoreCase text,
    matchCount family ignoreCase rows text ≤ matchCount family ignoreCase others text
  matchCount_pos_iff : ∀ family ignoreCase text,
    0 < matchCount family ignoreCase rows text ↔ 0 < matchCount family ignoreCase others text

theorem Replaces.refl {rows : List Row} (h : AllSingle rows) : Replaces rows rows where
  allSingle := h
  matchCount_le := fun _ _ _ => Nat.le_refl _
  matchCount_pos_iff := fun _ _ _ => Iff.rfl

theorem Replaces.trans {rows middle others : List Row} (h : Replaces rows middle)
    (hmiddle : Replaces middle others) : Replaces rows others where
  allSingle := h.allSingle
  matchCount_le := fun family ignoreCase text =>
    (h.matchCount_le family ignoreCase text).trans (hmiddle.matchCount_le family ignoreCase text)
  matchCount_pos_iff := fun family ignoreCase text =>
    (h.matchCount_pos_iff family ignoreCase text).trans
      (hmiddle.matchCount_pos_iff family ignoreCase text)

theorem mergeAt_replaces (position : Nat) {rows : List Row} (h : AllSingle rows) :
    Replaces (mergeAt position rows).1 rows where
  allSingle := mergeAt_of_forall keptByUnion_isSingle position h
  matchCount_le := fun _ _ => matchCount_mergeAt_le h
  matchCount_pos_iff := fun _ _ => matchCount_mergeAt_pos_iff h

theorem replaces_eraseDups {rows : List Row} (h : AllSingle rows) :
    Replaces rows.eraseDups rows where
  allSingle := fun row hrow => h row (List.mem_eraseDups.mp hrow)
  matchCount_le := by
    intro family ignoreCase text
    apply countP_le_of_exists_preimage (nodup_eraseDups rows)
    intro row hrow hmatches
    exact ⟨row, List.mem_eraseDups.mp hrow, hmatches, rfl⟩
  matchCount_pos_iff := by
    intro family ignoreCase text
    simp only [matchCount, List.countP_pos_iff, List.mem_eraseDups]

/-- Collapsed rows can stand for the distinct rows among those that they come from. -/
theorem collapse_replaces_eraseDups {rows : List Row} (h : AllSingle rows) :
    Replaces (collapse rows) rows.eraseDups :=
  collapse_induction (motive := (Replaces · rows.eraseDups))
    (fun position _ hmiddle => (mergeAt_replaces position hmiddle.allSingle).trans hmiddle)
    (.refl (replaces_eraseDups h).allSingle)

theorem collapse_replaces {rows : List Row} (h : AllSingle rows) :
    Replaces (collapse rows) rows :=
  (collapse_replaces_eraseDups h).trans (replaces_eraseDups h)

end NetPattern.Row
