import NetPattern.Proofs.Fragment.Stages
import NetPattern.Proofs.Row.Collapse

/-!
# Merging in stages

Collapsing comes back to a position in every pass and unites there what earlier passes united. As
the fragments of ranges are flat, what it leaves at a position is one flat union of fragments that
the rows had there from the start.
-/

namespace NetPattern.Row

open Fragment

/-- Whether each fragment of a row is united in stages from fragments that some rows have at its
position. -/
def UnitedFrom (rows : List Row) (row : Row) : Prop :=
  ∀ (position : Nat) (fragment : Fragment), row[position]? = some fragment →
    ∃ parts, UnitedInStages parts fragment ∧
      ∀ part ∈ parts, ∃ original ∈ rows, original[position]? = some part

theorem unitedFrom_of_mem {rows : List Row} {row : Row} (hrow : row ∈ rows) :
    UnitedFrom rows row := by
  intro position fragment hfragment
  refine ⟨[fragment], .part fragment, ?_⟩
  rw [List.forall_mem_singleton]
  exact ⟨row, hrow, hfragment⟩

/-- What is united in stages may be united again. -/
theorem unitedInStages_unite {P : Fragment → Prop} {fragments : List Fragment}
    (hne : fragments ≠ [])
    (h : ∀ fragment ∈ fragments, ∃ parts, UnitedInStages parts fragment ∧ ∀ part ∈ parts, P part) :
    ∃ parts, UnitedInStages parts (unite fragments) ∧ ∀ part ∈ parts, P part := by
  unfold unite
  split
  next single => exact h single List.mem_cons_self
  next =>
    have hstage : ∀ fragment ∈ fragments, ∃ stage : List Fragment × Fragment,
        (UnitedInStages stage.1 stage.2 ∧ ∀ part ∈ stage.1, P part) ∧ stage.2 = fragment := by
      intro fragment hfragment
      obtain ⟨parts, hunited, hparts⟩ := h fragment hfragment
      exact ⟨(parts, fragment), ⟨hunited, hparts⟩, rfl⟩
    obtain ⟨stages, hstages, rfl⟩ := exists_map_eq hstage
    refine ⟨stages.flatMap Prod.fst,
      .union (mt (congrArg _) hne) fun stage hstage => (hstages stage hstage).1, ?_⟩
    intro part hpart
    obtain ⟨stage, hstage, hmem⟩ := List.mem_flatMap.mp hpart
    exact (hstages stage hstage).2 part hmem

/-- Merging at a position adds one more stage there and changes nothing at the others. -/
theorem unitedFrom_mergeAt (position : Nat) {rows middle : List Row}
    (h : ∀ row ∈ middle, UnitedFrom rows row) :
    ∀ row ∈ (mergeAt position middle).1, UnitedFrom rows row := by
  intro merged hmerged other fragment hfragment
  obtain ⟨row, hrow, rfl⟩ := mem_mergeAt.mp hmerged
  rw [mergedRow_blankAt] at hfragment
  by_cases hother : position = other
  · subst hother
    have hlt : position < row.length := by
      have hlt := (List.getElem?_eq_some_iff.mp hfragment).1
      rwa [List.length_set] at hlt
    rw [List.getElem?_set_self hlt] at hfragment
    obtain rfl := Option.some.inj hfragment
    apply unitedInStages_unite
    · exact variants_ne_nil hrow
    · intro variant hvariant
      obtain ⟨source, hsource, hblank, rfl⟩ := mem_variants.mp hvariant
      -- The rows of a class are equally long, so each of them has a fragment at the position.
      have hlength := (agreeOff_iff_blankAt_eq.mpr hblank).length_eq
      apply h source hsource position
      rw [fragmentAt, List.getElem?_eq_getElem (hlength ▸ hlt), Option.getD_some]
  · rw [List.getElem?_set_ne hother] at hfragment
    exact h row hrow other fragment hfragment

theorem unitedFrom_collapse (rows : List Row) : ∀ row ∈ collapse rows, UnitedFrom rows row := by
  apply collapse_induction (motive := fun middle => ∀ row ∈ middle, UnitedFrom rows row)
  · exact fun position _ => unitedFrom_mergeAt position
  · exact fun row hrow => unitedFrom_of_mem (List.mem_eraseDups.mp hrow)

/-- Flat parts may be united in stages. All fragments of ranges and all unions of flat parts are
such parts, so what collapsing leaves at a position is the flat union of fragments that rows had
there, whose alternatives are the distinct ones among theirs, in the order of the stages. -/
theorem stages_give_flat_union :
    (∀ fragment : Fragment, fragment.IsRegular → fragment.IsBalanced) ∧
      (∀ xs ys : List Fragment, xs ≠ [] → ys ≠ [] → (∀ part ∈ xs ++ ys, part.IsFlat) →
        union [union xs, union ys] = union (xs ++ ys) ∧ union [union xs] = union xs) ∧
      (∀ padded low high, (octetRange padded low high).IsRegular ∧
        (octetRange padded low high).IsFlatUnion) ∧
      (∀ low high, (hextetRange low high).IsRegular ∧ (hextetRange low high).IsFlatUnion) ∧
      (∀ parts : List Fragment, (∀ part ∈ parts, part.IsFlat) → (union parts).IsFlatUnion ∧
        ((∀ part ∈ parts, part.IsRegular) → (union parts).IsRegular)) ∧
      (∀ parts result, UnitedInStages parts result → (∀ part ∈ parts, part.IsFlatUnion) →
        result = union parts ∧ result.IsFlatUnion ∧
          result.members = (parts.flatMap members).eraseDups) ∧
      ∀ rows : List Row, (∀ row ∈ rows, ∀ fragment ∈ row, fragment.IsFlatUnion) →
        ∀ row ∈ collapse rows, ∀ (position : Nat) (fragment : Fragment),
          row[position]? = some fragment →
          ∃ parts, UnitedInStages parts fragment ∧
            ∀ part ∈ parts, part.IsFlatUnion ∧
              ∃ original ∈ rows, original[position]? = some part := by
  refine ⟨fun _ => IsRegular.isBalanced, ?_, ?_, ?_, ?_, fun _ _ => UnitedInStages.flat_union, ?_⟩
  · intro xs ys hxs hys hflat
    exact ⟨union_union hxs hys hflat,
      union_union_singleton hxs (List.forall_mem_append.mp hflat).1⟩
  · exact fun padded low high => ⟨(isPhrase_octetRange padded low high).isSingle.isRegular,
      isFlatUnion_octetRange padded low high⟩
  · exact fun low high => ⟨(isPhrase_hextetRange low high).isSingle.isRegular,
      isFlatUnion_hextetRange low high⟩
  · exact fun parts hflat => ⟨.union hflat, fun hregular => (union_isSingle hregular).isRegular⟩
  · intro rows hrows row hrow position fragment hfragment
    obtain ⟨parts, hunited, hparts⟩ := unitedFrom_collapse rows row hrow position fragment hfragment
    refine ⟨parts, hunited, fun part hpart => ?_⟩
    obtain ⟨original, horiginal, hget⟩ := hparts part hpart
    exact ⟨hrows original horiginal part (List.mem_of_getElem? hget), original, horiginal, hget⟩

/-- Two unions that share a part, and rows that are merged at one position and then at the other. -/
theorem stages_give_flat_union_shared :
    union [union ["(?:1|2)".toList, "3".toList], union ["2".toList, "4".toList]] =
        "(?:1|2|3|4)".toList ∧
      ∃ parts, UnitedInStages parts "(?:1|2)".toList ∧ "(?:1|2)".toList = union parts ∧
        ∀ part ∈ parts, ∃ original ∈ [["1".toList, "3".toList], ["2".toList, "3".toList],
          ["1".toList, "4".toList], ["2".toList, "4".toList]], original[0]? = some part := by
  obtain ⟨-, hlaw, hoctet, -, -, hstages, hcollapse⟩ := stages_give_flat_union
  have hdigit : ∀ fragment ∈ ["1".toList, "2".toList, "3".toList, "4".toList],
      IsFlatUnion fragment := by
    simp only [List.forall_mem_cons]
    exact ⟨(hoctet false 1 1).2, (hoctet false 2 2).2, (hoctet false 3 3).2, (hoctet false 4 4).2,
      List.forall_mem_nil _⟩
  have hrows : ∀ row ∈ [["1".toList, "3".toList], ["2".toList, "3".toList],
      ["1".toList, "4".toList], ["2".toList, "4".toList]], ∀ fragment ∈ row,
        IsFlatUnion fragment := by
    have hdigits : ∀ row ∈ [["1".toList, "3".toList], ["2".toList, "3".toList],
        ["1".toList, "4".toList], ["2".toList, "4".toList]], ∀ fragment ∈ row,
          fragment ∈ ["1".toList, "2".toList, "3".toList, "4".toList] := by decide
    exact fun row hrow fragment hfragment => hdigit fragment (hdigits row hrow fragment hfragment)
  have hrow : ["(?:1|2)".toList, "(?:3|4)".toList] ∈ collapse [["1".toList, "3".toList],
      ["2".toList, "3".toList], ["1".toList, "4".toList], ["2".toList, "4".toList]] := by
    decide +kernel
  obtain ⟨parts, hunited, horiginals⟩ := hcollapse _ hrows _ hrow 0 _ rfl
  refine ⟨?_, parts, hunited, ?_, fun part hpart => (horiginals part hpart).2⟩
  · exact (hlaw ["(?:1|2)".toList, "3".toList] ["2".toList, "4".toList] (by decide) (by decide)
      (by decide)).1.trans (by decide)
  · exact (hstages parts _ hunited fun part hpart => (horiginals part hpart).1).1

end NetPattern.Row
