import NetPattern.Proofs.Fragment.Preference
import NetPattern.Proofs.Row.Language

/-!
# What rows prefer

Where the pattern of a row ends first, its last fragment ends first behind a joiner.
-/

namespace NetPattern.Row

open Fragment

/-- The end of a row that a search finds first is that of its last fragment behind a joiner. -/
theorem exists_leavesFirst {ignoreCase : Bool} {before : Row} {last : Fragment} (hne : before ≠ [])
    (hbefore : ∀ fragment ∈ before, fragment.IsSingle) (hlast : last.IsSingle) {tree : Regex}
    (hvalid : tree.valid = true) (hrender : tree.render = group [(before ++ [last]).render .v4])
    {text rest : List Char}
    (hhead : (tree.leftFactor.remainders ignoreCase text).head? = some rest) :
    ∃ ahead middle, text = ahead ++ '.' :: middle ∧ last.LeavesFirst ignoreCase middle rest := by
  obtain ⟨front, hfront, hsingle, hfrontrender⟩ := (denotes_render .v4 ignoreCase hbefore).isSingle
  obtain ⟨back, hback, hbacksingle, rfl⟩ := hlast
  -- The row is its first fragments, the joiner and the last fragment, and so is its tree.
  have htree : tree = .group (front ++ .symbol (.escaped '.') .once back) .once .done := by
    apply Regex.render_injective hvalid
    · simp [Regex.valid, Regex.valid_append, hfront, hback, Symbol.valid, Quantifier.valid]
    · have hrow := group_render [front ++ .symbol (.escaped '.') .once back]
      rw [List.map_singleton, Regex.render_append, hfrontrender] at hrow
      rw [hrender, Row.render, intercalate_concat hne]
      exact hrow
  have hrow : (front ++ .symbol (.escaped '.') .once back).isSingle = true := by
    rw [Regex.isSingle_append hsingle]
    exact hbacksingle
  rw [htree, Regex.leftFactor_group hrow, Regex.remainders_of_isSingle ignoreCase rfl,
    Regex.firstRemainders_group_once, Regex.remainders_of_isSingle ignoreCase
      ((Regex.factorGroups_isSingle _).trans hrow), Regex.factorGroups_append] at hhead
  obtain ⟨more, hmore, hbehind⟩ := Regex.exists_of_head?_append ignoreCase
    ((Regex.factorGroups_isSingle front).trans hsingle) hhead
  obtain ⟨ahead, rfl, -⟩ :=
    ((front.factorGroups.steps ignoreCase (Regex.factorGroups_valid hfront)).1 text more).mp hmore
  rw [Regex.factorGroups, Regex.firstRemainders_symbol_once] at hbehind
  cases more with
  | nil => exact absurd hbehind.symm (Option.some_ne_none rest)
  | cons c middle =>
      by_cases hc : (Symbol.escaped '.').accepts ignoreCase c = true
      · have hdot : c = '.' := by
          rw [Symbol.accepts, List.contains_iff_mem] at hc
          exact (mem_caseForms_iff_of_lt (by decide)).mp hc
        rw [Symbol.remainders, if_pos hc, List.flatMap_singleton] at hbehind
        exact ⟨ahead, middle, by rw [hdot], (leavesFirst_render_iff hback).mpr hbehind⟩
      · rw [Symbol.remainders, if_neg hc] at hbehind
        exact absurd hbehind.symm (Option.some_ne_none rest)

end NetPattern.Row
