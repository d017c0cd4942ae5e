import NetPattern.Proofs.Fragment.Balanced
import NetPattern.Proofs.Fragment.Language

/-!
# Unions of fragments

A union can stand wherever a single fragment can, and takes there what one of its parts takes. A
fragment without a bar that starts with no group is flat, so it may be united in stages.
-/

namespace NetPattern.Fragment

/-! ### A union in its surroundings -/

/-- The text of a fragment that can stand in a row is not cut into alternatives. -/
theorem IsSingle.alternatives_eq {fragment : Fragment} (h : fragment.IsSingle) :
    alternatives fragment = [fragment] := by
  obtain ⟨regex, hvalid, hsingle, rfl⟩ := h
  rw [alternatives_render (Regex.isDelimited_of_valid hvalid),
    Regex.alternatives_of_isSingle hsingle]
  rfl

/-- Parts that may have bars outside their groups have a union that has none. Between any fragments
of a row it stands as it is, and takes the middle of a text where one of the parts does. -/
theorem union_stands_for_parts {parts : List Fragment} (hne : parts ≠ [])
    (h : ∀ part ∈ parts, part.IsRegular) :
    (union parts).IsSingle ∧
      alternatives (union parts) = [union parts] ∧
      (∀ ignoreCase text, (union parts).matchesWhole ignoreCase text = true ↔
        ∃ part ∈ parts, part.matchesWhole ignoreCase text = true) ∧
      ∀ before after : Fragment, before.IsSingle → after.IsSingle →
        IsSingle (before ++ union parts ++ after) ∧
          ∀ ignoreCase text,
            matchesWhole ignoreCase (before ++ union parts ++ after) text = true ↔
              ∃ front middle back, text = front ++ middle ++ back ∧
                before.matchesWhole ignoreCase front = true ∧
                (∃ part ∈ parts, part.matchesWhole ignoreCase middle = true) ∧
                after.matchesWhole ignoreCase back = true := by
  have hunion := union_isSingle h
  refine ⟨hunion, hunion.alternatives_eq, fun ignoreCase => matchesWhole_union ignoreCase hne h, ?_⟩
  intro before after hbefore hafter
  have hfront := hbefore.append hunion
  refine ⟨hfront.append hafter, fun ignoreCase text => ?_⟩
  rw [hfront.matchesWhole_append ignoreCase hafter]
  simp only [hbefore.matchesWhole_append ignoreCase hunion,
    matchesWhole_union ignoreCase hne h]
  constructor
  · intro htext
    obtain ⟨_, back, rfl, ⟨front, middle, rfl, hone, hmiddle⟩, hback⟩ := htext
    exact ⟨front, middle, back, rfl, hone, hmiddle, hback⟩
  · intro htext
    obtain ⟨front, middle, back, rfl, hone, hmiddle, hback⟩ := htext
    exact ⟨front ++ middle, back, rfl, ⟨front, middle, rfl, hone, hmiddle⟩, hback⟩

/-- A group with a bar, a bar outside any group, a bracket class that holds a parenthesis and a bar,
and two groups side by side, of which none is the whole fragment. -/
theorem union_stands_for_parts_nested :
    union ["(?:a|b)".toList, "b|c".toList, "[)|]".toList, "(?:d)(?:e)".toList] =
        "(?:a|b|c|[)|]|(?:d)(?:e))".toList ∧
      matchesWhole false ("x".toList ++ union ["(?:a|b)".toList, "b|c".toList, "[)|]".toList,
        "(?:d)(?:e)".toList] ++ "y".toList) "xdey".toList = true := by
  have hgroup : IsRegular "(?:a|b)".toList :=
    ⟨.group (.literals ['a'] ++ .bar (.literals ['b'])) .once .done, by decide, by decide⟩
  have hbar : IsRegular "b|c".toList :=
    ⟨.literals ['b'] ++ .bar (.literals ['c']), by decide, by decide⟩
  have hbracket : IsRegular "[)|]".toList :=
    ⟨.symbol (.bracket [')', '|']) .once .done, by decide, by decide⟩
  have hgroups : IsRegular "(?:d)(?:e)".toList :=
    ⟨.group (.literals ['d']) .once (.group (.literals ['e']) .once .done), by decide, by decide⟩
  have hx : IsSingle "x".toList := ⟨.literals ['x'], by decide, rfl, by decide⟩
  have hy : IsSingle "y".toList := ⟨.literals ['y'], by decide, rfl, by decide⟩
  have hparts : ∀ part ∈ ["(?:a|b)".toList, "b|c".toList, "[)|]".toList, "(?:d)(?:e)".toList],
      IsRegular part := by
    simp only [List.forall_mem_cons]
    exact ⟨hgroup, hbar, hbracket, hgroups, nofun⟩
  obtain ⟨-, -, -, hbetween⟩ := union_stands_for_parts (List.cons_ne_nil _ _) hparts
  refine ⟨by decide, ((hbetween _ _ hx hy).2 false _).mpr
    ⟨['x'], ['d', 'e'], ['y'], by decide, by decide, ?_, by decide⟩⟩
  exact ⟨"(?:d)(?:e)".toList, by simp, by decide⟩

/-! ### Flat fragments -/

theorem IsRegular.isBalanced {fragment : Fragment} (h : fragment.IsRegular) :
    fragment.IsBalanced := by
  obtain ⟨regex, hvalid, rfl⟩ := h
  exact walk_render (.inr rfl) 0 (Regex.isDelimited_of_valid hvalid) fun hbar => absurd hbar (by decide)

/-- A fragment without a bar that starts with no group is the only alternative that it brings. -/
theorem IsSingle.members_eq {c : Char} {rest : List Char} (h : IsSingle (c :: rest))
    (hc : c ≠ '(') : members (c :: rest) = [c :: rest] := by
  rw [members, ungroup?_of_head_ne hc, Option.getD_none, h.alternatives_eq]

theorem IsSingle.isFlat {c : Char} {rest : List Char} (h : IsSingle (c :: rest)) (hc : c ≠ '(') :
    IsFlat (c :: rest) := by
  refine ⟨h.isRegular.isBalanced, ?_⟩
  rw [h.members_eq hc, List.forall_mem_singleton]
  exact ungroup?_of_head_ne hc

end NetPattern.Fragment
