import NetPattern.Proofs.Fragment.Language

/-!
# The structure that the scanner finds

The scanner cuts a text at bars and joins nothing, so its pieces and the bars between them are the
text again, whatever the text is. Where the text is that of an expression, its pieces are the
alternatives of the tree and what it unwraps is what stands in the only group of the tree. For this
it matters where symbols end, and not what they or the quantifiers mean.
-/

namespace NetPattern.Fragment

/-- What a text gains in front, its first piece gains. -/
theorem intercalate_modifyHead_cons (c : Char) {pieces : List Fragment} (hne : pieces ≠ []) :
    ['|'].intercalate (pieces.modifyHead (c :: ·)) = c :: ['|'].intercalate pieces := by
  obtain ⟨first, others, rfl⟩ := List.exists_cons_of_ne_nil hne
  rw [List.modifyHead_cons]
  cases others with
  | nil => rfl
  | cons second more =>
      rw [List.intercalate_cons_cons, List.intercalate_cons_cons]
      rfl

theorem intercalate_alternativesFrom (place : Place) (text : List Char) :
    ['|'].intercalate (alternativesFrom place text) = text := by
  induction text generalizing place with
  | nil => rfl
  | cons c rest ih =>
      rw [alternativesFrom]
      split
      next hcut =>
        rw [List.intercalate_cons_of_ne_nil (alternativesFrom_ne_nil _ _), ih, hcut.2]
        rfl
      next =>
        rw [intercalate_modifyHead_cons c (alternativesFrom_ne_nil _ _), ih]

section Expression

variable {symbols : Symbol → Prop} {items groups : Quantifier → Prop}
  (hsymbols : ∀ s, symbols s → s.IsDelimited)

include hsymbols

theorem isDelimited_of_all {regex : Regex} (hall : regex.All symbols items groups) :
    regex.IsDelimited :=
  hall.imp hsymbols (fun _ _ => trivial) fun _ _ => trivial

/-- The texts of single expressions that were joined by bars are found again. -/
theorem alternatives_intercalate_render {parts : List Regex} (hne : parts ≠ [])
    (hparts : ∀ part ∈ parts, part.All symbols items groups ∧ part.isSingle = true) :
    alternatives (['|'].intercalate (parts.map Regex.render)) = parts.map Regex.render := by
  have hall := Regex.All.ofAlternatives fun part hpart => (hparts part hpart).1
  rw [← Regex.render_ofAlternatives, alternatives_render (isDelimited_of_all hsymbols hall),
    Regex.alternatives_ofAlternatives hne fun part hpart => (hparts part hpart).2]

/-- What is unwrapped from the text of an expression is what stands in its only item, a group that
is not repeated. -/
theorem ungroup?_render_eq_some_iff {regex : Regex} (hall : regex.All symbols items groups)
    {inner : Fragment} :
    ungroup? regex.render = some inner ↔
      ∃ tree : Regex, regex = .group tree .once .done ∧ tree.All symbols items groups ∧
        tree.render = inner := by
  constructor
  · intro hinner
    by_cases hgroup : ∃ tree, regex = .group tree .once .done
    · obtain ⟨tree, rfl⟩ := hgroup
      rw [ungroup?_group (isDelimited_of_all hsymbols hall.1)] at hinner
      exact ⟨tree, rfl, hall.1, Option.some.inj hinner⟩
    · have hnone := ungroup?_eq_none (isDelimited_of_all hsymbols hall)
        fun tree heq => hgroup ⟨tree, heq⟩
      exact absurd (hnone.symm.trans hinner) (Option.some_ne_none _).symm
  · rintro ⟨tree, rfl, htree, rfl⟩
    exact ungroup?_group (isDelimited_of_all hsymbols htree)

end Expression

/-- The pieces of any text, joined by bars, are the text. Whatever the symbols and the quantifiers of
an expression are, as long as its symbols end where the scanner takes them to end, the pieces of its
text are the texts of its alternatives. These have the same kinds of symbols and quantifiers and no
bar outside their groups, and there is no other way to join such texts to that of the expression.
What is unwrapped from the text is what stands in the group that the expression is, where it is one
that has nothing around it and is not repeated. -/
theorem scan_finds_structure :
    (∀ text : Fragment, ['|'].intercalate (alternatives text) = text) ∧
      ∀ (symbols : Symbol → Prop) (items groups : Quantifier → Prop),
        (∀ s, symbols s → s.IsDelimited) →
        ∀ regex : Regex, regex.All symbols items groups →
          alternatives regex.render = regex.alternatives.map Regex.render ∧
          (∀ part ∈ regex.alternatives,
            part.All symbols items groups ∧ part.isSingle = true) ∧
          (∀ parts : List Regex, parts ≠ [] →
            (∀ part ∈ parts, part.All symbols items groups ∧ part.isSingle = true) →
            ['|'].intercalate (parts.map Regex.render) = regex.render →
            parts.map Regex.render = alternatives regex.render) ∧
          ∀ inner : Fragment, ungroup? regex.render = some inner ↔
            ∃ tree : Regex, regex = .group tree .once .done ∧
              tree.All symbols items groups ∧ tree.render = inner := by
  refine ⟨intercalate_alternativesFrom .start, ?_⟩
  intro symbols items groups hsymbols regex hall
  refine ⟨alternatives_render (isDelimited_of_all hsymbols hall), ?_, ?_, ?_⟩
  · intro part hpart
    exact ⟨hall.of_mem_alternatives hpart, Regex.isSingle_of_mem_alternatives hpart⟩
  · intro parts hne hparts hjoin
    rw [← hjoin, alternatives_intercalate_render hsymbols hne hparts]
  · intro inner
    exact ungroup?_render_eq_some_iff hsymbols hall

/-- A group with parentheses and bars in a class and behind a backslash, and with a group at its
end. -/
theorem scan_finds_structure_nested :
    let tree : Regex := .symbol (.bracket [')', '|']) .once (.bar (.symbol (.escaped '|') .star
      (.group (.symbol (.literal 'a') .once (.bar .done)) .once .done)))
    (∀ s : Symbol, s.valid = true → s.IsDelimited) ∧
      tree.All (·.valid = true) (·.valid = true) (·.valid = true) ∧
      ungroup? "(?:[)|]|\\|*(?:a|))".toList = some "[)|]|\\|*(?:a|)".toList ∧
      alternatives "[)|]|\\|*(?:a|)".toList = ["[)|]".toList, "\\|*(?:a|)".toList] := by
  intro tree
  have hsymbols : ∀ s : Symbol, s.valid = true → s.IsDelimited :=
    fun _ => Symbol.isDelimited_of_valid
  have htree : tree.All (·.valid = true) (·.valid = true) (·.valid = true) :=
    Regex.valid_iff_all.mp (by decide)
  have hgroup : (Regex.group tree .once .done).All (·.valid = true) (·.valid = true)
      (·.valid = true) := ⟨htree, rfl, trivial⟩
  obtain ⟨-, hexpressions⟩ := scan_finds_structure
  obtain ⟨-, -, -, hungroup⟩ := hexpressions _ _ _ hsymbols _ hgroup
  obtain ⟨halternatives, -⟩ := hexpressions _ _ _ hsymbols _ htree
  refine ⟨hsymbols, htree, ?_, ?_⟩
  · have htext : (Regex.group tree .once .done).render = "(?:[)|]|\\|*(?:a|))".toList := by decide
    rw [← htext]
    exact (hungroup _).mpr ⟨tree, rfl, htree, by decide⟩
  · exact halternatives.trans (by decide)

end NetPattern.Fragment
