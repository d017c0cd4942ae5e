import NetPattern.Pattern
import NetPattern.Proofs.Fragment.Language
import NetPattern.Regex.LeftFactor.Language

/-!
# What programs match

A program matches a text if its body takes some part of the text, and where it is anchored, the
whole of it. The body of a pattern is a group, whose text is never taken for an anchored one.
-/

namespace NetPattern

/-- Whether some part of a text is in a language, or the whole of it where it is anchored. -/
def Occurs (anchored : Bool) (language : List Char → Prop) (text : List Char) : Prop :=
  if anchored then language text else ∃ piece, piece <:+: text ∧ language piece

theorem Occurs.congr {anchored : Bool} {language other : List Char → Prop}
    (h : ∀ text, language text ↔ other text) (text : List Char) :
    Occurs anchored language text ↔ Occurs anchored other text := by
  simp only [Occurs, h]

namespace Program

variable {program : Program}

/-- There is a match at the start of a text if the body takes a prefix of it. -/
theorem isSome_matchLength?_iff (hvalid : program.body.valid = true) (text : List Char) :
    (program.matchLength? text).isSome = true ↔
      ∃ piece, piece <+: text ∧ program.body.Takes program.ignoreCase piece := by
  rw [matchLength?, Option.isSome_map, List.isSome_head?]
  constructor
  · intro hne
    obtain ⟨rest, hrest⟩ := List.exists_mem_of_ne_nil _ hne
    obtain ⟨piece, rfl, htakes⟩ :=
      (program.body.mem_remainders_iff program.ignoreCase hvalid text rest).mp hrest
    exact ⟨piece, List.prefix_append piece rest, htakes⟩
  · intro h
    obtain ⟨piece, ⟨rest, htext⟩, htakes⟩ := h
    exact List.ne_nil_of_mem ((program.body.mem_remainders_iff program.ignoreCase hvalid text
      rest).mpr ⟨piece, htext.symm, htakes⟩)

/-- A search tries every place of a text. -/
theorem occursIn_iff (hvalid : program.body.valid = true) (text : List Char) :
    program.occursIn text = true ↔
      ∃ piece, piece <:+: text ∧ program.body.Takes program.ignoreCase piece := by
  induction text with
  | nil =>
      rw [occursIn, isSome_matchLength?_iff hvalid]
      simp only [List.prefix_nil, List.infix_nil]
  | cons c rest ih =>
      rw [occursIn, Bool.or_eq_true, isSome_matchLength?_iff hvalid, ih]
      simp only [List.infix_cons_iff, or_and_right, exists_or]

theorem isMatch_iff (hvalid : program.body.valid = true) (text : List Char) :
    program.isMatch text = true ↔
      Occurs program.anchored (program.body.Takes program.ignoreCase) text := by
  rw [isMatch, Occurs]
  split
  next => exact Regex.matchesWhole_iff program.ignoreCase program.body hvalid text
  next => exact occursIn_iff hvalid text

end Program

namespace Fragment

section Tree

variable {regex : Regex} (hvalid : regex.valid = true) (hsingle : regex.isSingle = true)
  {pieces : List Fragment} (hrender : regex.render = group pieces)

include hvalid hsingle hrender

/-- Between anchors or without them, the text of a group is read as the tree of the group. -/
theorem readWritten?_sourceOf (ignoreCase : Bool) (options : Options) :
    Program.readWritten? ignoreCase (Pattern.sourceOf (group pieces) options) =
      some ⟨ignoreCase, options.anchored, regex⟩ := by
  rw [Pattern.sourceOf]
  cases options.anchored with
  | true =>
      have hbody : Program.anchoredBody? ('^' :: group pieces ++ ['$']) = some regex.render := by
        simp [Program.anchoredBody?, hrender]
      rw [if_pos rfl, Program.readWritten?, hbody]
      simp [Regex.read?_render hvalid, Option.filter, hsingle]
  | false =>
      -- A group opens with a parenthesis and not with an anchor.
      have hbody : Program.anchoredBody? (group pieces) = none := rfl
      rw [if_neg Bool.false_ne_true, Program.readWritten?, hbody, ← hrender]
      simp [Regex.read?_render hvalid]

/-- What is run for the text of a group is its tree, left factored. -/
theorem read?_sourceOf (ignoreCase : Bool) (options : Options) :
    Program.read? ignoreCase (Pattern.sourceOf (group pieces) options) =
      some ⟨ignoreCase, options.anchored, regex.leftFactor⟩ := by
  rw [Program.read?, readWritten?_sourceOf hvalid hsingle hrender]
  rfl

end Tree

/-- What is left of a tree after factoring takes what the text of the tree does. -/
theorem leftFactor_takes_iff_matchesWhole {regex : Regex} (hvalid : regex.valid = true)
    (ignoreCase : Bool) (text : List Char) :
    regex.leftFactor.Takes ignoreCase text ↔
      matchesWhole ignoreCase regex.render text = true := by
  rw [Regex.leftFactor_takes, matchesWhole_render ignoreCase hvalid]

/-- Between anchors or without them, a group is the source of a program that matches what the
group takes. -/
theorem Denotes.exists_program {ignoreCase : Bool} {pieces : List Fragment}
    {language : List Char → Prop} (h : Denotes ignoreCase (group pieces) language)
    (options : Options) :
    ∃ program, Program.read? ignoreCase (Pattern.sourceOf (group pieces) options) = some program ∧
      ∀ text, program.isMatch text = true ↔ Occurs options.anchored language text := by
  obtain ⟨⟨regex, hvalid, hsingle, hrender⟩, hmatches⟩ := h
  refine ⟨_, read?_sourceOf hvalid hsingle hrender ignoreCase options, fun text => ?_⟩
  rw [Program.isMatch_iff (Regex.leftFactor_valid hvalid)]
  refine Occurs.congr (fun text => ?_) text
  rw [leftFactor_takes_iff_matchesWhole hvalid, hrender, hmatches]

end Fragment

end NetPattern
