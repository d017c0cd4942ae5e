import NetPattern.Proofs.Address.DottedQuad
import NetPattern.Proofs.Fragment.Case
import NetPattern.Proofs.Pattern

/-!
# Sources by themselves

A source does not say whether case is ignored. Read by itself, it is a pattern of the written forms
in lower case. For IPv4 these are all written forms there are.
-/

namespace NetPattern

theorem Fragment.IsLowerCase.denotes {fragment : Fragment} {language : List Char → Prop}
    (h : fragment.IsLowerCase) (hignored : Denotes true fragment language) :
    Denotes false fragment fun text => language text ∧ InLowerCase text :=
  ⟨h.isSingle, fun text => by rw [h.matchesWhole_iff, hignored.matches_iff]⟩

/-- Rows and their alternations are made of fragments in lower case. -/
theorem PatternSet.keptByRows_isLowerCase : KeptByRows Fragment.IsLowerCase where
  nil := .nil
  union := .union
  fragment form _ _ := form.isLowerCase_fragment
  separator := Family.isLowerCase_separator
  append := .append
  group hne h := .group h hne

/-- The source of a block by itself is a pattern of the written forms in lower case. -/
theorem Cidr.exists_read_sourceOf (cidr : Cidr) (options : Options) :
    ∃ program, Program.read? false
        (Pattern.sourceOf (cidr.patternSet options).alternation options) = some program ∧
      ∀ text, program.isMatch text = true ↔ Occurs options.anchored
        (fun piece => cidr.range.Written options.leadingZeros piece ∧ InLowerCase piece) text := by
  have hlower : (cidr.patternSet options).alternation.IsLowerCase :=
    PatternSet.keptByRows_isLowerCase.alternation cidr.range options
  exact (hlower.denotes
    ((cidr.exact_patternSet options).denotes_alternation fun _ => rfl)).exists_program options

/-! ### Written forms in lower case -/

/-- Parts of one width, each with a joiner behind it, but the last. -/
theorem length_intercalate_of_width {c : Char} {parts : List (List Char)} {width : Nat}
    (h : ∀ part ∈ parts, part.length = width) (hne : parts ≠ []) :
    ([c].intercalate parts).length + 1 = parts.length * (width + 1) := by
  induction parts with
  | nil => exact absurd rfl hne
  | cons part parts ih =>
      obtain ⟨hpart, hparts⟩ := List.forall_mem_cons.mp h
      by_cases hnil : parts = []
      · subst hnil
        rw [List.intercalate_singleton, hpart, List.length_singleton, Nat.one_mul]
      · have hrest := ih hparts hnil
        rw [List.intercalate_cons_of_ne_nil hnil, List.length_append, List.length_append, hpart,
          List.length_singleton, List.length_cons, Nat.succ_mul, ← hrest]
        omega

namespace Family

/-- Written IPv4 addresses have no letters. -/
theorem inLowerCase_of_writes {leadingZeros : Bool} {address : Nat} {text : List Char}
    (h : v4.Writes leadingZeros address text) : InLowerCase text := by
  obtain ⟨parts, rfl, hparts⟩ := h
  intro c hc
  rcases mem_of_mem_intercalate hc with rfl | ⟨part, hpart, hmem⟩
  · rfl
  · exact forall_mem_of_forall₂ hparts.flip
      (fun _ _ hwrites => SegmentForm.inLowerCase_of_writes hwrites) part hpart c hmem

/-- Written IPv6 addresses have eight groups of four digits. -/
theorem length_of_writes {leadingZeros : Bool} {address : Nat} {text : List Char}
    (h : v6.Writes leadingZeros address text) : text.length = 39 := by
  obtain ⟨parts, rfl, hparts⟩ := h
  have hfour : ∀ part ∈ parts, part.length = 4 := by
    refine forall_mem_of_forall₂ hparts.flip fun part segment hwrites => ?_
    exact hwrites.length_eq.symm.trans (Positional.length_digits 16 4 segment)
  have height : parts.length = 8 := hparts.length_eq.symm.trans (v6.length_segments address)
  have hlength := length_intercalate_of_width (c := v6.joiner) hfour
    (List.ne_nil_of_length_pos (height ▸ Nat.zero_lt_succ 7))
  omega

end Family

/-- A source by itself matches as its pattern does only where no written form of the range has a
letter in upper case. -/
theorem Range.occurs_iff_inLowerCase (range : Range) (leadingZeros anchored : Bool) :
    (∀ text, Occurs anchored
        (fun piece => range.Written leadingZeros piece ∧ InLowerCase piece) text ↔
          Occurs anchored (range.Written leadingZeros) text) ↔
      ∀ piece, range.Written leadingZeros piece → InLowerCase piece := by
  constructor
  · intro h piece hwritten
    cases anchored with
    | true => exact ((h piece).mpr hwritten).2
    | false =>
        obtain ⟨other, hinfix, hother, hlower⟩ :=
          (h piece).mpr ⟨piece, List.infix_refl piece, hwritten⟩
        obtain ⟨address, -, hwrites⟩ := hwritten
        obtain ⟨address', -, hwrites'⟩ := hother
        cases hfamily : range.family with
        | v4 =>
            rw [hfamily] at hwrites
            exact Family.inLowerCase_of_writes hwrites
        | v6 =>
            -- All written forms have one length, so a part that is one is the whole.
            rw [hfamily] at hwrites hwrites'
            have hlength : other.length = piece.length :=
              (Family.length_of_writes hwrites').trans (Family.length_of_writes hwrites).symm
            exact hinfix.eq_of_length hlength ▸ hlower
  · intro h text
    exact Occurs.congr (fun piece => and_iff_left_of_imp (h piece)) text

end NetPattern
