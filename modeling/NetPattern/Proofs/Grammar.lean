import NetPattern.Proofs.Numeral
import NetPattern.Regex.LeftFactor.Language

/-!
# The grammar of sources

The sources of patterns are written in a small part of the language of regular expressions: digits
and separators, classes of digits, three quantifiers, and groups with the alternatives inside. The
grammar is one of texts; the text of an expression is a phrase of it where its symbols and
quantifiers are of these kinds.
-/

namespace NetPattern.Grammar

/-- The content of a bracket class: digits and spans of digits, each from `least` on and all in
ascending order. -/
inductive Spans : (least : Nat) → List Char → Prop
  | nil {least : Nat} : Spans least []
  | digit {least d : Nat} {rest : List Char} (hleast : least ≤ d) (hd : d < 16)
      (hrest : Spans (d + 1) rest) : Spans least (d.digitChar :: rest)
  | span {least low high : Nat} {rest : List Char} (hleast : least ≤ low) (hlow : low < high)
      (hhigh : high < 16) (hrest : Spans (high + 1) rest) :
      Spans least (low.digitChar :: '-' :: high.digitChar :: rest)

/-- What takes one character: a digit, a separator or a class. -/
inductive Atom : List Char → Prop
  | digit {d : Nat} (hd : d < 16) : Atom [d.digitChar]
  | colon : Atom [':']
  | dot : Atom ['\\', '.']
  | bracket {content : List Char} (hne : content ≠ []) (hspans : Spans 0 content) :
      Atom ('[' :: content ++ [']'])

/-- What may stand behind an atom. -/
inductive Repetition : List Char → Prop
  | once : Repetition []
  | optional : Repetition ['?']
  | exactly (count : Nat) : Repetition ('{' :: Numeral.decimal count ++ ['}'])
  | between {least most : Nat} (hle : least ≤ most) :
      Repetition ('{' :: (Numeral.decimal least ++ ',' :: Numeral.decimal most) ++ ['}'])

/-- The phrases of the grammar: rows of items, which have no bar outside their groups, and
alternatives, which are such rows with bars between them. -/
inductive Phrase : (alternatives : Bool) → List Char → Prop
  | empty : Phrase false []
  | atom {atom repetition rest : List Char} (hatom : Atom atom)
      (hrepetition : Repetition repetition) (hrest : Phrase false rest) :
      Phrase false (atom ++ repetition ++ rest)
  | group {inner rest : List Char} (hinner : Phrase true inner) (hrest : Phrase false rest) :
      Phrase false ("(?:".toList ++ inner ++ ')' :: rest)
  | single {text : List Char} (htext : Phrase false text) : Phrase true text
  | bar {first rest : List Char} (hfirst : Phrase false first) (hrest : Phrase true rest) :
      Phrase true (first ++ '|' :: rest)

/-- Whether the symbols and quantifiers of an expression are of the kinds of the grammar, which
repeats no group. -/
abbrev Regular (regex : Regex) : Prop :=
  regex.All (fun s => Atom s.render) (fun quantifier => Repetition quantifier.render) (· = .once)

/-- What leads a row of items also leads alternatives. -/
theorem Phrase.lead {front text : List Char}
    (hfront : ∀ rest, Phrase false rest → Phrase false (front ++ rest)) (h : Phrase true text) :
    Phrase true (front ++ text) := by
  cases h with
  | single htext => exact .single (hfront _ htext)
  | bar hfirst hrest =>
      rw [← List.append_assoc]
      exact .bar (hfront _ hfirst) hrest

/-- The text of an expression is a phrase where its parts are of the kinds of the grammar. -/
theorem phrase_render {regex : Regex} (hall : Regular regex) :
    Phrase true regex.render ∧ (regex.isSingle = true → Phrase false regex.render) := by
  induction regex with
  | done => exact ⟨.single .empty, fun _ => .empty⟩
  | bar rest ih => exact ⟨.bar .empty (ih hall).1, nofun⟩
  | symbol s quantifier rest ih =>
      obtain ⟨hs, hquantifier, hrest⟩ := hall
      exact ⟨Phrase.lead (fun _ => .atom hs hquantifier) (ih hrest).1,
        fun hsingle => .atom hs hquantifier ((ih hrest).2 hsingle)⟩
  | group inner quantifier rest ihinner ihrest =>
      obtain ⟨hinner, rfl, hrest⟩ := hall
      have hgroup : ∀ more, Phrase false more →
          Phrase false ("(?:".toList ++ inner.render ++ [')'] ++ more) := by
        intro more hmore
        rw [List.append_assoc]
        exact .group (ihinner hinner).1 hmore
      exact ⟨Phrase.lead hgroup (ihrest hrest).1,
        fun hsingle => hgroup _ ((ihrest hrest).2 hsingle)⟩

/-! ### The characters of a source -/

/-- The characters that a phrase is written with. -/
def alphabet : List Char :=
  "0123456789abcdef:\\.[-]?\x7b,\x7d(|)".toList

theorem digitChar_mem_alphabet {d : Nat} (hd : d < 16) : d.digitChar ∈ alphabet := by
  have hall : ∀ d : Fin 16, d.val.digitChar ∈ alphabet := by decide
  exact hall ⟨d, hd⟩

theorem decimal_subset_alphabet (n : Nat) : Numeral.decimal n ⊆ alphabet := by
  obtain ⟨ds, -, hlt, -, -, htext⟩ := Numeral.exists_digits (show 1 < 10 by decide) n
  rw [Numeral.decimal, htext]
  intro c hc
  obtain ⟨d, hd, rfl⟩ := List.mem_map.mp hc
  exact digitChar_mem_alphabet (Nat.lt_trans (hlt d hd) (by decide))

theorem Spans.subset_alphabet {least : Nat} {content : List Char} (h : Spans least content) :
    content ⊆ alphabet := by
  induction h with
  | nil => exact List.nil_subset _
  | digit _ hd _ ih => exact List.cons_subset.mpr ⟨digitChar_mem_alphabet hd, ih⟩
  | span _ hlow hhigh _ ih =>
      exact List.cons_subset.mpr ⟨digitChar_mem_alphabet (Nat.lt_trans hlow hhigh),
        List.cons_subset.mpr ⟨by decide, List.cons_subset.mpr ⟨digitChar_mem_alphabet hhigh, ih⟩⟩⟩

theorem Atom.subset_alphabet {text : List Char} (h : Atom text) : text ⊆ alphabet := by
  cases h with
  | digit hd => exact List.cons_subset.mpr ⟨digitChar_mem_alphabet hd, List.nil_subset _⟩
  | colon => decide
  | dot => decide
  | bracket _ hspans =>
      exact List.append_subset.mpr
        ⟨List.cons_subset.mpr ⟨by decide, hspans.subset_alphabet⟩, by decide⟩

theorem Repetition.subset_alphabet {text : List Char} (h : Repetition text) :
    text ⊆ alphabet := by
  cases h with
  | once => decide
  | optional => decide
  | exactly count =>
      exact List.append_subset.mpr
        ⟨List.cons_subset.mpr ⟨by decide, decimal_subset_alphabet count⟩, by decide⟩
  | between =>
      exact List.append_subset.mpr
        ⟨List.cons_subset.mpr ⟨by decide, List.append_subset.mpr ⟨decimal_subset_alphabet _,
          List.cons_subset.mpr ⟨by decide, decimal_subset_alphabet _⟩⟩⟩, by decide⟩

/-- A phrase is written with the characters of the alphabet only. -/
theorem Phrase.subset_alphabet {alternatives : Bool} {text : List Char}
    (h : Phrase alternatives text) : text ⊆ alphabet := by
  induction h with
  | empty => exact List.nil_subset _
  | atom hatom hrepetition _ ih =>
      exact List.append_subset.mpr ⟨List.append_subset.mpr
        ⟨hatom.subset_alphabet, hrepetition.subset_alphabet⟩, ih⟩
  | group _ _ ihinner ihrest =>
      exact List.append_subset.mpr ⟨List.append_subset.mpr ⟨by decide, ihinner⟩,
        List.cons_subset.mpr ⟨by decide, ihrest⟩⟩
  | single _ ih => exact ih
  | bar _ _ ihfirst ihrest =>
      exact List.append_subset.mpr ⟨ihfirst, List.cons_subset.mpr ⟨by decide, ihrest⟩⟩

end NetPattern.Grammar
