import NetPattern.Numeral

/-!
# Regular expressions

The trees of the regular expressions that patterns are written in, with the text of each. A tree
is a row of items: single characters, bracket classes and groups, each with a quantifier, and
bars between the alternatives. The text of a tree is the texts of its items in order, so putting
two rows side by side puts their texts side by side.
-/

namespace NetPattern

/-- The characters that are no literals: each has a meaning of its own in a pattern. -/
def isMeta (c : Char) : Bool :=
  c ∈ ['\\', '.', '+', '*', '?', '(', ')', '|', '[', '{', '^', '$']

namespace Bracket

/-- The content of a bracket class behind the caret that negates it. -/
def members : List Char → List Char
  | '^' :: rest => rest
  | content => content

/-- Whether no span of a class runs downwards. -/
def ascending : List Char → Bool
  | low :: '-' :: high :: rest => low ≤ high && ascending rest
  | _ :: rest => ascending rest
  | [] => true

/-- Whether a text can stand between brackets: it names some character, has no closing bracket
and no backslash, and its spans ascend. Each character of such a text stands for itself here. An
engine may read more into some that no pattern is written with: an opening bracket as a class inside
the class, and `&&`, `--` and `~~` as operations on classes. -/
def valid (content : List Char) : Bool :=
  members content ≠ [] && ']' ∉ content && '\\' ∉ content && ascending (members content)

/-- Whether a single character or a span of a class holds the character. -/
def holds (c : Char) : List Char → Bool
  | low :: '-' :: high :: rest => (low ≤ c && c ≤ high) || holds c rest
  | single :: rest => single == c || holds c rest
  | [] => false

end Bracket

/-- The part of a pattern that takes one character. -/
inductive Symbol
  | literal (c : Char)
  | escaped (c : Char)
  | bracket (content : List Char)
deriving DecidableEq, Repr

namespace Symbol

/-- The text of a symbol. -/
def render : Symbol → List Char
  | literal c => [c]
  | escaped c => ['\\', c]
  | bracket content => '[' :: content ++ [']']

/-- Whether the text of the symbol is read back as it. Letters and digits are never escaped, as
their escapes have meanings of their own. Any other escape stands for its character here. Some that
no pattern is written with an engine reads otherwise or refuses: `\<` and `\>`, which are the ends
of words, and those of characters beyond ASCII. -/
def valid : Symbol → Bool
  | literal c => !isMeta c
  | escaped c => !c.isAlphanum
  | bracket content => Bracket.valid content

end Symbol

/-- How often an item of a pattern repeats. -/
inductive Quantifier
  | once
  | optional
  | star
  | plus
  | exactly (count : Nat)
  | atLeast (least : Nat)
  | between (least most : Nat)
deriving DecidableEq, Repr

namespace Quantifier

/-- The counts of a quantifier as they stand between braces. -/
def counts : Quantifier → List Char
  | exactly count => Numeral.decimal count
  | atLeast least => Numeral.decimal least ++ [',']
  | between least most => Numeral.decimal least ++ ',' :: Numeral.decimal most
  | _ => []

/-- The text of a quantifier. -/
def render : Quantifier → List Char
  | once => []
  | optional => ['?']
  | star => ['*']
  | plus => ['+']
  | quantifier => '{' :: quantifier.counts ++ ['}']

/-- The fewest repetitions. -/
def least : Quantifier → Nat
  | once => 1
  | optional => 0
  | star => 0
  | plus => 1
  | exactly count => count
  | atLeast least => least
  | between least _ => least

/-- The most repetitions, where there is a bound. -/
def most? : Quantifier → Option Nat
  | once => some 1
  | optional => some 1
  | star => none
  | plus => none
  | exactly count => some count
  | atLeast _ => none
  | between _ most => some most

/-- Whether the bounds are in order. -/
def valid : Quantifier → Bool
  | between least most => least ≤ most
  | _ => true

end Quantifier

/-- A regular expression as a row of items. -/
inductive Regex
  /-- The end of the row. -/
  | done
  /-- The end of one alternative and the start of the next. -/
  | bar (rest : Regex)
  /-- A single character, repeated. -/
  | symbol (s : Symbol) (quantifier : Quantifier) (rest : Regex)
  /-- A group that captures nothing, repeated. -/
  | group (inner : Regex) (quantifier : Quantifier) (rest : Regex)
deriving DecidableEq, Repr

namespace Regex

/-- The text of a regular expression. -/
def render : Regex → List Char
  | done => []
  | bar rest => '|' :: rest.render
  | symbol s quantifier rest => s.render ++ quantifier.render ++ rest.render
  | group inner quantifier rest =>
      '(' :: '?' :: ':' :: inner.render ++ ')' :: quantifier.render ++ rest.render

/-- Whether every symbol and quantifier of the expression has a text that is read back. -/
def valid : Regex → Bool
  | done => true
  | bar rest => rest.valid
  | symbol s quantifier rest => s.valid && quantifier.valid && rest.valid
  | group inner quantifier rest => inner.valid && quantifier.valid && rest.valid

/-- Whether the expression is a single alternative. -/
def isSingle : Regex → Bool
  | done => true
  | bar _ => false
  | symbol _ _ rest => rest.isSingle
  | group _ _ rest => rest.isSingle

/-- One row of items behind another. -/
def append : Regex → Regex → Regex
  | done, second => second
  | bar rest, second => bar (rest.append second)
  | symbol s quantifier rest, second => symbol s quantifier (rest.append second)
  | group inner quantifier rest, second => group inner quantifier (rest.append second)

instance : Append Regex := ⟨append⟩

@[simp] theorem done_append (second : Regex) : done ++ second = second := rfl

@[simp] theorem bar_append (rest second : Regex) :
    bar rest ++ second = bar (rest ++ second) := rfl

@[simp] theorem symbol_append (s : Symbol) (quantifier : Quantifier) (rest second : Regex) :
    symbol s quantifier rest ++ second = symbol s quantifier (rest ++ second) := rfl

@[simp] theorem group_append (inner : Regex) (quantifier : Quantifier) (rest second : Regex) :
    group inner quantifier rest ++ second = group inner quantifier (rest ++ second) := rfl

@[simp] theorem append_done (first : Regex) : first ++ done = first := by
  induction first with
  | done => rfl
  | bar rest ih => rw [bar_append, ih]
  | symbol s quantifier rest ih => rw [symbol_append, ih]
  | group inner quantifier rest _ ih => rw [group_append, ih]

theorem append_assoc (first second third : Regex) :
    first ++ second ++ third = first ++ (second ++ third) := by
  induction first with
  | done => rfl
  | bar rest ih => simp only [bar_append, ih]
  | symbol s quantifier rest ih => simp only [symbol_append, ih]
  | group inner quantifier rest _ ih => simp only [group_append, ih]

/-- The text of two rows is the text of the first and then that of the second. -/
theorem render_append (first second : Regex) :
    (first ++ second).render = first.render ++ second.render := by
  induction first with
  | done => rfl
  | bar rest ih => simp [render, ih]
  | symbol s quantifier rest ih => simp [render, ih]
  | group inner quantifier rest _ ih => simp [render, ih]

end Regex

end NetPattern
