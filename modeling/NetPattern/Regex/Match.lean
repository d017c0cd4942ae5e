import NetPattern.Regex.Basic

/-!
# Matching

A pattern tried at some place of a text may end at several places. They are listed in the order
in which a backtracking search finds them: alternatives as they are written, repetitions as many
as possible first. A place is given by what is left of the text there.
-/

namespace NetPattern

/-- The character and, where case is ignored, its two case forms. -/
def caseForms (ignoreCase : Bool) (c : Char) : List Char :=
  if ignoreCase then [c, c.toLower, c.toUpper] else [c]

/-- Whether a bracket class takes a character. -/
def Bracket.accepts (ignoreCase : Bool) (content : List Char) (c : Char) : Bool :=
  ((caseForms ignoreCase c).any fun form => holds form (members content)) !=
    (content.head? == some '^')

/-- Whether a symbol takes a character. -/
def Symbol.accepts (ignoreCase : Bool) : Symbol → Char → Bool
  | literal c, d => (caseForms ignoreCase d).contains c
  | escaped c, d => (caseForms ignoreCase d).contains c
  | bracket content, d => Bracket.accepts ignoreCase content d

/-- What a symbol leaves of a text. -/
def Symbol.remainders (ignoreCase : Bool) (s : Symbol) : List Char → List (List Char)
  | [] => []
  | c :: rest => if s.accepts ignoreCase c then [rest] else []

namespace Quantifier

/-- What exactly `count` repetitions of a step leave of a text. -/
def repeatExactly (step : List Char → List (List Char)) : Nat → List Char → List (List Char)
  | 0, text => [text]
  | count + 1, text => (step text).flatMap (repeatExactly step count)

/-- What at most `count` repetitions of a step leave of a text, more of them first. -/
def repeatUpTo (step : List Char → List (List Char)) : Nat → List Char → List (List Char)
  | 0, text => [text]
  | count + 1, text => (step text).flatMap (repeatUpTo step count) ++ [text]

/-- What the repetitions of a step leave of a text. Without an upper bound one repetition for
each character left is enough, since those that take none change nothing. -/
def remainders (quantifier : Quantifier) (step : List Char → List (List Char))
    (text : List Char) : List (List Char) :=
  (repeatExactly step quantifier.least text).flatMap fun rest =>
    match quantifier.most? with
    | some most => repeatUpTo step (most - quantifier.least) rest
    | none => repeatUpTo step rest.length rest

end Quantifier

namespace Regex

mutual

/-- What the first alternative leaves of a text. -/
def firstRemainders (ignoreCase : Bool) : Regex → List Char → List (List Char)
  | done, text => [text]
  | bar _, text => [text]
  | symbol s quantifier rest, text =>
      (quantifier.remainders (s.remainders ignoreCase) text).flatMap
        (rest.firstRemainders ignoreCase)
  | group inner quantifier rest, text =>
      (quantifier.remainders
        (fun piece => inner.firstRemainders ignoreCase piece ++
          inner.otherRemainders ignoreCase piece) text).flatMap
        (rest.firstRemainders ignoreCase)

/-- What the alternatives after the first leave of a text. -/
def otherRemainders (ignoreCase : Bool) : Regex → List Char → List (List Char)
  | done, _ => []
  | bar rest, text => rest.firstRemainders ignoreCase text ++ rest.otherRemainders ignoreCase text
  | symbol _ _ rest, text => rest.otherRemainders ignoreCase text
  | group _ _ rest, text => rest.otherRemainders ignoreCase text

end

/-- What the expression leaves of a text, in the order of preference. -/
def remainders (ignoreCase : Bool) (regex : Regex) (text : List Char) : List (List Char) :=
  regex.firstRemainders ignoreCase text ++ regex.otherRemainders ignoreCase text

/-- Whether the expression takes a whole text. -/
def matchesWhole (ignoreCase : Bool) (regex : Regex) (text : List Char) : Bool :=
  (regex.remainders ignoreCase text).contains []

end Regex

end NetPattern
