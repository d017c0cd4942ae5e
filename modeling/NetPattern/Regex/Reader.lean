import NetPattern.Regex.Basic

/-!
# Reading regular expressions

The text of a pattern is cut into tokens from left to right, and the tokens are assembled into a
tree from right to left, so that a quantifier is known before the item it belongs to and a group
is open from its closing parenthesis on. What is accepted are the texts of valid trees: counts
are written in the fewest digits, and `.`, anchors and escapes of letters and digits are refused.
-/

namespace NetPattern

/-- The units of a pattern. -/
inductive Token
  | symbol (s : Symbol)
  | quantifier (q : Quantifier)
  | opening
  | closing
  | bar
deriving DecidableEq, Repr

/-- The quantifier whose counts stand between braces. -/
def Quantifier.ofCounts? (text : List Char) : Option Quantifier :=
  let candidate : Option Quantifier :=
    match text.splitOn ',' with
    | [count] => (Numeral.decimal? count).map .exactly
    | [least, []] => (Numeral.decimal? least).map .atLeast
    | [least, most] => do
        return .between (← Numeral.decimal? least) (← Numeral.decimal? most)
    | _ => none
  candidate.filter fun q => q.valid && q.counts == text

namespace Token

/-- What the characters since the last token are part of. -/
inductive Mode
  | plain
  | escape
  | parenthesis
  | questionMark
  | bracket (seen : List Char)
  | braces (seen : List Char)

/-- The token of a character that stands for itself alone. -/
def ofChar? (c : Char) : Option Token :=
  if c = ')' then some .closing
  else if c = '|' then some .bar
  else if c = '?' then some (.quantifier .optional)
  else if c = '*' then some (.quantifier .star)
  else if c = '+' then some (.quantifier .plus)
  else if isMeta c then none
  else some (.symbol (.literal c))

/-- The tokens of a text; the characters seen of an unfinished token are in reverse. -/
def scan : Mode → List Char → Option (List Token)
  | .plain, [] => some []
  | _, [] => none
  | .plain, c :: rest =>
      if c = '\\' then scan .escape rest
      else if c = '(' then scan .parenthesis rest
      else if c = '[' then scan (.bracket []) rest
      else if c = '{' then scan (.braces []) rest
      else (ofChar? c).bind fun token => (scan .plain rest).map (token :: ·)
  | .escape, c :: rest =>
      if c.isAlphanum then none
      else (scan .plain rest).map (.symbol (.escaped c) :: ·)
  | .parenthesis, c :: rest =>
      if c = '?' then scan .questionMark rest else none
  | .questionMark, c :: rest =>
      if c = ':' then (scan .plain rest).map (.opening :: ·) else none
  | .bracket seen, c :: rest =>
      if c = ']' then
        if Bracket.valid seen.reverse then
          (scan .plain rest).map (.symbol (.bracket seen.reverse) :: ·)
        else none
      else scan (.bracket (c :: seen)) rest
  | .braces seen, c :: rest =>
      if c = '}' then
        (Quantifier.ofCounts? seen.reverse).bind fun q =>
          (scan .plain rest).map (.quantifier q :: ·)
      else scan (.braces (c :: seen)) rest

end Token

namespace Regex

/-- What has been assembled of the tokens to the right of some place. -/
structure Assembly where
  /-- A quantifier whose item stands to its left. -/
  pending : Option Quantifier
  /-- The row behind the place, up to the end of the innermost group. -/
  current : Regex
  /-- For each group around the place its quantifier and the row behind it. -/
  outer : List (Quantifier × Regex)

namespace Assembly

/-- The state at the right end of a text. -/
def start : Assembly := ⟨none, done, []⟩

/-- Puts one token to the left of what has been assembled. -/
def add : Token → Assembly → Option Assembly
  | .quantifier q, ⟨none, current, outer⟩ => some ⟨some q, current, outer⟩
  | .symbol s, ⟨pending, current, outer⟩ =>
      some ⟨none, symbol s (pending.getD .once) current, outer⟩
  | .closing, ⟨pending, current, outer⟩ =>
      some ⟨none, done, (pending.getD .once, current) :: outer⟩
  | .opening, ⟨none, current, (quantifier, rest) :: outer⟩ =>
      some ⟨none, group current quantifier rest, outer⟩
  | .bar, ⟨none, current, outer⟩ => some ⟨none, bar current, outer⟩
  | _, _ => none

/-- The tree of a whole text: no quantifier waits for its item and no group is open. -/
def finish? : Assembly → Option Regex
  | ⟨none, current, []⟩ => some current
  | _ => none

end Assembly

/-- The tree of a row of tokens. -/
def ofTokens? (tokens : List Token) : Option Regex :=
  (tokens.foldrM Assembly.add Assembly.start).bind Assembly.finish?

/-- The tree whose text is given. -/
def read? (text : List Char) : Option Regex :=
  (Token.scan .plain text).bind ofTokens?

end Regex

end NetPattern
