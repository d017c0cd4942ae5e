import NetPattern.Json.Basic
import NetPattern.Positional
import NetPattern.Json.Units
import NetPattern.Numeral

/-!
# JSON tokens

A JSON text as a row of tokens: the values that are no containers, and the punctuation. Blanks
stand between tokens only.
-/

namespace NetPattern.Json

/-- The units of a JSON text. -/
inductive Token
  | scalar (value : Json)
  | openArray
  | closeArray
  | openObject
  | closeObject
  | comma
  | colon

/-- What was read at the start of a text, and the shorter rest behind it. -/
structure Consumed (α : Type) {β : Type} (text : List β) where
  value : α
  rest : List β
  shorter : rest.length < text.length

/-- The same reading as part of a longer text. -/
def Consumed.within {α β γ : Type} {text longer : List β} (f : α → γ)
    (consumed : Consumed α text) (h : text.length ≤ longer.length) : Consumed γ longer where
  value := f consumed.value
  rest := consumed.rest
  shorter := Nat.lt_of_lt_of_le consumed.shorter h

/-- The blanks of JSON. -/
def isBlank (c : Char) : Bool :=
  c == ' ' || c == '\t' || c == '\n' || c == '\r'

/-- The code unit that a backslash and a character name. -/
def escape? : Char → Option Nat
  | '"' => some 0x22
  | '\\' => some 0x5C
  | '/' => some 0x2F
  | 'b' => some 0x8
  | 'f' => some 0xC
  | 'n' => some 0xA
  | 'r' => some 0xD
  | 't' => some 0x9
  | _ => none

/-- The code units up to a closing quotation mark. Control characters need an escape. -/
def stringBody : (text : List Char) → Option (Consumed (List Nat) text)
  | '"' :: rest => some ⟨[], rest, by simp⟩
  | '\\' :: 'u' :: a :: b :: c :: d :: rest => do
      let digits ← [a, b, c, d].mapM Numeral.hexDigit?
      let more ← stringBody rest
      return more.within (Positional.value 16 digits :: ·) (by simp only [List.length_cons]; omega)
  | '\\' :: c :: rest => do
      let unit ← escape? c
      let more ← stringBody rest
      return more.within (unit :: ·) (by simp only [List.length_cons]; omega)
  | c :: rest =>
      if c.toNat < 0x20 then none
      else do
        let more ← stringBody rest
        return more.within (Units.ofChar c ++ ·) (by simp)
  | [] => none

/-- Whether a text is the exponent of a number, or empty. -/
def isExponent : List Char → Bool
  | [] => true
  | e :: rest =>
      let digits := match rest with
        | '+' :: more => more
        | '-' :: more => more
        | _ => rest
      (e == 'e' || e == 'E') && digits ≠ [] && digits.all Char.isDigit

/-- Whether a text is the fraction and exponent of a number, either of them possibly missing. -/
def isFraction : List Char → Bool
  | '.' :: rest => rest.takeWhile Char.isDigit ≠ [] && isExponent (rest.dropWhile Char.isDigit)
  | text => isExponent text

/-- Whether a text is a number: no digit follows a leading zero. -/
def isNumber (text : List Char) : Bool :=
  let body := match text with
    | '-' :: rest => rest
    | _ => text
  let whole := body.takeWhile Char.isDigit
  whole ≠ [] && (whole == ['0'] || whole.head? ≠ some '0') &&
    isFraction (body.dropWhile Char.isDigit)

/-- The characters that numbers are made of. -/
def isNumberChar (c : Char) : Bool :=
  c.isDigit || c == '+' || c == '-' || c == '.' || c == 'e' || c == 'E'

/-- The token of a punctuation character. -/
def punctuation? : Char → Option Token
  | '[' => some .openArray
  | ']' => some .closeArray
  | '\x7b' => some .openObject
  | '\x7d' => some .closeObject
  | ',' => some .comma
  | ':' => some .colon
  | _ => none

/-- A token at the start of a text. -/
def token? : (text : List Char) → Option (Consumed Token text)
  | 't' :: 'r' :: 'u' :: 'e' :: rest =>
      some ⟨.scalar (.bool true), rest, by simp only [List.length_cons]; omega⟩
  | 'f' :: 'a' :: 'l' :: 's' :: 'e' :: rest =>
      some ⟨.scalar (.bool false), rest, by simp only [List.length_cons]; omega⟩
  | 'n' :: 'u' :: 'l' :: 'l' :: rest =>
      some ⟨.scalar .null, rest, by simp only [List.length_cons]; omega⟩
  | '"' :: rest =>
      (stringBody rest).map fun body => body.within (fun units => .scalar (.string units)) (by simp)
  | c :: rest =>
      match punctuation? c with
      | some token => some ⟨token, rest, by simp⟩
      | none =>
          let written := c :: rest.takeWhile isNumberChar
          if isNumber written then
            some ⟨.scalar (.number written), rest.dropWhile isNumberChar,
              Nat.lt_succ_of_le (List.dropWhile_suffix _).length_le⟩
          else none
  | [] => none

/-- All tokens of a text. -/
def tokens? : List Char → Option (List Token)
  | [] => some []
  | c :: rest =>
      if isBlank c then tokens? rest
      else
        match token? (c :: rest) with
        | some ⟨token, behind, _⟩ => (tokens? behind).map (token :: ·)
        | none => none
termination_by text => text.length
decreasing_by
  · exact Nat.lt_succ_self rest.length
  · assumption

end NetPattern.Json
