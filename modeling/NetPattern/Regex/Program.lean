import NetPattern.Regex.LeftFactor
import NetPattern.Regex.Match
import NetPattern.Regex.Reader

/-!
# Searching a text

A pattern between `^` and `$` matches whole texts only. Any other matches wherever some part of
the text does, and a search reports such parts from left to right: at each place the preferred
match, and then on behind it.
-/

namespace NetPattern

/-- A pattern that can be run. -/
structure Program where
  ignoreCase : Bool
  anchored : Bool
  body : Regex
deriving DecidableEq, Repr

/-- A part of a text, by the offsets in bytes of its start and of the place behind it. -/
structure Span where
  start : Nat
  stop : Nat
deriving DecidableEq, Repr

/-- The length of a text in the bytes of UTF-8. -/
def byteLength : List Char → Nat
  | [] => 0
  | c :: rest => c.utf8Size + byteLength rest

namespace Program

/-- The body of a pattern that anchors hold together. -/
def anchoredBody? (source : List Char) : Option (List Char) :=
  match source with
  | '^' :: rest => if rest.getLast? = some '$' then some rest.dropLast else none
  | _ => none

/-- The source of a pattern as it is written. Anchors are read only at both ends, and only around a
single alternative, which they then govern as a whole. -/
def readWritten? (ignoreCase : Bool) (source : List Char) : Option Program :=
  match anchoredBody? source with
  | some inner =>
      ((Regex.read? inner).filter Regex.isSingle).map fun body => ⟨ignoreCase, true, body⟩
  | none => (Regex.read? source).map fun body => ⟨ignoreCase, false, body⟩

/-- The program with its body left factored. -/
def leftFactor (program : Program) : Program :=
  { program with body := program.body.leftFactor }

/-- The program that the source of a pattern stands for. What it prefers to match, and so what a
search finds, goes by the order of the left-factored body and not by that of the alternatives as
they are written: `(?:0?0|0?1)` is run as `0?(?:0|1)` and finds all of `01`, where its first
alternative alone would take the `0`. The texts that the body takes are the same. -/
def read? (ignoreCase : Bool) (source : List Char) : Option Program :=
  (readWritten? ignoreCase source).map leftFactor

/-- The length of the preferred match at the start of a text. -/
def matchLength? (program : Program) (text : List Char) : Option Nat :=
  (program.body.remainders program.ignoreCase text).head?.map fun rest =>
    text.length - rest.length

/-- Whether the body matches at some place of a text, its end included. -/
def occursIn (program : Program) : List Char → Bool
  | [] => (program.matchLength? []).isSome
  | c :: rest => (program.matchLength? (c :: rest)).isSome || program.occursIn rest

/-- Whether the pattern matches a text. -/
def isMatch (program : Program) (text : List Char) : Bool :=
  if program.anchored then program.body.matchesWhole program.ignoreCase text
  else program.occursIn text

/-- The matches that take some character, from a place at `offset` on, where the next `skip`
characters belong to the match before. -/
def spansFrom (program : Program) : (offset skip : Nat) → List Char → List Span
  | _, _, [] => []
  | offset, skip + 1, c :: rest => program.spansFrom (offset + c.utf8Size) skip rest
  | offset, 0, c :: rest =>
      match program.matchLength? (c :: rest) with
      | some (more + 1) =>
          ⟨offset, offset + byteLength ((c :: rest).take (more + 1))⟩ ::
            program.spansFrom (offset + c.utf8Size) more rest
      | _ => program.spansFrom (offset + c.utf8Size) 0 rest

/-- The successive matches in a text that take some character. -/
def spans (program : Program) (text : List Char) : List Span :=
  if program.anchored then
    if text ≠ [] ∧ program.isMatch text then [⟨0, byteLength text⟩] else []
  else program.spansFrom 0 0 text

end Program

end NetPattern
