/-!
# Fragments of patterns

A fragment is the text of a pattern for one segment of an address. Several are united into one
that matches what any of them does: the alternatives of each are taken out of its group, repeated
ones are dropped, and what is left is put into one group. Finding the alternatives of a text needs
no reading of it: a bar separates alternatives where it stands in no group, in no bracket class
and behind no backslash.
-/

namespace NetPattern

/-- The text of a pattern, or of a part of one. -/
abbrev Fragment := List Char

namespace Fragment

/-- What a character of a fragment is part of. -/
inductive Context
  | plain
  | escape
  | bracket
deriving DecidableEq, Repr

/-- A place in a fragment: its context, and the number of groups around it. -/
structure Place where
  context : Context
  depth : Nat
deriving DecidableEq, Repr

namespace Place

/-- The place at the start of a fragment. -/
def start : Place := ⟨.plain, 0⟩

/-- The place behind a character. A closing parenthesis without a group closes nothing. -/
def next (place : Place) (c : Char) : Place :=
  match place.context with
  | .escape => ⟨.plain, place.depth⟩
  | .bracket => ⟨if c = ']' then .plain else .bracket, place.depth⟩
  | .plain =>
      if c = '\\' then ⟨.escape, place.depth⟩
      else if c = '[' then ⟨.bracket, place.depth⟩
      else if c = '(' then ⟨.plain, place.depth + 1⟩
      else if c = ')' then ⟨.plain, place.depth - 1⟩
      else place

end Place

/-- The pieces of a text between the bars that stand in no group, from a place on. -/
def alternativesFrom : Place → List Char → List Fragment
  | _, [] => [[]]
  | place, c :: rest =>
      if place = .start ∧ c = '|' then [] :: alternativesFrom .start rest
      else (alternativesFrom (place.next c) rest).modifyHead (c :: ·)

/-- The alternatives of a fragment. -/
def alternatives (text : Fragment) : List Fragment :=
  alternativesFrom .start text

/-- Whether all groups that are open at a place or opened behind it are closed, and no other. -/
def closesFrom : Place → List Char → Bool
  | place, [] => place.depth == 0
  | place, c :: rest =>
      if place = .start ∧ c = ')' then false else closesFrom (place.next c) rest

/-- What is inside a fragment that is one group and nothing else. -/
def ungroup? : Fragment → Option Fragment
  | '(' :: '?' :: ':' :: rest =>
      if rest.getLast? = some ')' ∧ closesFrom .start rest.dropLast then some rest.dropLast
      else none
  | _ => none

/-- A group with the given alternatives. -/
def group (pieces : List Fragment) : Fragment :=
  "(?:".toList ++ ['|'].intercalate pieces ++ [')']

/-- The distinct alternatives of several fragments, in the order in which they first appear. -/
def distinctAlternatives (parts : List Fragment) : List Fragment :=
  (parts.flatMap fun part => alternatives ((ungroup? part).getD part)).eraseDups

/-- One fragment for several. A single alternative needs no group. -/
def union (parts : List Fragment) : Fragment :=
  match distinctAlternatives parts with
  | [] => []
  | [single] => single
  | pieces => group pieces

end Fragment

end NetPattern
