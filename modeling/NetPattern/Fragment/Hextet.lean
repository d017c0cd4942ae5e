import NetPattern.Fragment.Basic
import NetPattern.Positional
import NetPattern.Numeral

/-!
# Fragments for hextets

The hextets of a range, written as four hexadecimal digits in lower case. The range is split at
the first digit where its bounds differ: the lower digit with the rest from the lower bound on,
the digits between with any rest, and the upper digit with the rest up to the upper bound. A
bound whose rest already spans everything joins the digits between.
-/

namespace NetPattern.Fragment

/-- Any `count` digits. -/
def anyDigits : (count : Nat) → Fragment
  | 0 => []
  | 1 => "[0-9a-f]".toList
  | count => "[0-9a-f]".toList ++ '{' :: Numeral.decimal count ++ ['}']

/-- The fragment of all hextets. -/
def anyHextet : Fragment := anyDigits 4

/-- A span of digits inside a bracket class, where both ends are decimal or both are letters. -/
def digitSpan (low high : Nat) : Fragment :=
  match high - low with
  | 0 => [low.digitChar]
  | 1 => [low.digitChar, high.digitChar]
  | _ => [low.digitChar, '-', high.digitChar]

/-- One digit from `low` to `high`. The letters do not follow the decimal digits, so that a range
with both has a span for each. -/
def digitClass (low high : Nat) : Fragment :=
  if low = high then [low.digitChar]
  else
    '[' :: (if low ≤ 9 then digitSpan low (min high 9) else []) ++
      (if 10 ≤ high then digitSpan (max low 10) high else []) ++ [']']

/-- The digits given, in order. -/
def digitText (digits : List Nat) : Fragment :=
  digits.map Nat.digitChar

/-- The fragment of the rows of `width` digits between two such rows. -/
def digitRange : (width : Nat) → (low high : List Nat) → Fragment
  | width + 1, l :: low, h :: high =>
      if l :: low = h :: high then digitText (l :: low)
      else if (l :: low).all (· = 0) ∧ (h :: high).all (· = 15) then anyDigits (width + 1)
      else if l = h then l.digitChar :: digitRange width low high
      else
        let lowOpen := low.all (· = 0)
        let highOpen := high.all (· = 15)
        let first := if lowOpen then l else l + 1
        let last := if highOpen then h else h - 1
        let lowest :=
          if lowOpen then []
          else [l.digitChar :: digitRange width low (List.replicate width 15)]
        let middle :=
          if first ≤ last then [digitClass first last ++ anyDigits width] else []
        let highest :=
          if highOpen then []
          else [h.digitChar :: digitRange width (List.replicate width 0) high]
        union (lowest ++ middle ++ highest)
  | _, _, _ => []

/-- The fragment of the hextets from `low` to `high`. -/
def hextetRange (low high : Nat) : Fragment :=
  digitRange 4 (Positional.digits 16 4 low) (Positional.digits 16 4 high)

/-- Answers a request for the hextets from `low` to `high` and keeps nothing. -/
def freshHextets (low high : Nat) : Id Fragment :=
  pure (hextetRange low high)

end NetPattern.Fragment
