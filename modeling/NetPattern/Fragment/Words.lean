import NetPattern.Fragment.Hextet
import NetPattern.Fragment.Octet

/-!
# Fragments in words

The fragments of ranges whose bounds are words: a digit of a hextet has 8 bits, and a segment 16. Two
rows of digits are compared to find the first place where they differ, and the digits there and the
rests behind them are looked up. What the bounds of a range have to be is checked, and so is each
step that could leave a word or reach behind the end of a list. A result shows that no check failed.
-/

namespace NetPattern

/-- The sum of two words, unless they have no room for it. -/
def sum? {width : Nat} (first second : BitVec width) : Option (BitVec width) :=
  if first.uaddOverflow second then none else some (first + second)

/-- The difference of two words, unless it is negative. -/
def difference? {width : Nat} (first second : BitVec width) : Option (BitVec width) :=
  if first.usubOverflow second then none else some (first - second)

/-- Whether two rows of words can bound a range: one is as long as the other, and they are in
order. -/
def WordBounds {width : Nat} (low high : List (BitVec width)) : Prop :=
  low.length = high.length ∧ low ≤ high

instance {width : Nat} (low high : List (BitVec width)) : Decidable (WordBounds low high) :=
  inferInstanceAs (Decidable (_ ∧ _))

namespace Fragment

/-- The character of a digit, looked up in the list of all of them. -/
def digitChar? (digit : BitVec 8) : Option Char :=
  "0123456789abcdef".toList[digit.toNat]?

/-- A span of digits inside a bracket class. -/
def digitSpan? (low high : BitVec 8) : Option Fragment := do
  let first ← digitChar? low
  let steps ← difference? high low
  if steps = 0 then return [first]
  else if steps = 1 then return [first, ← digitChar? high]
  else return [first, '-', ← digitChar? high]

/-- The span of the decimal digits from `low` to `high`, if there are any. -/
def decimalSpan? (low high : BitVec 8) : Option Fragment :=
  if low ≤ 9 then digitSpan? low (if high ≤ 9 then high else 9) else some []

/-- The span of the letters from `low` to `high`, if there are any. -/
def letterSpan? (low high : BitVec 8) : Option Fragment :=
  if 10 ≤ high then digitSpan? (if 10 ≤ low then low else 10) high else some []

/-- One digit from `low` to `high`, which have to be digits in order. -/
def digitClass? (low high : BitVec 8) : Option Fragment := do
  guard (low ≤ high ∧ high ≤ 15)
  if low = high then return [← digitChar? low]
  else return '[' :: (← decimalSpan? low high) ++ (← letterSpan? low high) ++ [']']

/-- The least digit that any digits may follow: that of the lower bound or, where its rest is not
open, the next one. -/
def firstFree? (l : BitVec 8) (lowOpen : Bool) : Option (BitVec 8) :=
  if lowOpen then some l else sum? l 1

/-- The largest digit that any digits may follow: that of the upper bound or, where its rest is not
open, the one before. -/
def lastFree? (h : BitVec 8) (highOpen : Bool) : Option (BitVec 8) :=
  if highOpen then some h else difference? h 1

/-- The part of a range that begins with a digit which any `width` digits may follow, if there is
such a digit. -/
def freePart? (width : Nat) (l h : BitVec 8) (lowOpen highOpen : Bool) :
    Option (List Fragment) := do
  let first ← firstFree? l lowOpen
  let last ← lastFree? h highOpen
  if first ≤ last then
    if first = 0 ∧ last = 15 then return [anyDigits (width + 1)]
    else return [(← digitClass? first last) ++ anyDigits width]
  else return []

/-- Whether two rows bound a range of rows of digits, so that no member of them is more than a
digit. -/
def DigitBounds (low high : List (BitVec 8)) : Prop :=
  WordBounds low high ∧ ∀ digit ∈ low ++ high, digit ≤ 15

instance (low high : List (BitVec 8)) : Decidable (DigitBounds low high) :=
  inferInstanceAs (Decidable (_ ∧ _))

/-- The fragment of the rows of digits between two of them. -/
def digitRange? (low high : List (BitVec 8)) : Option Fragment :=
  if ¬ DigitBounds low high then none
  else if low = high then low.mapM digitChar?
  else if low.all (· = 0) ∧ high.all (· = 15) then some (anyDigits low.length)
  else
    match (low.zip high).findIdx? fun (l, h) => l ≠ h with
    | none => low.mapM digitChar?
    | some place =>
        if hplace : place < low.length ∧ place < high.length then
          let lowRest := low.drop (place + 1)
          let highRest := high.drop (place + 1)
          let width := lowRest.length
          let lowOpen := lowRest.all (· = 0)
          let highOpen := highRest.all (· = 15)
          let lowest : Option (List Fragment) :=
            if lowOpen then some []
            else do
              let rest ← digitRange? lowRest (List.replicate width 15)
              return [(← digitChar? low[place]) :: rest]
          let highest : Option (List Fragment) :=
            if highOpen then some []
            else do
              let rest ← digitRange? (List.replicate width 0) highRest
              return [(← digitChar? high[place]) :: rest]
          do
            let common ← (low.take place).mapM digitChar?
            let free ← freePart? width low[place] high[place] lowOpen highOpen
            return common ++ union ((← lowest) ++ free ++ (← highest))
        else none
termination_by low.length
decreasing_by all_goals simp; omega

/-- The four digits of a hextet, moved to its low end and masked out of it. -/
def hextetDigits (hextet : BitVec 16) : List (BitVec 8) :=
  [(hextet >>> 12).setWidth 8, (hextet >>> 8).setWidth 8 &&& 15,
    (hextet >>> 4).setWidth 8 &&& 15, hextet.setWidth 8 &&& 15]

/-- The fragment of the hextets from `low` to `high`, which have to be in order. -/
def hextetRange? (low high : BitVec 16) : Option Fragment := do
  guard (low ≤ high)
  digitRange? (hextetDigits low) (hextetDigits high)

/-- The fragment of the octets from `low` to `high`, which have to be octets in order. -/
def octetRange? (padded : Bool) (low high : BitVec 16) : Option Fragment := do
  guard (low ≤ high ∧ high ≤ 255)
  return octetRange padded low.toNat high.toNat

end Fragment

end NetPattern
