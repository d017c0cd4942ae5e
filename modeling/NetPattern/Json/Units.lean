/-!
# UTF-16 code units

Some texts name characters by their code units in UTF-16, one at a time. Such a row of units
stands for a text unless a surrogate in it has no partner.
-/

namespace NetPattern.Json.Units

/-- The code units of a character. -/
def ofChar (c : Char) : List Nat :=
  if c.toNat < 0x10000 then [c.toNat]
  else [0xD800 + (c.toNat - 0x10000) / 0x400, 0xDC00 + (c.toNat - 0x10000) % 0x400]

/-- Whether a unit is the first of a pair. -/
def isHigh (unit : Nat) : Bool :=
  0xD800 ≤ unit && unit < 0xDC00

/-- Whether a unit is the second of a pair. -/
def isLow (unit : Nat) : Bool :=
  0xDC00 ≤ unit && unit < 0xE000

/-- The text that a row of units stands for. -/
def text? : List Nat → Option (List Char)
  | [] => some []
  | high :: low :: rest =>
      if isHigh high then
        if isLow low then
          (text? rest).map
            (Char.ofNat (0x10000 + (high - 0xD800) * 0x400 + (low - 0xDC00)) :: ·)
        else none
      else if isLow high then none
      else (text? (low :: rest)).map (Char.ofNat high :: ·)
  | [unit] => if isHigh unit || isLow unit then none else some [Char.ofNat unit]

end NetPattern.Json.Units
