import NetPattern.Fragment.Basic
import NetPattern.Numeral

/-!
# Fragments for octets

The decimal octets of a range, either without leading zeros or padded with them up to three
digits. The whole space of an octet has a short fragment of its own; any other range lists its
values.
-/

namespace NetPattern.Fragment

/-- The fragment of all octets. -/
def anyOctet : (padded : Bool) → Fragment
  | false => "(?:25[0-5]|2[0-4][0-9]|1[0-9]\x7b2\x7d|[1-9]?[0-9])".toList
  | true => "(?:25[0-5]|2[0-4][0-9]|[01]?[0-9]\x7b1,2\x7d)".toList

/-- The fragment of one octet. -/
def octet (padded : Bool) (value : Nat) : Fragment :=
  let digits := Numeral.decimal value
  if padded then
    match digits.length with
    | 1 => "0\x7b0,2\x7d".toList ++ digits
    | 2 => "0?".toList ++ digits
    | _ => digits
  else digits

/-- The fragment of the octets from `low` to `high`. -/
def octetRange (padded : Bool) (low high : Nat) : Fragment :=
  if low = 0 ∧ high = 255 then anyOctet padded
  else union ((List.range' low (high + 1 - low)).map (octet padded))

end NetPattern.Fragment
