import NetPattern.CidrError
import NetPattern.Positional
import NetPattern.Numeral

/-!
# Dotted quads

The text of an IPv4 address: four decimal octets joined by dots. Reading allows any number of
leading zeros in an octet; writing uses none.
-/

namespace NetPattern.DottedQuad

/-- The value of a decimal octet, however many zeros it starts with. -/
def octet? (text : List Char) : Option Nat :=
  (Numeral.decimal? text).filter (· ≤ 255)

/-- The address that a dotted quad denotes, its first octet the most significant. -/
def read (text : List Char) : Except AddressFault Nat :=
  let parts := text.splitOn '.'
  if parts.length = 4 then
    match parts.mapM octet? with
    | some octets => .ok (Positional.value 256 octets)
    | none => .error .octetValue
  else .error .octetCount

/-- The dotted quad of the low 32 bits of a number. -/
def write (address : Nat) : List Char :=
  ['.'].intercalate ((Positional.digits 256 4 address).map Numeral.decimal)

end NetPattern.DottedQuad
