import NetPattern.Address.DottedQuad

/-!
# Groups joined by colons

The text of an IPv6 address: eight groups of up to four hexadecimal digits. One run of zero
groups may be left out between two adjacent colons, and a dotted quad may stand for the last two
groups. Writing gives the form that RFC 5952 recommends.
-/

namespace NetPattern.ColonGroups

/-- The value of one group, with the fault that a text other than one to four digits shows. -/
def group (text : List Char) : Except AddressFault Nat :=
  if text = [] then .error .emptyGroup
  else if 4 < text.length then .error .groupDigits
  else
    match text.mapM Numeral.hexDigit? with
    | some digits => .ok (Positional.value 16 digits)
    | none => .error .groupDigits

/-- The groups of a text without a gap; the empty text has none. -/
def groups (text : List Char) : Except AddressFault (List Nat) :=
  if text = [] then .ok [] else (text.splitOn ':').mapM group

/-- The parts before and after the first pair of adjacent colons. -/
def cutGap? : List Char → Option (List Char × List Char)
  | ':' :: ':' :: rest => some ([], rest)
  | c :: rest => (cutGap? rest).map fun (before, after) => (c :: before, after)
  | [] => none

/-- The part up to the last colon, which it includes, and the part after it. -/
def cutLastColon? : List Char → Option (List Char × List Char)
  | [] => none
  | c :: rest =>
      match cutLastColon? rest with
      | some (before, after) => some (c :: before, after)
      | none => if c = ':' then some ([c], rest) else none

/-- The text with a dotted quad after its last colon written out as two groups. -/
def spellQuad (text : List Char) : Except AddressFault (List Char) :=
  match cutLastColon? text with
  | some (before, after) =>
      if '.' ∈ after then
        match DottedQuad.read after with
        | .ok quad =>
            .ok (before ++ Numeral.hexadecimal (quad / 65536) ++
              ':' :: Numeral.hexadecimal (quad % 65536))
        | .error _ => .error .embeddedQuad
      else .ok text
  | none => .ok text

/-- All eight groups of a text without a dotted quad, the gap filled with zeros. -/
def eightGroups (text : List Char) : Except AddressFault (List Nat) :=
  match cutGap? text with
  | none => do
      let all ← groups text
      if all.length = 8 then .ok all else .error .groupCount
  | some (before, after) =>
      if (cutGap? after).isSome then .error .repeatedCompression
      else do
        let high ← groups before
        let low ← groups after
        if high.length + low.length < 8 then
          .ok (high ++ List.replicate (8 - (high.length + low.length)) 0 ++ low)
        else .error .tooManyGroups

/-- The address that a text denotes, its first group the most significant. -/
def read (text : List Char) : Except AddressFault Nat := do
  let all ← eightGroups (← spellQuad text)
  return Positional.value 65536 all

/-- Where the first longest run of zeros starts, and its length. -/
def longestZeroRun : List Nat → Nat × Nat
  | [] => (0, 0)
  | group :: rest =>
      let here := ((group :: rest).takeWhile (· = 0)).length
      let (start, length) := longestZeroRun rest
      if length ≤ here then (0, here) else (start + 1, length)

/-- Groups in the fewest digits, joined by colons. -/
def join (all : List Nat) : List Char :=
  [':'].intercalate (all.map Numeral.hexadecimal)

/-- The recommended text of an address: an address mapped from IPv4 ends in a dotted quad, and
otherwise the first longest run of two or more zero groups is left out. -/
def write (address : Nat) : List Char :=
  let all := Positional.digits 65536 8 address
  if all.take 6 = [0, 0, 0, 0, 0, 65535] then
    "::ffff:".toList ++ DottedQuad.write address
  else
    let (start, length) := longestZeroRun all
    if 2 ≤ length then join (all.take start) ++ "::".toList ++ join (all.drop (start + length))
    else join all

end NetPattern.ColonGroups
