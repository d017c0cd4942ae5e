import NetPattern.Json.Reader
import NetPattern.Options.Basic

/-!
# Reading options

Options as a JSON object or array. An object names the options it sets, each at most once, and
may have members of other names; an array lists the options in order and may stop early. Options
that are not given keep their defaults.
-/

namespace NetPattern.Options

/-- The setting of a name among the members of an object, where it is given at most once. -/
def setting? (members : List (List Char × Json)) (name : String) (default : Bool) :
    Option Bool :=
  match members.filter fun member => member.1 = name.toList with
  | [] => some default
  | [(_, .bool value)] => some value
  | _ => none

/-- The options of an object with the given members. -/
def ofMembers? (members : List (List Char × Json)) : Option Options := do
  let standard : Options := {}
  return {
    anchored := ← setting? members "anchored" standard.anchored
    ignoreCase := ← setting? members "ignore_case" standard.ignoreCase
    global := ← setting? members "global" standard.global
    leadingZeros := ← setting? members "leading_zeros" standard.leadingZeros }

/-- The options of an array with the given items. -/
def ofItems? (items : List Json) : Option Options := do
  let standard : Options := {}
  let settings ← items.mapM fun
    | .bool value => some value
    | _ => none
  if settings.length ≤ 4 then
    return {
      anchored := settings[0]?.getD standard.anchored
      ignoreCase := settings[1]?.getD standard.ignoreCase
      global := settings[2]?.getD standard.global
      leadingZeros := settings[3]?.getD standard.leadingZeros }
  else none

/-- The options that a JSON value denotes. The names in an object must be texts. -/
def ofJson? : Json → Option Options
  | .object members => do
      ofMembers? (← members.mapM fun (name, value) => (Json.Units.text? name).map (·, value))
  | .array items => ofItems? items
  | _ => none

/-- The options that a JSON text denotes. -/
def parse? (text : String) : Option Options :=
  (Json.read? text.toList).bind ofJson?

end NetPattern.Options
