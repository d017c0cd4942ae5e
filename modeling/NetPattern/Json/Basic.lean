/-!
# JSON values

The values of JSON as a text writes them. A string is kept as the code units that it names, since
escapes can name units that make no text, and a number as it is written.
-/

namespace NetPattern

/-- A JSON value. -/
inductive Json
  | null
  | bool (value : Bool)
  | number (written : List Char)
  | string (units : List Nat)
  | array (items : List Json)
  | object (members : List (List Nat × Json))

end NetPattern
