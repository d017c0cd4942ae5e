import NetPattern.Json.Token

/-!
# Reading JSON

The value that a JSON text denotes. Names may repeat in an object, and containers may be nested
to any depth.
-/

namespace NetPattern.Json

mutual

/-- A value at the start of a row of tokens. -/
def value? (tokens : List Token) : Option (Consumed Json tokens) :=
  match tokens with
  | .scalar value :: rest => some ⟨value, rest, by simp⟩
  | .openArray :: .closeArray :: rest =>
      some ⟨.array [], rest, by simp only [List.length_cons]; omega⟩
  | .openArray :: rest => (items? rest).map fun items => items.within .array (by simp)
  | .openObject :: .closeObject :: rest =>
      some ⟨.object [], rest, by simp only [List.length_cons]; omega⟩
  | .openObject :: rest => (members? rest).map fun members => members.within .object (by simp)
  | _ => none
termination_by (tokens.length, 0)

/-- The items of an array behind its opening bracket. -/
def items? (tokens : List Token) : Option (Consumed (List Json) tokens) :=
  match value? tokens with
  | some ⟨first, .closeArray :: rest, h⟩ =>
      some ⟨[first], rest, by simp only [List.length_cons] at h; omega⟩
  | some ⟨first, .comma :: rest, h⟩ =>
      have : rest.length < tokens.length := by simp only [List.length_cons] at h; omega
      (items? rest).map fun items => items.within (first :: ·) (Nat.le_of_lt this)
  | _ => none
termination_by (tokens.length, 1)

/-- The members of an object behind its opening brace. -/
def members? (tokens : List Token) : Option (Consumed (List (List Nat × Json)) tokens) :=
  match tokens with
  | .scalar (.string name) :: .colon :: content =>
      match value? content with
      | some ⟨value, .closeObject :: rest, h⟩ =>
          some ⟨[(name, value)], rest, by simp only [List.length_cons] at h ⊢; omega⟩
      | some ⟨value, .comma :: rest, h⟩ =>
          have : rest.length < content.length := by simp only [List.length_cons] at h; omega
          (members? rest).map fun members =>
            members.within ((name, value) :: ·) (by simp only [List.length_cons]; omega)
      | _ => none
  | _ => none
termination_by (tokens.length, 1)

end

/-- The value that a whole text denotes. -/
def read? (text : List Char) : Option Json :=
  (tokens? text).bind fun tokens =>
    match value? tokens with
    | some ⟨value, [], _⟩ => some value
    | _ => none

end NetPattern.Json
