import NetPattern.Regex.Basic

/-!
# Left factoring

Alternatives that all begin with the same items are matched as those items and then a group of
what follows: `xa|xb` as `x(?:a|b)`. The same texts match. Only the order changes in which the
ends of a match are found, since how often a shared item repeats is then settled before the
choice of an alternative. Nothing is taken out where an alternative is a single item.
-/

namespace NetPattern.Regex

/-- The alternatives of an expression, in order. -/
def alternatives : Regex → List Regex
  | done => [done]
  | bar rest => done :: rest.alternatives
  | symbol s quantifier rest => rest.alternatives.modifyHead (symbol s quantifier)
  | group inner quantifier rest => rest.alternatives.modifyHead (group inner quantifier)

/-- The expression with the given alternatives. -/
def ofAlternatives : List Regex → Regex
  | [] => done
  | [single] => single
  | first :: others => first ++ bar (ofAlternatives others)

/-- The number of items before the first bar. -/
def itemCount : Regex → Nat
  | done => 0
  | bar _ => 0
  | symbol _ _ rest => rest.itemCount + 1
  | group _ _ rest => rest.itemCount + 1

/-- The items that two alternatives both begin with. -/
def shared : Regex → Regex → Regex
  | symbol s q rest, symbol s' q' rest' =>
      if s = s' ∧ q = q' then symbol s q (shared rest rest') else done
  | group inner q rest, group inner' q' rest' =>
      if inner = inner' ∧ q = q' then group inner q (shared rest rest') else done
  | _, _ => done

/-- What follows the first `count` items. -/
def dropItems : (count : Nat) → Regex → Regex
  | count + 1, symbol _ _ rest => dropItems count rest
  | count + 1, group _ _ rest => dropItems count rest
  | _, regex => regex

/-- The expression with the items taken out in front that all its alternatives begin with. -/
def factorTop (regex : Regex) : Regex :=
  match regex.alternatives with
  | first :: second :: others =>
      let all := first :: second :: others
      let lead := (second :: others).foldl shared first
      if lead = done ∨ all.any (fun alternative => alternative.itemCount < 2) then regex
      else lead ++ group (ofAlternatives (all.map (dropItems lead.itemCount))) .once done
  | _ => regex

/-- The expression with its groups factored from the innermost outwards. -/
def factorGroups : Regex → Regex
  | done => done
  | bar rest => bar rest.factorGroups
  | symbol s quantifier rest => symbol s quantifier rest.factorGroups
  | group inner quantifier rest => group inner.factorGroups.factorTop quantifier rest.factorGroups

/-- The expression left factored throughout. -/
def leftFactor (regex : Regex) : Regex :=
  regex.factorGroups.factorTop

end NetPattern.Regex
