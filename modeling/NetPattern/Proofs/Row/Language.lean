import NetPattern.Proofs.Fragment.Digit
import NetPattern.Proofs.WrittenForm
import NetPattern.Row.Basic

/-!
# The texts that rows take

The pattern of a row takes the texts that can be cut at the joiner of the family into one piece
for each fragment, each piece taken by its fragment.
-/

namespace NetPattern

open Fragment

theorem Family.denotes_separator (family : Family) (ignoreCase : Bool) :
    Denotes ignoreCase family.separator fun text => text = [family.joiner] := by
  have hsymbol : ∃ s : Symbol, s.valid = true ∧ s.render = family.separator ∧
      ∀ c, s.accepts ignoreCase c = true ↔ c = family.joiner := by
    cases family with
    | v4 =>
        refine ⟨.escaped '.', rfl, rfl, ?_⟩
        intro c
        rw [Symbol.accepts, List.contains_iff_mem]
        exact mem_caseForms_iff_of_lt (by decide)
    | v6 =>
        refine ⟨.literal ':', rfl, rfl, ?_⟩
        intro c
        rw [Symbol.accepts, List.contains_iff_mem]
        exact mem_caseForms_iff_of_lt (by decide)
  obtain ⟨s, hvalid, hrender, haccepts⟩ := hsymbol
  rw [← hrender]
  apply (denotes_symbol ignoreCase hvalid).congr
  intro text
  simp [haccepts]

namespace Row

/-- Whether a text is made of pieces, one for each fragment of a row, that the fragments take. -/
def Matches (family : Family) (ignoreCase : Bool) (row : Row) (text : List Char) : Prop :=
  ∃ parts, text = [family.joiner].intercalate parts ∧
    List.Forall₂ (fun fragment part => fragment.matchesWhole ignoreCase part = true) row parts

/-- The pattern of a row takes the texts that the row matches. -/
theorem denotes_render (family : Family) (ignoreCase : Bool) {row : Row}
    (h : ∀ fragment ∈ row, fragment.IsSingle) :
    Denotes ignoreCase (row.render family) (row.Matches family ignoreCase) := by
  induction row with
  | nil =>
      apply (denotes_nil ignoreCase).congr
      intro text
      simp [Matches]
  | cons fragment others ih =>
      obtain ⟨hsingle, hothers⟩ := List.forall_mem_cons.mp h
      have hfirst : Denotes ignoreCase fragment
          fun text => fragment.matchesWhole ignoreCase text = true :=
        ⟨hsingle, fun _ => Iff.rfl⟩
      cases others with
      | nil =>
          rw [render, List.intercalate_singleton]
          apply hfirst.congr
          intro text
          simp [Matches, List.forall₂_cons_left_iff]
      | cons second more =>
          rw [render, List.intercalate_cons_cons]
          apply ((hfirst.append (family.denotes_separator ignoreCase)).append (ih hothers)).congr
          intro text
          constructor
          · intro htext
            obtain ⟨_, _, rfl, ⟨piece, _, rfl, hpiece, rfl⟩, parts, rfl, hparts⟩ := htext
            obtain ⟨part, rest, -, -, rfl⟩ := List.forall₂_cons_left_iff.mp hparts
            exact ⟨piece :: part :: rest, List.intercalate_cons_cons.symm, .cons hpiece hparts⟩
          · intro hmatches
            obtain ⟨parts, rfl, hall⟩ := hmatches
            obtain ⟨piece, rest, hpiece, hparts, rfl⟩ := List.forall₂_cons_left_iff.mp hall
            obtain ⟨part, rest, -, -, rfl⟩ := List.forall₂_cons_left_iff.mp hparts
            rw [List.intercalate_cons_cons]
            exact ⟨_, _, rfl, ⟨piece, _, rfl, hpiece, rfl⟩, part :: rest, rfl, hparts⟩

theorem matchesWhole_render_iff {family : Family} {ignoreCase : Bool} {row : Row}
    (h : ∀ fragment ∈ row, fragment.IsSingle) (text : List Char) :
    (row.render family).matchesWhole ignoreCase text = true ↔
      row.Matches family ignoreCase text :=
  (denotes_render family ignoreCase h).matches_iff text

/-- Whether every fragment of some rows can stand in a row. -/
def AllSingle (rows : List Row) : Prop :=
  ∀ row ∈ rows, ∀ fragment ∈ row, fragment.IsSingle

/-- The number of rows whose patterns take a whole text. -/
def matchCount (family : Family) (ignoreCase : Bool) (rows : List Row) (text : List Char) : Nat :=
  rows.countP fun row => (row.render family).matchesWhole ignoreCase text

end Row

end NetPattern
