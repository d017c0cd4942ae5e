import NetPattern.Address.DottedQuad
import NetPattern.Proofs.Numeral
import NetPattern.Proofs.Runs

/-!
# Dotted quads are read back

The dotted quad of a number has four parts, which are read back as its octets.
-/

namespace NetPattern

theorem mem_of_mem_intercalate {α : Type} {c separator : α} {parts : List (List α)}
    (h : c ∈ [separator].intercalate parts) : c = separator ∨ ∃ part ∈ parts, c ∈ part := by
  induction parts with
  | nil => exact nomatch h
  | cons part parts ih =>
      by_cases hparts : parts = []
      · subst hparts
        rw [List.intercalate_singleton] at h
        exact .inr ⟨part, List.mem_cons_self, h⟩
      · rw [List.intercalate_cons_of_ne_nil hparts, List.mem_append, List.mem_append,
          List.mem_singleton] at h
        rcases h with (hc | hc) | hc
        · exact .inr ⟨part, List.mem_cons_self, hc⟩
        · exact .inl hc
        · rcases ih hc with hc | ⟨other, hother, hc⟩
          · exact .inl hc
          · exact .inr ⟨other, List.mem_cons_of_mem _ hother, hc⟩

namespace DottedQuad

theorem octet?_decimal {value : Nat} (h : value < 256) :
    octet? (Numeral.decimal value) = some value := by
  rw [octet?, Numeral.decimal?_decimal, Option.filter_some, if_pos]
  exact decide_eq_true (Nat.le_of_lt_succ h)

theorem splitOn_write (address : Nat) :
    (write address).splitOn '.' = (Positional.digits 256 4 address).map Numeral.decimal := by
  apply List.splitOn_intercalate
  · intro part hpart
    obtain ⟨value, -, rfl⟩ := List.mem_map.mp hpart
    exact Numeral.not_mem_decimal rfl
  · exact List.ne_nil_of_length_pos (by simp)

/-- The low 32 bits of a number are read back from its dotted quad. -/
theorem read_write (address : Nat) : read (write address) = .ok (address % 2 ^ 32) := by
  have hoctets : ((Positional.digits 256 4 address).map Numeral.decimal).mapM octet? =
      some (Positional.digits 256 4 address) :=
    mapM_map_eq_pure fun value hvalue => octet?_decimal (Positional.digits_lt (by decide) hvalue)
  simp only [read, splitOn_write, hoctets, List.length_map, Positional.length_digits, if_true]
  rw [Positional.value_digits]
  rfl

theorem dot_mem_write (address : Nat) : '.' ∈ write address := by
  -- A text without a dot has one part, and a dotted quad has four.
  by_contra hdot
  have hparts := congrArg List.length (splitOn_write address)
  rw [List.splitOn_eq_singleton hdot] at hparts
  simp at hparts

theorem mem_write {address : Nat} {c : Char} (h : c ∈ write address) :
    c = '.' ∨ c.isDigit = true := by
  rcases mem_of_mem_intercalate h with hc | ⟨part, hpart, hc⟩
  · exact .inl hc
  · obtain ⟨value, -, rfl⟩ := List.mem_map.mp hpart
    exact .inr (Numeral.isDigit_of_mem_decimal hc)

end DottedQuad

end NetPattern
