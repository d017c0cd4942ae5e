import NetPattern.Proofs.Address.Spelling
import NetPattern.Proofs.Pattern

/-!
# Patterns and the reader of addresses

A pattern and the reader of addresses are two accounts of what a text says about an address. They
agree on every text in full form, and a pattern matches no other.
-/

namespace NetPattern

/-- The written forms of the addresses of a range are the texts in full form that are parsed as
one of them. -/
theorem Range.written_iff_parseAddress {range : Range} {leadingZeros : Bool} {text : String} :
    range.Written leadingZeros text.toList ↔
      ∃ address, range.family.parseAddress text = .ok address ∧
        range.family.FullForm leadingZeros text.toList ∧ range.contains address = true := by
  refine exists_congr fun address => ?_
  rw [Family.parseAddress_eq_ok_iff]
  constructor
  · intro h
    obtain ⟨hcontains, hwrites⟩ := h
    obtain ⟨hfull, hread⟩ :=
      Family.writes_iff_readAddress.mp ⟨hwrites, Range.lt_size_of_contains hcontains⟩
    exact ⟨hread, hfull, hcontains⟩
  · intro h
    obtain ⟨hread, hfull, hcontains⟩ := h
    exact ⟨hcontains, (Family.writes_iff_readAddress.mpr ⟨hfull, hread⟩).1⟩

/-- The anchored pattern of a block matches a text if the text is in full form and parsed as an
address of the block, and no other text. -/
theorem compile_matches_parsed_addresses {text : String} {cidr : Cidr} {options : Options}
    (hparse : Cidr.parse text = .ok cidr) (hanchored : options.anchored = true) :
    ∃ pattern, compile text options = .ok pattern ∧
      ∀ input : String, pattern.isMatch input = true ↔
        ∃ address, cidr.family.parseAddress input = .ok address ∧
          cidr.family.FullForm options.leadingZeros input.toList ∧
          cidr.range.contains address = true := by
  obtain ⟨pattern, hcompile, hmatch⟩ := cidr.exists_compile_anchored hanchored
  refine ⟨pattern, ?_, ?_⟩
  · rw [compile_eq_bind, hparse]
    exact hcompile
  · intro input
    rw [hmatch]
    exact Range.written_iff_parseAddress

/-- A block that is itself not written in full form. -/
theorem compile_matches_parsed_addresses_quad :
    Cidr.parse "::ffff:10.1.2.3/112" = .ok ⟨.v6, 0xffff0a010203, 112⟩ ∧
      ∃ pattern, compile "::ffff:10.1.2.3/112" {} = .ok pattern ∧
        ∀ input : String, pattern.isMatch input = true ↔
          ∃ address, Family.v6.parseAddress input = .ok address ∧
            Family.v6.FullForm false input.toList ∧
            Range.contains (Cidr.range ⟨.v6, 0xffff0a010203, 112⟩) address = true := by
  have hparse : Cidr.parse "::ffff:10.1.2.3/112" = .ok ⟨.v6, 0xffff0a010203, 112⟩ := by decide
  exact ⟨hparse, compile_matches_parsed_addresses hparse rfl⟩

end NetPattern
