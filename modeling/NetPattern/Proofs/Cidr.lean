import NetPattern.Pattern
import NetPattern.Proofs.Cidr.Classification

/-!
# Displayed blocks are parsed back

The text of a block has digits, dots, colons and one slash, so the blanks around it are all that
trimming removes, and the slash tells its address from its prefix length.
-/

namespace NetPattern

theorem Numeral.isBlank_eq_false_of_hexDigit? {c : Char} (h : (hexDigit? c).isSome = true) :
    Text.isBlank c = false := by
  obtain ⟨d, hd⟩ := Option.isSome_iff_exists.mp h
  have hbounds := hexDigit?_eq_some_iff.mp hd
  simp only [Text.isBlank, Bool.or_eq_false_iff, Bool.and_eq_false_iff, decide_eq_false_iff_not,
    beq_eq_false_iff_ne]
  omega

namespace Family

variable {family : Family} {address : Nat}

theorem mem_writeAddress {c : Char} (h : c ∈ family.writeAddress address) :
    c = '.' ∨ c = ':' ∨ (Numeral.hexDigit? c).isSome = true := by
  cases family with
  | v4 =>
      rcases DottedQuad.mem_write h with hc | hc
      · exact .inl hc
      · exact .inr (.inr (Numeral.hexDigit?_isSome_of_isDigit hc))
  | v6 => exact ColonGroups.mem_write h

theorem slash_not_mem_writeAddress : '/' ∉ family.writeAddress address := by
  intro hslash
  rcases mem_writeAddress hslash with h | h | h <;> exact absurd h (by decide)

theorem writeAddress_ne_nil : family.writeAddress address ≠ [] := by
  cases family with
  | v4 => exact List.ne_nil_of_mem (DottedQuad.dot_mem_write address)
  | v6 => exact List.ne_nil_of_mem (ColonGroups.colon_mem_write address)

/-- An address that fits its family is read back. -/
theorem readAddress_writeAddress (h : address < family.size) :
    family.readAddress (family.writeAddress address) = .ok address := by
  have hread : family.readAddress (family.writeAddress address) = .ok (address % family.size) := by
    cases family with
    | v4 => exact DottedQuad.read_write address
    | v6 => exact ColonGroups.read_write address
  rw [hread, Nat.mod_eq_of_lt h]

end Family

namespace Cidr

/-- Only the addresses of IPv6 are written with colons. -/
theorem familyOf_writeAddress (family : Family) (address : Nat) :
    familyOf (family.writeAddress address) = family := by
  cases family with
  | v4 =>
      refine if_neg fun hcolon => ?_
      rcases DottedQuad.mem_write hcolon with h | h <;> exact absurd h (by decide)
  | v6 => exact if_pos (ColonGroups.colon_mem_write address)

/-- A block whose numbers fit its family is read back. -/
theorem hasForm_write (cidr : Cidr) :
    HasForm cidr.write cidr.family (cidr.family.writeAddress cidr.address)
      (Numeral.decimal cidr.prefixLength) where
  eq_append := rfl
  slash_not_mem := Family.slash_not_mem_writeAddress
  address_ne_nil := Family.writeAddress_ne_nil
  written_ne_nil := Numeral.decimal_ne_nil _
  isDigit _ hc := Numeral.isDigit_of_mem_decimal hc
  eq_v6_iff := by rw [← familyOf_eq_v6_iff, familyOf_writeAddress]

theorem read_write {cidr : Cidr} (haddress : cidr.address < cidr.family.size)
    (hlength : cidr.prefixLength ≤ cidr.family.bits) : read cidr.write = .ok cidr := by
  have hvalue : Nat.ofDigitChars 10 (Numeral.decimal cidr.prefixLength) 0 = cidr.prefixLength :=
    Nat.ofDigitChars_ten_toDigits
  refine read_eq_ok_iff.mpr
    ⟨_, _, _, cidr.hasForm_write, hvalue.symm ▸ hlength, cidr.address, ?_, ?_⟩
  · rw [Family.parseAddress_eq_ok_iff, String.toList_ofList,
      Family.readAddress_writeAddress haddress]
  · rw [hvalue]

theorem isBlank_eq_false_of_mem_write {cidr : Cidr} {c : Char} (h : c ∈ cidr.write) :
    Text.isBlank c = false := by
  rw [write, List.mem_append, List.mem_cons] at h
  rcases h with hc | rfl | hc
  · rcases Family.mem_writeAddress hc with rfl | rfl | hdigit
    · rfl
    · rfl
    · exact Numeral.isBlank_eq_false_of_hexDigit? hdigit
  · rfl
  · exact Numeral.isBlank_eq_false_of_hexDigit?
      (Numeral.hexDigit?_isSome_of_isDigit (Numeral.isDigit_of_mem_decimal hc))

/-- A displayed block is parsed back, whatever blanks stand around it. -/
theorem parse_display {cidr : Cidr} (haddress : cidr.address < cidr.family.size)
    (hlength : cidr.prefixLength ≤ cidr.family.bits) (before after : String)
    (hbefore : ∀ c ∈ before.toList, Text.isBlank c = true)
    (hafter : ∀ c ∈ after.toList, Text.isBlank c = true) :
    parse (before ++ cidr.display ++ after) = .ok cidr := by
  have htrim : Text.trim cidr.write = cidr.write :=
    Text.trim_eq_self fun c hc => isBlank_eq_false_of_mem_write hc
  rw [parse_surrounded hbefore hafter, parse, display, String.toList_ofList, htrim]
  exact read_write haddress hlength

end Cidr

/-- A block whose numbers fit its family is parsed back from its text with any blanks around it,
so its patterns are those of its text. -/
theorem display_round_trip :
    (∀ (cidr : Cidr) (before after : String),
      cidr.address < cidr.family.size → cidr.prefixLength ≤ cidr.family.bits →
      (∀ c ∈ before.toList, Text.isBlank c = true) →
      (∀ c ∈ after.toList, Text.isBlank c = true) →
        Cidr.parse (before ++ cidr.display ++ after) = .ok cidr) ∧
      ∀ (net : Net) (options : Options),
        compile net.toCidr.display options = net.compile options := by
  refine ⟨?_, ?_⟩
  · intro cidr before after haddress hlength hbefore hafter
    exact Cidr.parse_display haddress hlength before after hbefore hafter
  · intro net options
    have hparse := Cidr.parse_display net.address_lt net.prefixLength_le "" "" nofun nofun
    rw [String.empty_append, String.append_empty] at hparse
    rw [compile_eq_bind, hparse]
    rfl

/-- A block with host bits whose text has a gap, between blanks of two widths. -/
theorem display_round_trip_gap :
    (⟨.v6, 0x20010db8000000000000000000000001, 32⟩ : Cidr).display = "2001:db8::1/32" ∧
      Cidr.parse ("\t" ++ (⟨.v6, 0x20010db8000000000000000000000001, 32⟩ : Cidr).display ++
          "\u2003\n") =
        .ok ⟨.v6, 0x20010db8000000000000000000000001, 32⟩ :=
  ⟨by decide, display_round_trip.1 _ "\t" "\u2003\n" (by decide) (by decide)
    (List.all_eq_true.mp (by decide)) (List.all_eq_true.mp (by decide))⟩

end NetPattern
