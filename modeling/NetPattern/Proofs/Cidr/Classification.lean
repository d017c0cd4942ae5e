import Mathlib.Data.List.TakeWhile
import NetPattern.Cidr
import NetPattern.Proofs.Address.Spelling

/-!
# Which texts are parsed as blocks

What a text lacks is looked for in a fixed order: first the form of a block, then a prefix length
that fits the family, then the address. Blanks around the text are no part of it.
-/

namespace NetPattern

namespace Text

variable {before after text : List Char}

/-- Blanks around a text are trimmed with the ones that it has at its ends. -/
theorem trim_surrounded (hbefore : ∀ c ∈ before, isBlank c = true)
    (hafter : ∀ c ∈ after, isBlank c = true) (text : List Char) :
    trim (before ++ text ++ after) = trim text := by
  rw [trim, List.append_assoc, List.dropWhile_append_of_pos hbefore, List.dropWhile_append]
  split
  next hnil =>
    -- All of the text is blank, and nothing is left of either side.
    rw [List.dropWhile_eq_nil_iff.mpr hafter, trim, List.isEmpty_iff.mp hnil]
  next =>
    rw [List.reverse_append,
      List.dropWhile_append_of_pos fun c hc => hafter c (List.mem_reverse.mp hc), trim]

theorem trim_eq_self (htext : ∀ c ∈ text, isBlank c = false) : trim text = text := by
  have hkeep : ∀ {text : List Char}, (∀ c ∈ text, isBlank c = false) →
      text.dropWhile isBlank = text := by
    intro text htext
    cases text with
    | nil => rfl
    | cons c text =>
        rw [List.dropWhile_cons_of_neg]
        rw [htext c List.mem_cons_self]
        exact Bool.false_ne_true
  rw [trim, hkeep htext, hkeep fun c hc => htext c (List.mem_reverse.mp hc), List.reverse_reverse]

end Text

namespace Family

/-- An address that is read fits its family. -/
theorem lt_size_of_readAddress {family : Family} {text : List Char} {address : Nat}
    (h : family.readAddress text = .ok address) : address < family.size := by
  cases family with
  | v4 => exact (DottedQuad.read_eq_ok_iff_spells.mp h).lt
  | v6 => exact (ColonGroups.read_eq_ok_iff_spells.mp h).lt

/-- Whatever becomes of its addresses, the address parser fails on the whole of its text. -/
theorem exists_fault_of_map_parseAddress {α : Type} {family : Family} {text : String}
    {f : Nat → α} {e : CidrError} (h : (family.parseAddress text).map f = .error e) :
    ∃ fault, e = .invalidAddress text fault := by
  rw [parseAddress] at h
  cases hread : family.readAddress text.toList with
  | error fault =>
      rw [hread] at h
      exact ⟨fault, (Except.error.inj h).symm⟩
  | ok address =>
      rw [hread] at h
      cases h

end Family

namespace Cidr

/-- Whether a text has the form of a block of a family: an address and a prefix length in decimal
with the only slash between them. An address with a colon is taken for IPv6. -/
structure HasForm (text : List Char) (family : Family) (address written : List Char) : Prop where
  eq_append : text = address ++ '/' :: written
  slash_not_mem : '/' ∉ address
  address_ne_nil : address ≠ []
  written_ne_nil : written ≠ []
  isDigit : ∀ c ∈ written, c.isDigit = true
  eq_v6_iff : family = .v6 ↔ ':' ∈ address

/-- Whether a text lacks the form of a block: it has not one slash, or else an empty side, or
something other than digits behind the slash. -/
def LacksForm (text : List Char) : Prop :=
  text.count '/' ≠ 1 ∨
    ∃ address written, text = address ++ '/' :: written ∧
      (address = [] ∨ written = [] ∨ ∃ c ∈ written, c.isDigit = false)

theorem familyOf_eq_v6_iff {address : List Char} : familyOf address = .v6 ↔ ':' ∈ address := by
  rw [familyOf]
  split
  next hcolon => exact iff_of_true rfl hcolon
  next hcolon => exact iff_of_false nofun hcolon

section HasForm

variable {text address written : List Char} {family : Family}

theorem HasForm.familyOf_eq (h : HasForm text family address written) :
    familyOf address = family := by
  have hsame := familyOf_eq_v6_iff.trans h.eq_v6_iff.symm
  cases hof : familyOf address <;> cases family <;> simp_all

theorem HasForm.slash_not_mem_written (h : HasForm text family address written) :
    '/' ∉ written :=
  fun hmem => Bool.noConfusion (h.isDigit '/' hmem)

theorem HasForm.splitOn_eq (h : HasForm text family address written) :
    text.splitOn '/' = [address, written] := by
  rw [h.eq_append, List.splitOn_append_cons_self_of_not_mem h.slash_not_mem,
    List.splitOn_eq_singleton h.slash_not_mem_written]

theorem HasForm.eq_of_append (h : HasForm text family address written)
    {address' written' : List Char} (heq : text = address' ++ '/' :: written') :
    address = address' ∧ written = written' := by
  obtain ⟨haddress, -, hwritten⟩ :=
    (List.append_cons_inj_of_notMem h.slash_not_mem h.slash_not_mem_written).mp
      (h.eq_append.symm.trans heq)
  exact ⟨haddress, hwritten⟩

theorem HasForm.decimal?_eq (h : HasForm text family address written) :
    Numeral.decimal? written = some (Nat.ofDigitChars 10 written 0) := by
  rw [Numeral.decimal?, if_pos ⟨h.written_ne_nil, List.all_eq_true.mpr h.isDigit⟩]

/-- Where a text has the form of a block, its prefix length decides and then its address. -/
theorem HasForm.read_eq (h : HasForm text family address written) :
    read text =
      if Nat.ofDigitChars 10 written 0 ≤ family.bits then
        (family.parseAddress (String.ofList address)).map
          (⟨family, ·, Nat.ofDigitChars 10 written 0⟩)
      else .error (.prefixOutOfRange (String.ofList written) family.bits) := by
  simp only [read, h.splitOn_eq, h.decimal?_eq, if_neg h.address_ne_nil, h.familyOf_eq]
  rfl

end HasForm

theorem HasForm.not_lacksForm {text address written : List Char} {family : Family}
    (h : HasForm text family address written) : ¬LacksForm text := by
  rintro (hcount | ⟨address', written', heq, hpart⟩)
  · refine hcount ?_
    rw [h.eq_append, List.count_append, List.count_cons_self,
      List.count_eq_zero_of_not_mem h.slash_not_mem,
      List.count_eq_zero_of_not_mem h.slash_not_mem_written]
  · obtain ⟨rfl, rfl⟩ := h.eq_of_append heq
    rcases hpart with hnil | hnil | ⟨c, hc, hdigit⟩
    · exact h.address_ne_nil hnil
    · exact h.written_ne_nil hnil
    · exact Bool.noConfusion ((h.isDigit c hc).symm.trans hdigit)

/-- A text has the form of a block or lacks it, and what lacks it is malformed. -/
theorem hasForm_or_lacksForm (text : List Char) :
    (∃ family address written, HasForm text family address written) ∨
      LacksForm text ∧ read text = .error (.malformed (String.ofList text)) := by
  by_cases hslash : '/' ∈ text
  · obtain ⟨address, written, rfl, haddress⟩ := List.eq_append_cons_of_mem hslash
    have hsplit := List.splitOn_append_cons_self_of_not_mem haddress written
    by_cases hmore : '/' ∈ written
    · obtain ⟨second, rest, rfl, hsecond⟩ := List.eq_append_cons_of_mem hmore
      refine .inr ⟨.inl ?_, ?_⟩
      · simp only [List.count_append, List.count_cons_self]
        omega
      · rw [List.splitOn_append_cons_self_of_not_mem hsecond] at hsplit
        obtain ⟨third, more, hrest⟩ := List.exists_cons_of_ne_nil (List.splitOn_ne_nil '/' rest)
        rw [hrest] at hsplit
        simp only [read, hsplit]
    · rw [List.splitOn_eq_singleton hmore] at hsplit
      by_cases hwritten : written ≠ [] ∧ ∀ c ∈ written, c.isDigit = true
      · by_cases hnil : address = []
        · refine .inr ⟨.inr ⟨address, written, rfl, .inl hnil⟩, ?_⟩
          simp only [read, hsplit, if_pos hnil]
          split <;> rfl
        · exact .inl ⟨familyOf address, address, written, rfl, haddress, hnil, hwritten.1,
            hwritten.2, familyOf_eq_v6_iff⟩
      · have hprefix : Numeral.decimal? written = none := by
          rw [Numeral.decimal?, if_neg fun h => hwritten ⟨h.1, List.all_eq_true.mp h.2⟩]
        refine .inr ⟨.inr ⟨address, written, rfl, .inr ?_⟩, ?_⟩
        · simpa only [not_and_or, not_not, not_forall, Bool.not_eq_true, exists_prop] using hwritten
        · simp only [read, hsplit, hprefix]
  · refine .inr ⟨.inl ?_, ?_⟩
    · rw [List.count_eq_zero_of_not_mem hslash]
      decide
    · simp only [read, List.splitOn_eq_singleton hslash]

/-- A text is malformed if it lacks the form of a block, and named without its blanks. -/
theorem read_eq_malformed_iff {text : List Char} {message : String} :
    read text = .error (.malformed message) ↔
      message = String.ofList text ∧ LacksForm text := by
  rcases hasForm_or_lacksForm text with ⟨family, address, written, h⟩ | ⟨hlacks, hread⟩
  · refine iff_of_false ?_ fun hboth => h.not_lacksForm hboth.2
    rw [h.read_eq]
    intro hmalformed
    split at hmalformed
    next =>
      obtain ⟨fault, hfault⟩ := Family.exists_fault_of_map_parseAddress hmalformed
      cases hfault
    next => cases hmalformed
  · rw [hread]
    simp only [Except.error.injEq, CidrError.malformed.injEq, hlacks, and_true, eq_comm]

/-- All other results are those of a text that has the form of a block. -/
theorem read_eq_iff_exists_form {text : List Char} {result : Except CidrError Cidr}
    (hne : ∀ message, result ≠ .error (.malformed message)) :
    read text = result ↔
      ∃ family address written, HasForm text family address written ∧
        (if Nat.ofDigitChars 10 written 0 ≤ family.bits then
          (family.parseAddress (String.ofList address)).map
            (⟨family, ·, Nat.ofDigitChars 10 written 0⟩)
        else .error (.prefixOutOfRange (String.ofList written) family.bits)) = result := by
  constructor
  · intro h
    rcases hasForm_or_lacksForm text with ⟨family, address, written, hform⟩ | ⟨-, hread⟩
    · exact ⟨family, address, written, hform, hform.read_eq.symm.trans h⟩
    · exact absurd (h.symm.trans hread) (hne _)
  · intro h
    obtain ⟨family, address, written, hform, hresult⟩ := h
    exact hform.read_eq.trans hresult

variable {text : List Char}

theorem read_eq_prefixOutOfRange_iff {message : String} {max : Nat} :
    read text = .error (.prefixOutOfRange message max) ↔
      ∃ family address written, HasForm text family address written ∧
        family.bits < Nat.ofDigitChars 10 written 0 ∧
          message = String.ofList written ∧ max = family.bits := by
  refine (read_eq_iff_exists_form (by nofun)).trans (exists_congr fun family =>
    exists_congr fun address => exists_congr fun written => and_congr_right fun _ => ?_)
  split
  next hle =>
    refine iff_of_false ?_ fun h => absurd h.1 (Nat.not_lt.mpr hle)
    intro hrange
    obtain ⟨fault, hfault⟩ := Family.exists_fault_of_map_parseAddress hrange
    cases hfault
  next hlt =>
    simp only [Except.error.injEq, CidrError.prefixOutOfRange.injEq, Nat.not_le.mp hlt, true_and,
      eq_comm]

theorem read_eq_invalidAddress_iff {message : String} {fault : AddressFault} :
    read text = .error (.invalidAddress message fault) ↔
      ∃ family address written, HasForm text family address written ∧
        Nat.ofDigitChars 10 written 0 ≤ family.bits ∧
          family.parseAddress (String.ofList address) =
            .error (.invalidAddress message fault) := by
  refine (read_eq_iff_exists_form (by nofun)).trans (exists_congr fun family =>
    exists_congr fun address => exists_congr fun written => and_congr_right fun _ => ?_)
  split
  next hle =>
    rw [and_iff_right hle]
    cases family.parseAddress (String.ofList address) with
    | error e => simp [Except.map]
    | ok number => exact iff_of_false nofun nofun
  next hlt => exact iff_of_false nofun fun h => hlt h.1

theorem parse_ne_regexRefused (text reason : String) :
    parse text ≠ .error (.regexRefused reason) := by
  intro hread
  obtain ⟨family, address, _, _, hresult⟩ := (read_eq_iff_exists_form (by nofun)).mp hread
  split at hresult
  next =>
    obtain ⟨fault, hfault⟩ := Family.exists_fault_of_map_parseAddress hresult
    cases hfault
  next => cases hresult

theorem read_eq_ok_iff {cidr : Cidr} :
    read text = .ok cidr ↔
      ∃ family address written, HasForm text family address written ∧
        Nat.ofDigitChars 10 written 0 ≤ family.bits ∧
          ∃ number, family.parseAddress (String.ofList address) = .ok number ∧
            cidr = ⟨family, number, Nat.ofDigitChars 10 written 0⟩ := by
  refine (read_eq_iff_exists_form (by nofun)).trans (exists_congr fun family =>
    exists_congr fun address => exists_congr fun written => and_congr_right fun _ => ?_)
  split
  next hle =>
    rw [and_iff_right hle]
    cases family.parseAddress (String.ofList address) with
    | error e => simp [Except.map]
    | ok number => simp [Except.map, eq_comm]
  next hlt => exact iff_of_false nofun fun h => hlt h.1

theorem address_lt_of_parse {text : String} {cidr : Cidr} (hparse : parse text = .ok cidr) :
    cidr.address < cidr.family.size := by
  obtain ⟨family, address, _, -, -, number, hnumber, rfl⟩ := read_eq_ok_iff.mp hparse
  exact Family.lt_size_of_readAddress (Family.parseAddress_eq_ok_iff.mp hnumber)

theorem prefixLength_le_of_parse {text : String} {cidr : Cidr} (hparse : parse text = .ok cidr) :
    cidr.prefixLength ≤ cidr.family.bits := by
  obtain ⟨family, _, _, -, hle, _, -, rfl⟩ := read_eq_ok_iff.mp hparse
  exact hle

/-- Blanks around a text make no difference. -/
theorem parse_surrounded {before after : String}
    (hbefore : ∀ c ∈ before.toList, Text.isBlank c = true)
    (hafter : ∀ c ∈ after.toList, Text.isBlank c = true) (text : String) :
    parse (before ++ text ++ after) = parse text := by
  rw [parse, String.toList_append, String.toList_append, Text.trim_surrounded hbefore hafter,
    parse]

/-- Every text is classified by its form, then by its prefix length, then by its address. Only
addresses and prefix lengths that fit their family make a block, and blanks around a text make no
difference. -/
theorem parse_classifies_texts (text : String) :
    (∀ message, parse text = .error (.malformed message) ↔
        message = String.ofList (Text.trim text.toList) ∧ LacksForm (Text.trim text.toList)) ∧
      (∀ message max, parse text = .error (.prefixOutOfRange message max) ↔
        ∃ family address written, HasForm (Text.trim text.toList) family address written ∧
          family.bits < Nat.ofDigitChars 10 written 0 ∧
            message = String.ofList written ∧ max = family.bits) ∧
      (∀ message fault, parse text = .error (.invalidAddress message fault) ↔
        ∃ family address written, HasForm (Text.trim text.toList) family address written ∧
          Nat.ofDigitChars 10 written 0 ≤ family.bits ∧
            family.parseAddress (String.ofList address) =
              .error (.invalidAddress message fault)) ∧
      (∀ cidr, parse text = .ok cidr ↔
        ∃ family address written, HasForm (Text.trim text.toList) family address written ∧
          Nat.ofDigitChars 10 written 0 ≤ family.bits ∧
            ∃ number, family.parseAddress (String.ofList address) = .ok number ∧
              cidr = ⟨family, number, Nat.ofDigitChars 10 written 0⟩) ∧
      (∀ reason, parse text ≠ .error (.regexRefused reason)) ∧
      (∀ cidr, parse text = .ok cidr →
        cidr.address < 2 ^ cidr.family.bits ∧ cidr.prefixLength ≤ cidr.family.bits) ∧
      ∀ before after : String, (∀ c ∈ before.toList, Text.isBlank c = true) →
        (∀ c ∈ after.toList, Text.isBlank c = true) →
          parse (before ++ text ++ after) = parse text := by
  refine ⟨fun _ => read_eq_malformed_iff, fun _ _ => read_eq_prefixOutOfRange_iff,
    fun _ _ => read_eq_invalidAddress_iff, fun _ => read_eq_ok_iff, parse_ne_regexRefused text,
    ?_, ?_⟩
  · intro cidr hparse
    rw [← Nat.one_shiftLeft]
    exact ⟨address_lt_of_parse hparse, prefixLength_le_of_parse hparse⟩
  · intro before after hbefore hafter
    exact parse_surrounded hbefore hafter text

/-- A prefix length that is too large is reported before an address that is none, and blanks
around the text do not change that. -/
theorem parse_classifies_texts_prefix :
    parse ("\t" ++ "2001:::1/0129" ++ "\u2003\n") = .error (.prefixOutOfRange "0129" 128) ∧
      parse "10.1.2.3/008" = .ok ⟨.v4, 0x0a010203, 8⟩ ∧ 0x0a010203 < 2 ^ 32 := by
  have hlarge : parse "2001:::1/0129" = .error (.prefixOutOfRange "0129" 128) := by decide
  have hblock : parse "10.1.2.3/008" = .ok ⟨.v4, 0x0a010203, 8⟩ := by decide
  obtain ⟨-, -, -, -, -, -, hblanks⟩ := parse_classifies_texts "2001:::1/0129"
  obtain ⟨-, -, -, -, -, hfits, -⟩ := parse_classifies_texts "10.1.2.3/008"
  refine ⟨?_, hblock, (hfits _ hblock).1⟩
  rw [hblanks "\t" "\u2003\n" (List.all_eq_true.mp (by decide))
    (List.all_eq_true.mp (by decide))]
  exact hlarge

end Cidr

end NetPattern
