import NetPattern.Address.QuadWord
import NetPattern.Proofs.Address.Spelling

/-!
# Dotted quads are classified

A text is read as an IPv4 address if it spells one. What is wrong with any other text is told by its
dots alone: either they do not make four parts of it, or one of its four parts is no octet. Words
that check each step find the same, whatever the number of leading zeros.
-/

namespace NetPattern

namespace DottedQuad

/-! ### Parts -/

/-- Whether a text is four parts, with or without characters, joined by dots. -/
def HasFourParts (text : List Char) : Prop :=
  ∃ parts : List (List Char), parts.length = 4 ∧ (∀ part ∈ parts, '.' ∉ part) ∧
    text = ['.'].intercalate parts

theorem not_mem_of_mem_splitOn {c : Char} {text part : List Char} (h : part ∈ text.splitOn c) :
    c ∉ part := by
  induction text generalizing part with
  | nil =>
      rw [List.splitOn_nil, List.mem_singleton] at h
      exact h ▸ List.not_mem_nil
  | cons d text ih =>
      rw [List.splitOn_cons_eq_if_modifyHead] at h
      split at h
      next =>
        rcases List.mem_cons.mp h with rfl | hmem
        · exact List.not_mem_nil
        · exact ih hmem
      next hne =>
        obtain ⟨first, others, hsplit⟩ := List.exists_cons_of_ne_nil (List.splitOn_ne_nil c text)
        rw [hsplit, List.modifyHead_cons] at h
        rcases List.mem_cons.mp h with rfl | hmem
        · have hfirst := ih (hsplit ▸ List.mem_cons_self)
          have hd : c ≠ d := fun heq => hne (by simp [heq])
          exact List.not_mem_cons_of_ne_of_not_mem hd hfirst
        · exact ih (hsplit ▸ List.mem_cons_of_mem _ hmem)

theorem hasFourParts_iff {text : List Char} :
    HasFourParts text ↔ (text.splitOn '.').length = 4 := by
  constructor
  · intro h
    obtain ⟨parts, hlength, hdot, rfl⟩ := h
    have hne : parts ≠ [] := List.ne_nil_of_length_pos (hlength ▸ Nat.zero_lt_succ 3)
    rw [List.splitOn_intercalate '.' hdot hne, hlength]
  · intro h
    exact ⟨_, h, fun _ => not_mem_of_mem_splitOn, (List.intercalate_splitOn '.').symm⟩

theorem Spells.hasFourParts {text : List Char} {address : Nat} (h : Spells text address) :
    HasFourParts text := by
  obtain ⟨parts, octets, hlength, htext, hoctets, -⟩ := h
  exact ⟨parts, hlength, forall_mem_of_forall₂ hoctets fun _ _ hoctet => hoctet.not_mem rfl, htext⟩

/-! ### Refusals -/

variable {text : List Char}

/-- A text is refused for the number of its parts, or because one of four parts is no octet. -/
theorem read_cases (text : List Char) :
    (∃ address, read text = .ok address) ∨
      ¬ HasFourParts text ∧ read text = .error .octetCount ∨
      HasFourParts text ∧ read text = .error .octetValue := by
  rw [hasFourParts_iff, read]
  by_cases hparts : (text.splitOn '.').length = 4
  · simp only [hparts, if_true]
    cases (text.splitOn '.').mapM octet? with
    | some octets => exact .inl ⟨_, rfl⟩
    | none => exact .inr (.inr ⟨trivial, rfl⟩)
  · exact .inr (.inl ⟨hparts, if_neg hparts⟩)

theorem read_eq_octetCount_iff : read text = .error .octetCount ↔ ¬ HasFourParts text := by
  rcases read_cases text with ⟨address, hread⟩ | ⟨hnone, hread⟩ | ⟨hfour, hread⟩
  · have hfour := (read_eq_ok_iff_spells.mp hread).hasFourParts
    simp [hread, hfour]
  · simp [hread, hnone]
  · simp [hread, hfour]

theorem read_eq_octetValue_iff : read text = .error .octetValue ↔
    HasFourParts text ∧ ¬ ∃ address, Spells text address := by
  simp only [← read_eq_ok_iff_spells]
  rcases read_cases text with ⟨address, hread⟩ | ⟨hnone, hread⟩ | ⟨hfour, hread⟩
  · simp [hread]
  · simp [hread, hnone]
  · simp [hread, hfour]

/-! ### Words -/

theorem toNat_sub_le_nine {c : Char} (hc : c.isDigit = true) : c.toNat - '0'.toNat ≤ 9 := by
  obtain ⟨-, hnine⟩ := Char.isDigit_iff_toNat.mp hc
  exact Nat.sub_le_sub_right hnine _

/-- One of the two checks finds that 8 bits have no room exactly where they have none for the
result: a product that they have no room for is the start of a sum that they have none for. -/
theorem overflows_iff {octet digit : BitVec 8} :
    octet.umulOverflow 10 = true ∨ (octet * 10).uaddOverflow digit = true ↔
      255 < 10 * octet.toNat + digit.toNat := by
  have hten : (10 : BitVec 8).toNat = 10 := rfl
  simp only [BitVec.umulOverflow, BitVec.uaddOverflow, decide_eq_true_eq, hten]
  by_cases hproduct : octet.toNat * 10 < 2 ^ 8
  · have htens : (octet * 10).toNat = octet.toNat * 10 := BitVec.toNat_mul_of_lt hproduct
    rw [htens]
    omega
  · omega

theorem toNat_mul_ten_add {octet digit : BitVec 8} (h : 10 * octet.toNat + digit.toNat ≤ 255) :
    (octet * 10 + digit).toNat = 10 * octet.toNat + digit.toNat := by
  have htens : (octet * 10).toNat = octet.toNat * 10 :=
    BitVec.toNat_mul_of_lt (show octet.toNat * 10 < 2 ^ 8 by omega)
  rw [BitVec.toNat_add_of_lt (by omega), htens, Nat.mul_comm]

/-- A digit is added to an octet exactly where 8 bits have room for the result. -/
theorem map_pushDigit? {c : Char} (hc : c.isDigit = true) (octet : BitVec 8) :
    (pushDigit? octet c).map BitVec.toNat =
      (some (10 * octet.toNat + (c.toNat - '0'.toNat))).filter (· ≤ 255) := by
  have hdigit : (BitVec.ofNat 8 (c.toNat - '0'.toNat)).toNat = c.toNat - '0'.toNat := by
    have hnine := toNat_sub_le_nine hc
    rw [BitVec.toNat_ofNat, Nat.mod_eq_of_lt (by omega)]
  rw [pushDigit?, Option.filter_some]
  simp only [overflows_iff, hdigit]
  by_cases hroom : 10 * octet.toNat + (c.toNat - '0'.toNat) ≤ 255
  · rw [if_neg (Nat.not_lt.mpr hroom), if_pos (decide_eq_true hroom), Option.map_some,
      toNat_mul_ten_add (by rwa [hdigit]), hdigit]
  · rw [if_pos (Nat.lt_of_not_le hroom), if_neg (by simpa using hroom), Option.map_none]

theorem le_ofDigitChars (part : List Char) (start : Nat) :
    start ≤ Nat.ofDigitChars 10 part start := by
  induction part generalizing start with
  | nil => exact Nat.le_refl _
  | cons c part ih =>
      rw [Nat.ofDigitChars_cons]
      have := ih (10 * start + (c.toNat - '0'.toNat))
      omega

/-- An octet is read digit by digit exactly where 8 bits have room for the number it stands for:
once there is no room, further digits do not make any. -/
theorem map_foldlM_pushDigit? {part : List Char} (hdigits : ∀ c ∈ part, c.isDigit = true)
    (octet : BitVec 8) : (part.foldlM pushDigit? octet).map BitVec.toNat =
      (some (Nat.ofDigitChars 10 part octet.toNat)).filter (· ≤ 255) := by
  induction part generalizing octet with
  | nil =>
      have hlt := octet.isLt
      rw [Nat.ofDigitChars_nil, Option.filter_some, if_pos (decide_eq_true (by omega))]
      rfl
  | cons c part ih =>
      obtain ⟨hc, hpart⟩ := List.forall_mem_cons.mp hdigits
      have hpush := map_pushDigit? hc octet
      have hmore := le_ofDigitChars part (10 * octet.toNat + (c.toNat - '0'.toNat))
      rw [List.foldlM_cons, Nat.ofDigitChars_cons]
      cases hnext : pushDigit? octet c with
      | some next =>
          rw [hnext, Option.map_some, Option.filter_some] at hpush
          split at hpush
          next => rw [← Option.some.inj hpush]; exact ih hpart next
          next => cases hpush
      | none =>
          rw [hnext, Option.map_none, Option.filter_some] at hpush
          split at hpush
          next => cases hpush
          next hfull =>
            rw [decide_eq_true_eq] at hfull
            rw [Option.filter_some, if_neg]
            · rfl
            · simp only [decide_eq_true_eq]
              omega

theorem map_octetWord? (part : List Char) : (octetWord? part).map BitVec.toNat = octet? part := by
  rw [octetWord?, octet?, Numeral.decimal?]
  split
  next hdigits => exact map_foldlM_pushDigit? (List.all_eq_true.mp hdigits.2) 0
  next => rfl

theorem toNat_pushOctet {word : BitVec 32} (hroom : word.toNat < 2 ^ 24) (octet : BitVec 8) :
    (pushOctet word octet).toNat = word.toNat * 256 + octet.toNat := by
  have hlt := octet.isLt
  have hshift : (word <<< 8).toNat = word.toNat <<< 8 := by
    rw [BitVec.toNat_shiftLeft, Nat.shiftLeft_eq, Nat.mod_eq_of_lt (by omega)]
  rw [pushOctet, BitVec.toNat_or, hshift, BitVec.toNat_setWidth, Nat.mod_eq_of_lt (by omega),
    ← Nat.shiftLeft_add_eq_or_of_lt hlt, Nat.shiftLeft_eq]

/-- The parts are shifted into the word one behind the other, as long as there is room for them. -/
theorem map_foldlM_pushPart {parts : List (List Char)} {word : BitVec 32}
    (hroom : (word.toNat + 1) * 256 ^ parts.length ≤ 2 ^ 32) :
    (parts.foldlM pushPart word).map BitVec.toNat =
      match parts.mapM octet? with
      | some octets => .ok (octets.foldl (fun total octet => total * 256 + octet) word.toNat)
      | none => .error .octetValue := by
  induction parts generalizing word with
  | nil => rfl
  | cons part parts ih =>
      rw [List.length_cons, Nat.pow_succ'] at hroom
      rw [List.foldlM_cons, List.mapM_cons, ← map_octetWord? part, pushPart]
      cases octetWord? part with
      | none => rfl
      | some octet =>
          have hlt := octet.isLt
          have hpos : 0 < 256 ^ parts.length := Nat.pow_pos (by decide)
          have hone : (word.toNat + 1) * 256 ≤ 2 ^ 32 :=
            calc (word.toNat + 1) * 256
                ≤ (word.toNat + 1) * 256 * 256 ^ parts.length := Nat.le_mul_of_pos_right _ hpos
              _ = (word.toNat + 1) * (256 * 256 ^ parts.length) := Nat.mul_assoc _ _ _
              _ ≤ 2 ^ 32 := hroom
          have hpush := toNat_pushOctet (show word.toNat < 2 ^ 24 by omega) octet
          have hrest : ((pushOctet word octet).toNat + 1) * 256 ^ parts.length ≤ 2 ^ 32 :=
            calc ((pushOctet word octet).toNat + 1) * 256 ^ parts.length
                ≤ (word.toNat + 1) * 256 * 256 ^ parts.length :=
                  Nat.mul_le_mul_right _ (by omega)
              _ = (word.toNat + 1) * (256 * 256 ^ parts.length) := Nat.mul_assoc _ _ _
              _ ≤ 2 ^ 32 := hroom
          refine (ih hrest).trans ?_
          rw [hpush]
          cases parts.mapM octet? <;> rfl

/-- No digit and no octet is lost in the words that a dotted quad is read into. -/
theorem map_readWord (text : List Char) : (readWord text).map BitVec.toNat = read text := by
  rw [readWord, read]
  by_cases hparts : (text.splitOn '.').length = 4
  · have hroom : ((0 : BitVec 32).toNat + 1) * 256 ^ (text.splitOn '.').length ≤ 2 ^ 32 := by
      rw [hparts]
      decide
    simp only [hparts, if_true]
    exact map_foldlM_pushPart hroom
  · simp only [hparts, if_false]
    rfl

end DottedQuad

/-- A text is parsed as an IPv4 address if it spells one, and the address is the one that it
spells. Every other text is refused as it stands: for the number of its parts if they are not four,
and for an octet otherwise. Words that check each of their steps read the same. -/
theorem ipv4_parsed_iff_spelled (text : String) :
    (∀ address, Family.v4.parseAddress text = .ok address ↔
        DottedQuad.Spells text.toList address) ∧
      (Family.v4.parseAddress text = .error (.invalidAddress text .octetCount) ↔
        ¬ DottedQuad.HasFourParts text.toList) ∧
      (Family.v4.parseAddress text = .error (.invalidAddress text .octetValue) ↔
        DottedQuad.HasFourParts text.toList ∧
          ¬ ∃ address, DottedQuad.Spells text.toList address) ∧
      (DottedQuad.readWord text.toList).map BitVec.toNat =
        Family.v4.readAddress text.toList := by
  simp only [Family.parseAddress_eq_ok_iff, Family.parseAddress_eq_error_iff]
  exact ⟨fun _ => DottedQuad.read_eq_ok_iff_spells, DottedQuad.read_eq_octetCount_iff,
    DottedQuad.read_eq_octetValue_iff, DottedQuad.map_readWord text.toList⟩

example : Family.v4.parseAddress "10.0000000000000000000001.255.007" = .ok 0x0a01ff07 := by decide

example : Family.v4.parseAddress "10.1.256." =
    .error (.invalidAddress "10.1.256." .octetValue) := by decide

end NetPattern
