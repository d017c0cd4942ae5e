import NetPattern.Address.Written
import NetPattern.Proofs.Address.ColonGroups
import NetPattern.Proofs.Segments

/-!
# Addresses in full form

Reading takes more texts than a pattern is to match: octets behind any number of zeros, groups
with fewer digits, a gap, a dotted quad. In full form none of these is left, and then reading a
text and writing its address are two sides of one relation.
-/

namespace NetPattern

namespace DottedQuad

theorem octet?_eq_some_iff {text : List Char} {value : Nat} :
    octet? text = some value ↔ Numeral.decimal? text = some value ∧ value ≤ 255 := by
  rw [octet?, Option.filter_eq_some_iff, decide_eq_true_eq]

/-- A text is read if it has four parts and each of them is. -/
theorem read_eq_ok_iff {text : List Char} {address : Nat} :
    read text = .ok address ↔
      ∃ octets, octets.length = 4 ∧
        List.Forall₂ (fun part octet => octet? part = some octet) (text.splitOn '.') octets ∧
        Positional.value 256 octets = address := by
  simp only [← mapM_eq_some_iff]
  constructor
  · intro h
    rw [read] at h
    split at h
    next hlength =>
      split at h
      next octets hoctets =>
        have hsame := (mapM_eq_some_iff.mp hoctets).length_eq
        exact ⟨octets, hsame ▸ hlength, hoctets, Except.ok.inj h⟩
      next => cases h
    next => cases h
  · intro h
    obtain ⟨octets, hlength, hoctets, rfl⟩ := h
    have hparts : (text.splitOn '.').length = 4 :=
      (mapM_eq_some_iff.mp hoctets).length_eq.trans hlength
    simp only [read, hparts, if_true, hoctets]

theorem ne_nil_of_octet? {part : List Char} {octet : Nat} (h : octet? part = some octet) :
    part ≠ [] := by
  obtain ⟨zeros, rfl⟩ := Numeral.decimal?_eq_some_iff.mp (octet?_eq_some_iff.mp h).1
  exact List.append_ne_nil_of_right_ne_nil _ (Numeral.decimal_ne_nil octet)

/-- Parts that are not empty, and the separators between them, are a character each at least. -/
theorem two_mul_length_le {c : Char} {parts : List (List Char)} (h : ∀ part ∈ parts, part ≠ []) :
    2 * parts.length ≤ ([c].intercalate parts).length + 1 := by
  induction parts with
  | nil => exact Nat.zero_le _
  | cons part parts ih =>
      obtain ⟨hpart, hparts⟩ := List.forall_mem_cons.mp h
      have hpos := List.length_pos_of_ne_nil hpart
      by_cases hnil : parts = []
      · subst hnil
        rw [List.intercalate_singleton, List.length_singleton]
        omega
      · have hrest := ih hparts
        rw [List.intercalate_cons_of_ne_nil hnil, List.length_append, List.length_append,
          List.length_singleton, List.length_cons]
        omega

/-- A dotted quad has seven characters at least. -/
theorem seven_le_length_of_read {text : List Char} {address : Nat}
    (h : read text = .ok address) : 7 ≤ text.length := by
  obtain ⟨octets, hlength, hoctets, -⟩ := read_eq_ok_iff.mp h
  have hparts := forall_mem_of_forall₂ hoctets fun _ _ => ne_nil_of_octet?
  have htext : ['.'].intercalate (text.splitOn '.') = text := List.intercalate_splitOn '.'
  have hle := two_mul_length_le (c := '.') hparts
  rw [htext, hoctets.length_eq, hlength] at hle
  omega

end DottedQuad

namespace ColonGroups

/-- Only a text with a dotted quad behind its last colon is spelled otherwise. -/
theorem eq_or_exists_quad_of_spellQuad {text spelled : List Char}
    (h : spellQuad text = .ok spelled) :
    spelled = text ∨ ∃ lead part quad, text = lead ++ ':' :: part ∧ ':' ∉ part ∧
      DottedQuad.read part = .ok quad := by
  rw [spellQuad] at h
  split at h
  next before after hcut =>
    obtain ⟨front, rfl, hafter⟩ := exists_eq_of_cutLastColon? hcut
    split at h
    next hdot =>
      split at h
      next quad hquad => exact .inr ⟨front, after, quad, rfl, hafter, hquad⟩
      next => cases h
    next => exact .inl (Except.ok.inj h).symm
  next => exact .inl (Except.ok.inj h).symm

/-- A text with no part of seven characters or more has no dotted quad to be spelled. -/
theorem eq_of_spellQuad {text spelled : List Char}
    (hparts : ∀ part ∈ text.splitOn ':', part.length < 7) (h : spellQuad text = .ok spelled) :
    spelled = text := by
  rcases eq_or_exists_quad_of_spellQuad h with hsame | ⟨lead, part, quad, rfl, hpart, hquad⟩
  · exact hsame
  · have hmem : part ∈ (lead ++ ':' :: part).splitOn ':' := by
      rw [List.splitOn_append_cons_self, List.splitOn_eq_singleton hpart]
      exact List.mem_append_right _ (List.mem_singleton_self _)
    have hlong := DottedQuad.seven_le_length_of_read hquad
    have hshort := hparts part hmem
    omega

theorem eq_of_cutGap? {text before after : List Char} (h : cutGap? text = some (before, after)) :
    text = before ++ ':' :: ':' :: after := by
  induction text using cutGap?.induct generalizing before with
  | case1 rest =>
      rw [cutGap?] at h
      obtain ⟨rfl, rfl⟩ := Prod.mk.inj (Option.some.inj h)
      rfl
  | case2 c rest hgap ih =>
      rw [cutGap?] at h
      · obtain ⟨⟨front, back⟩, hrest, hsame⟩ := Option.map_eq_some_iff.mp h
        obtain ⟨rfl, rfl⟩ := Prod.mk.inj hsame
        rw [ih hrest, List.cons_append]
      · exact hgap
  | case3 => cases h

/-- The part between the colons of a gap is empty. -/
theorem splitOn_gap (before after : List Char) :
    (before ++ ':' :: ':' :: after).splitOn ':' =
      before.splitOn ':' ++ [] :: after.splitOn ':' := by
  have hbetween : (':' :: after).splitOn ':' = [] :: after.splitOn ':' :=
    List.splitOn_append_cons_self_of_not_mem List.not_mem_nil after
  rw [List.splitOn_append_cons_self, hbetween]

theorem cutGap?_eq_none {text : List Char} (h : [] ∉ text.splitOn ':') : cutGap? text = none := by
  rw [Option.eq_none_iff_forall_ne_some]
  rintro ⟨before, after⟩ hcut
  refine h ?_
  rw [eq_of_cutGap? hcut, splitOn_gap]
  exact List.mem_append_right _ List.mem_cons_self

/-- A group is one to four hexadecimal digits and stands for the number they write. -/
theorem group_eq_ok_iff {part : List Char} {value : Nat} :
    group part = .ok value ↔ part ≠ [] ∧ part.length ≤ 4 ∧
      ∃ digits, List.Forall₂ (fun c digit => Numeral.hexDigit? c = some digit) part digits ∧
        Positional.value 16 digits = value := by
  simp only [← mapM_eq_some_iff]
  constructor
  · intro h
    rw [group] at h
    split at h
    next => cases h
    next hne =>
      split at h
      next => cases h
      next hlength =>
        split at h
        next digits hdigits =>
          exact ⟨hne, Nat.not_lt.mp hlength, digits, hdigits, Except.ok.inj h⟩
        next => cases h
  · intro h
    obtain ⟨hne, hlength, digits, hdigits, rfl⟩ := h
    rw [group, if_neg hne, if_neg (Nat.not_lt.mpr hlength), hdigits]

theorem hexDigit?_ne_none_of_group {part : List Char} {value : Nat}
    (h : group part = .ok value) : ∀ c ∈ part, Numeral.hexDigit? c ≠ none := by
  obtain ⟨-, -, digits, hdigits, -⟩ := group_eq_ok_iff.mp h
  exact forall_mem_of_forall₂ hdigits fun c d hd => hd ▸ Option.some_ne_none d

/-- Reading spells a dotted quad as groups and then puts eight groups together. -/
theorem read_eq_ok_iff_exists_spelled {text : List Char} {address : Nat} :
    read text = .ok address ↔ ∃ spelled, spellQuad text = .ok spelled ∧
      ∃ all, eightGroups spelled = .ok all ∧ Positional.value 65536 all = address := by
  constructor
  · intro h
    obtain ⟨spelled, hspelled, h⟩ := exists_of_bind_eq_ok h
    obtain ⟨all, hall, h⟩ := exists_of_bind_eq_ok h
    exact ⟨spelled, hspelled, all, hall, Except.ok.inj h⟩
  · intro h
    obtain ⟨spelled, hspelled, all, hall, rfl⟩ := h
    simp only [read, hspelled, bind, Except.bind, hall]
    rfl

/-- Without a gap the eight groups are the parts of the text. -/
theorem eightGroups_eq_mapM {text : List Char} (hlength : (text.splitOn ':').length = 8)
    (hnil : [] ∉ text.splitOn ':') : eightGroups text = (text.splitOn ':').mapM group := by
  have hne : text ≠ [] := by
    rintro rfl
    exact absurd hlength (by decide)
  rw [eightGroups, cutGap?_eq_none hnil, groups, if_neg hne]
  cases hall : (text.splitOn ':').mapM group with
  | error fault => rfl
  | ok all =>
      have hsame := (mapM_eq_ok_iff.mp hall).length_eq
      exact if_pos (hsame.symm.trans hlength)

/-- Groups joined by colons have no dot. -/
theorem dot_not_mem_of_groups {parts : List (List Char)} {all : List Nat}
    (hall : List.Forall₂ (fun part value => group part = .ok value) parts all) :
    '.' ∉ [':'].intercalate parts := by
  intro hmem
  rcases mem_of_mem_intercalate hmem with hsame | ⟨part, hpart, hmem⟩
  · exact absurd hsame (by decide)
  · exact forall_mem_of_forall₂ hall (fun _ _ => hexDigit?_ne_none_of_group) part hpart '.' hmem rfl

/-- Eight parts of four characters are read if each of them is. -/
theorem read_eq_ok_iff {text : List Char} {address : Nat} (hlength : (text.splitOn ':').length = 8)
    (hparts : ∀ part ∈ text.splitOn ':', part.length = 4) :
    read text = .ok address ↔
      ∃ all, List.Forall₂ (fun part value => group part = .ok value) (text.splitOn ':') all ∧
        Positional.value 65536 all = address := by
  have hnil : [] ∉ text.splitOn ':' := fun hmem => absurd (hparts [] hmem) (by decide)
  have hgroups := eightGroups_eq_mapM hlength hnil
  rw [read_eq_ok_iff_exists_spelled]
  simp only [← mapM_eq_ok_iff, ← hgroups]
  constructor
  · intro h
    obtain ⟨spelled, hspelled, hall⟩ := h
    have hshort : ∀ part ∈ text.splitOn ':', part.length < 7 := by
      intro part hpart
      rw [hparts part hpart]
      decide
    rwa [← eq_of_spellQuad hshort hspelled]
  · intro h
    obtain ⟨all, hall, hvalue⟩ := h
    have hdot := dot_not_mem_of_groups (mapM_eq_ok_iff.mp (hgroups.symm.trans hall))
    rw [List.intercalate_splitOn] at hdot
    exact ⟨text, spellQuad_of_not_mem hdot, all, hall, hvalue⟩

end ColonGroups

namespace SegmentForm

/-- Whether the part of a text for a segment is as long as its digits need. -/
def IsFull : SegmentForm → List Char → Prop
  | octet true, part => part.length ≤ 3
  | octet false, part => 1 < part.length → part.head? ≠ some '0'
  | hextet, part => part.length = 4

/-- The segment that the part of a text stands for. -/
def read? : SegmentForm → List Char → Option Nat
  | octet _, part => DottedQuad.octet? part
  | hextet, part => (ColonGroups.group part).toOption

theorem read?_hextet {part : List Char} {value : Nat} :
    hextet.read? part = some value ↔ ColonGroups.group part = .ok value := by
  rw [read?]
  cases ColonGroups.group part <;> simp [Except.toOption]

theorem writes_plain_iff {value : Nat} {part : List Char} :
    (octet false).Writes value part ↔
      (octet false).IsFull part ∧ Numeral.decimal? part = some value := by
  rw [Writes, IsFull]
  constructor
  · rintro rfl
    refine ⟨?_, Numeral.decimal?_decimal value⟩
    obtain ⟨ds, -, hlt, -, hhead, htext⟩ := Numeral.exists_digits (show 1 < 10 by decide) value
    rw [Numeral.decimal, htext, List.length_map, List.head?_map]
    intro hlength hzero
    obtain ⟨d, hd, hchar⟩ := Option.map_eq_some_iff.mp hzero
    have hsmall : d < 16 := Nat.lt_trans (hlt d (List.mem_of_head? hd)) (by decide)
    have hread := Numeral.hexDigit?_digitChar hsmall
    rw [hchar] at hread
    obtain rfl : 0 = d := Option.some.inj hread
    rw [hhead hd] at hlength
    exact absurd hlength (by decide)
  · intro h
    obtain ⟨hfull, hread⟩ := h
    obtain ⟨zeros, rfl⟩ := Numeral.decimal?_eq_some_iff.mp hread
    cases zeros with
    | zero => rfl
    | succ zeros =>
        have hpos := List.length_pos_of_ne_nil (Numeral.decimal_ne_nil value)
        refine absurd rfl (hfull ?_)
        rw [List.length_append, List.length_replicate]
        omega

theorem writes_hextet_iff {value : Nat} {part : List Char} :
    hextet.Writes value part ∧ value < 65536 ↔
      part.length = 4 ∧ ColonGroups.group part = .ok value := by
  rw [Writes]
  constructor
  · intro h
    obtain ⟨hwrites, hlt⟩ := h
    have hlength : part.length = 4 :=
      hwrites.length_eq.symm.trans (Positional.length_digits 16 4 value)
    have hne : part ≠ [] := List.ne_nil_of_length_pos (hlength ▸ Nat.zero_lt_succ 3)
    exact ⟨hlength, ColonGroups.group_eq_ok_iff.mpr
      ⟨hne, Nat.le_of_eq hlength, _, hwrites.flip, Positional.value_digits_of_lt hlt⟩⟩
  · intro h
    obtain ⟨hlength, hgroup⟩ := h
    obtain ⟨-, -, digits, hdigits, rfl⟩ := ColonGroups.group_eq_ok_iff.mp hgroup
    have hsame : digits.length = 4 := hdigits.length_eq.symm.trans hlength
    have hlt : ∀ d ∈ digits, d < 16 :=
      forall_mem_of_forall₂ hdigits.flip fun _ _ => Numeral.lt_of_hexDigit?
    have hvalue := Positional.value_lt hlt
    rw [hsame] at hvalue
    rw [← hsame, Positional.digits_value hlt]
    exact ⟨hdigits.flip, hvalue⟩

/-- To be the written form of a segment is to be full and read as it. -/
theorem writes_iff_read? {form : SegmentForm} {value : Nat} {part : List Char} :
    form.Writes value part ∧ value ≤ form.top ↔
      form.IsFull part ∧ form.read? part = some value := by
  cases form with
  | octet padded =>
      rw [read?, DottedQuad.octet?_eq_some_iff, ← and_assoc]
      refine and_congr_left fun _ => ?_
      cases padded with
      | true => rw [Writes, IsFull, Numeral.decimal?_eq_some_iff]
      | false => exact writes_plain_iff
  | hextet =>
      rw [read?_hextet, IsFull, ← Nat.lt_succ_iff]
      exact writes_hextet_iff

end SegmentForm

namespace Family

/-- Whether a text leaves nothing of an address out: an octet has three digits at most where it
may be padded and no superfluous zero where not, and there are eight groups of four digits. -/
def FullForm : Family → (leadingZeros : Bool) → List Char → Prop
  | v4, true, text => ∀ part ∈ text.splitOn '.', part.length ≤ 3
  | v4, false, text => ∀ part ∈ text.splitOn '.', 1 < part.length → part.head? ≠ some '0'
  | v6, _, text => (text.splitOn ':').length = 8 ∧ ∀ part ∈ text.splitOn ':', part.length = 4

instance (family : Family) (leadingZeros : Bool) (text : List Char) :
    Decidable (family.FullForm leadingZeros text) :=
  match family, leadingZeros with
  | v4, true => inferInstanceAs (Decidable (∀ part ∈ text.splitOn '.', part.length ≤ 3))
  | v4, false => inferInstanceAs
      (Decidable (∀ part ∈ text.splitOn '.', 1 < part.length → part.head? ≠ some '0'))
  | v6, _ => inferInstanceAs (Decidable
      ((text.splitOn ':').length = 8 ∧ ∀ part ∈ text.splitOn ':', part.length = 4))

variable {family : Family} {leadingZeros : Bool}

/-- A text in full form is read part by part. -/
theorem fullForm_and_readAddress_iff {text : List Char} {address : Nat} :
    family.FullForm leadingZeros text ∧ family.readAddress text = .ok address ↔
      ∃ segments, segments.length = family.segmentCount ∧
        List.Forall₂ (fun part segment => (SegmentForm.of family leadingZeros).IsFull part ∧
          (SegmentForm.of family leadingZeros).read? part = some segment)
          (text.splitOn family.joiner) segments ∧
        Positional.value (family.segmentMax + 1) segments = address := by
  simp only [List.forall₂_and_left]
  cases family with
  | v4 =>
      have hfull : v4.FullForm leadingZeros text ↔
          ∀ part ∈ text.splitOn '.', (SegmentForm.octet leadingZeros).IsFull part := by
        cases leadingZeros <;> rfl
      rw [hfull, readAddress, DottedQuad.read_eq_ok_iff, ← exists_and_left]
      refine exists_congr fun octets => ?_
      rw [and_left_comm, ← and_assoc (b := List.Forall₂ _ _ _)]
      rfl
  | v6 =>
      simp only [SegmentForm.of, SegmentForm.read?_hextet]
      constructor
      · intro h
        obtain ⟨⟨hlength, hparts⟩, hread⟩ := h
        obtain ⟨all, hall, hvalue⟩ := (ColonGroups.read_eq_ok_iff hlength hparts).mp hread
        exact ⟨all, hall.length_eq.symm.trans hlength, ⟨hparts, hall⟩, hvalue⟩
      · intro h
        obtain ⟨all, hlength, ⟨hparts, hall⟩, hvalue⟩ := h
        have hcount := hall.length_eq.trans hlength
        exact ⟨⟨hcount, hparts⟩,
          (ColonGroups.read_eq_ok_iff hcount hparts).mpr ⟨all, hall, hvalue⟩⟩

/-- The written forms of an address are the texts in full form that are read as it. -/
theorem writes_iff_readAddress {text : List Char} {address : Nat} :
    family.Writes leadingZeros address text ∧ address < family.size ↔
      family.FullForm leadingZeros text ∧ family.readAddress text = .ok address := by
  rw [fullForm_and_readAddress_iff]
  simp only [← SegmentForm.writes_iff_read?, ← segmentMax_eq_top]
  constructor
  · intro h
    obtain ⟨⟨parts, rfl, hparts⟩, hlt⟩ := h
    refine ⟨family.segments address, family.length_segments address, ?_, ?_⟩
    · rw [splitOn_intercalate_of_writes (family.segments_ne_nil address) hparts]
      have hboth := (List.forall₂_and_left _ _).mpr
        ⟨fun _ => family.segments_le_segmentMax, hparts⟩
      exact hboth.flip.imp fun _ _ => And.symm
    · rw [size_eq_pow] at hlt
      exact Positional.value_digits_of_lt hlt
  · intro h
    obtain ⟨segments, hlength, hparts, rfl⟩ := h
    have hmax : ∀ segment ∈ segments, segment < family.segmentMax + 1 :=
      forall_mem_of_forall₂ hparts.flip fun _ _ h => Nat.lt_succ_of_le h.2
    have hlt := Positional.value_lt hmax
    rw [hlength, ← size_eq_pow] at hlt
    have hsegments :
        family.segments (Positional.value (family.segmentMax + 1) segments) = segments := by
      rw [Family.segments, ← hlength]
      exact Positional.digits_value hmax
    refine ⟨⟨text.splitOn family.joiner, (List.intercalate_splitOn _).symm, ?_⟩, hlt⟩
    rw [hsegments]
    exact hparts.flip.imp fun _ _ h => h.1

end Family
end NetPattern
