import NetPattern.Proofs.Address.FullForm

/-!
# How addresses are spelled

The grammar of address texts, said without a reader: octets joined by dots, and groups joined by
colons with at most one gap and a dotted quad at the end at most. The readers accept the texts of
the grammar with the address that they spell, and refuse all others.
-/

namespace NetPattern

/-! ### Dotted quads -/

namespace DottedQuad

/-- Whether a text is an octet: decimal digits, any number of zeros among them, that stand for a
number of eight bits. -/
structure IsOctet (part : List Char) (value : Nat) : Prop where
  ne_nil : part ≠ []
  isDigit : ∀ c ∈ part, c.isDigit = true
  value_eq : Nat.ofDigitChars 10 part 0 = value
  value_le : value ≤ 255

/-- Whether a text spells an IPv4 address: four octets joined by dots, the first the most
significant. -/
def Spells (text : List Char) (address : Nat) : Prop :=
  ∃ parts octets, parts.length = 4 ∧ text = ['.'].intercalate parts ∧
    List.Forall₂ IsOctet parts octets ∧ Positional.value 256 octets = address

theorem octet?_eq_some_iff_isOctet {part : List Char} {value : Nat} :
    octet? part = some value ↔ IsOctet part value := by
  rw [octet?_eq_some_iff, Numeral.decimal?]
  constructor
  · intro h
    obtain ⟨hread, hle⟩ := h
    split at hread
    next hdigits =>
      exact ⟨hdigits.1, List.all_eq_true.mp hdigits.2, Option.some.inj hread, hle⟩
    next => cases hread
  · intro h
    rw [if_pos ⟨h.ne_nil, List.all_eq_true.mpr h.isDigit⟩, h.value_eq]
    exact ⟨rfl, h.value_le⟩

theorem IsOctet.not_mem {part : List Char} {value : Nat} (h : IsOctet part value) {c : Char}
    (hc : c.isDigit = false) : c ∉ part := by
  intro hmem
  rw [h.isDigit c hmem] at hc
  exact Bool.noConfusion hc

/-- The reader of dotted quads accepts what spells an IPv4 address. -/
theorem read_eq_ok_iff_spells {text : List Char} {address : Nat} :
    read text = .ok address ↔ Spells text address := by
  rw [read_eq_ok_iff]
  simp only [octet?_eq_some_iff_isOctet]
  constructor
  · intro h
    obtain ⟨octets, hlength, hoctets, hvalue⟩ := h
    exact ⟨_, octets, hoctets.length_eq.trans hlength, (List.intercalate_splitOn '.').symm,
      hoctets, hvalue⟩
  · intro h
    obtain ⟨parts, octets, hlength, rfl, hoctets, hvalue⟩ := h
    have hparts : (['.'].intercalate parts).splitOn '.' = parts := by
      apply List.splitOn_intercalate
      · exact forall_mem_of_forall₂ hoctets fun _ _ hoctet => hoctet.not_mem rfl
      · exact List.ne_nil_of_length_pos (hlength ▸ Nat.zero_lt_succ 3)
    rw [hparts]
    exact ⟨octets, hoctets.length_eq.symm.trans hlength, hoctets, hvalue⟩

theorem Spells.lt {text : List Char} {address : Nat} (h : Spells text address) :
    address < 2 ^ 32 := by
  obtain ⟨parts, octets, hlength, -, hoctets, rfl⟩ := h
  have hlt : Positional.value 256 octets < 256 ^ octets.length := Positional.value_lt
    (forall_mem_of_forall₂ hoctets.flip fun _ _ hoctet => Nat.lt_succ_of_le hoctet.value_le)
  rwa [← hoctets.length_eq, hlength] at hlt

/-- A dotted quad has dots and digits only. -/
theorem Spells.mem {text : List Char} {address : Nat} (h : Spells text address) {c : Char}
    (hc : c ∈ text) : c = '.' ∨ c.isDigit = true := by
  obtain ⟨parts, octets, -, rfl, hoctets, -⟩ := h
  refine (mem_of_mem_intercalate hc).imp_right fun hmem => ?_
  obtain ⟨part, hpart, hc⟩ := hmem
  exact forall_mem_of_forall₂ hoctets (fun _ _ hoctet => hoctet.isDigit) part hpart c hc

theorem Spells.dot_mem {text : List Char} {address : Nat} (h : Spells text address) :
    '.' ∈ text := by
  obtain ⟨parts, octets, hlength, rfl, -, -⟩ := h
  obtain ⟨first, second, more, rfl⟩ : ∃ first second more, parts = first :: second :: more := by
    match parts, hlength with
    | first :: second :: more, _ => exact ⟨first, second, more, rfl⟩
  rw [List.intercalate_cons_cons]
  exact List.mem_append_left _ (List.mem_append_right _ List.mem_cons_self)

theorem Spells.colon_not_mem {text : List Char} {address : Nat} (h : Spells text address) :
    ':' ∉ text := by
  intro hcolon
  rcases h.mem hcolon with hc | hc <;> exact absurd hc (by decide)

end DottedQuad

/-! ### Groups -/

namespace ColonGroups

/-- Whether a text is a group: one to four hexadecimal digits in either case. -/
def IsGroup (part : List Char) (value : Nat) : Prop :=
  part ≠ [] ∧ part.length ≤ 4 ∧
    ∃ digits, List.Forall₂ (fun c digit => Numeral.hexDigit? c = some digit) part digits ∧
      Positional.value 16 digits = value

/-- Whether some texts are groups, the last of which may be a dotted quad that stands for two. -/
inductive AreGroupsOrQuad : List (List Char) → List Nat → Prop
  | nil : AreGroupsOrQuad [] []
  | quad {part : List Char} {quad : Nat} (hquad : DottedQuad.Spells part quad) :
      AreGroupsOrQuad [part] [quad / 65536, quad % 65536]
  | group {part : List Char} {value : Nat} {parts : List (List Char)} {values : List Nat}
      (hgroup : IsGroup part value) (hrest : AreGroupsOrQuad parts values) :
      AreGroupsOrQuad (part :: parts) (value :: values)

/-- Whether a text lays out eight groups: all of them joined by colons, or some before and some
behind a gap that leaves out one group of zeros at least. What may stand at the end of the text is
a parameter. -/
inductive LaysOut (Ending : List (List Char) → List Nat → Prop) : List Char → List Nat → Prop
  | full {parts : List (List Char)} {all : List Nat} (hparts : Ending parts all)
      (hlength : all.length = 8) : LaysOut Ending ([':'].intercalate parts) all
  | gap {front back : List (List Char)} {high low : List Nat}
      (hfront : List.Forall₂ IsGroup front high) (hback : Ending back low)
      (hlength : high.length + low.length ≤ 7) :
      LaysOut Ending ([':'].intercalate front ++ "::".toList ++ [':'].intercalate back)
        (high ++ List.replicate (8 - (high.length + low.length)) 0 ++ low)

/-- Whether a text spells an IPv6 address: it lays out eight groups, of which the last two may be
a dotted quad. -/
def Spells (text : List Char) (address : Nat) : Prop :=
  ∃ all, LaysOut AreGroupsOrQuad text all ∧ Positional.value 65536 all = address

theorem group_eq_ok_iff_isGroup {part : List Char} {value : Nat} :
    group part = .ok value ↔ IsGroup part value :=
  group_eq_ok_iff

theorem IsGroup.ne_nil_and_colon_not_mem {part : List Char} {value : Nat} (h : IsGroup part value) :
    part ≠ [] ∧ ':' ∉ part :=
  ⟨h.1, fun hmem => hexDigit?_ne_none_of_group (group_eq_ok_iff_isGroup.mpr h) ':' hmem rfl⟩

theorem ne_nil_and_colon_not_mem {parts : List (List Char)} {all : List Nat}
    (h : List.Forall₂ IsGroup parts all) : ∀ part ∈ parts, part ≠ [] ∧ ':' ∉ part :=
  forall_mem_of_forall₂ h fun _ _ => IsGroup.ne_nil_and_colon_not_mem

theorem splitOn_groups {parts : List (List Char)} {all : List Nat}
    (h : List.Forall₂ IsGroup parts all) (hne : parts ≠ []) :
    ([':'].intercalate parts).splitOn ':' = parts :=
  List.splitOn_intercalate ':' (fun part hpart => (ne_nil_and_colon_not_mem h part hpart).2) hne

/-- A row of groups is read as the groups joined by colons; the empty text is no groups. -/
theorem groups_eq_ok_iff {text : List Char} {all : List Nat} :
    groups text = .ok all ↔
      ∃ parts, text = [':'].intercalate parts ∧ List.Forall₂ IsGroup parts all := by
  by_cases hnil : text = []
  · subst hnil
    rw [groups, if_pos rfl]
    constructor
    · intro h
      obtain rfl := Except.ok.inj h
      exact ⟨[], rfl, .nil⟩
    · intro h
      obtain ⟨parts, htext, hparts⟩ := h
      cases hparts with
      | nil => rfl
      | cons hgroup hrest =>
          have hsplit := splitOn_groups (.cons hgroup hrest) (List.cons_ne_nil _ _)
          rw [← htext, List.splitOn_nil] at hsplit
          exact absurd (List.cons.inj hsplit).1.symm hgroup.1
  · rw [groups, if_neg hnil, mapM_eq_ok_iff]
    simp only [group_eq_ok_iff_isGroup]
    constructor
    · exact fun h => ⟨_, (List.intercalate_splitOn ':').symm, h⟩
    · intro h
      obtain ⟨parts, rfl, hparts⟩ := h
      rwa [splitOn_groups hparts]
      rintro rfl
      exact hnil rfl

theorem cutGap?_groups {parts : List (List Char)} {all : List Nat}
    (h : List.Forall₂ IsGroup parts all) : cutGap? ([':'].intercalate parts) = none := by
  have hcut := cutGap?_intercalate_append (ne_nil_and_colon_not_mem h) []
  rwa [List.append_nil] at hcut

theorem cutGap?_groups_gap {parts : List (List Char)} {all : List Nat}
    (h : List.Forall₂ IsGroup parts all) (rest : List Char) :
    cutGap? ([':'].intercalate parts ++ "::".toList ++ rest) =
      some ([':'].intercalate parts, rest) := by
  rw [List.append_assoc, cutGap?_intercalate_append (ne_nil_and_colon_not_mem h)]
  simp [cutGap?]

/-- Without dotted quads, eight groups are read from the texts that lay them out. -/
theorem eightGroups_eq_ok_iff {text : List Char} {all : List Nat} :
    eightGroups text = .ok all ↔ LaysOut (List.Forall₂ IsGroup) text all := by
  constructor
  · intro h
    rw [eightGroups] at h
    split at h
    next =>
      obtain ⟨values, hvalues, hall⟩ := exists_of_bind_eq_ok h
      obtain ⟨parts, rfl, hparts⟩ := groups_eq_ok_iff.mp hvalues
      split at hall
      next hlength =>
        obtain rfl := Except.ok.inj hall
        exact .full hparts hlength
      next => cases hall
    next before after hcut =>
      obtain rfl := eq_of_cutGap? hcut
      split at h
      next => cases h
      next =>
        obtain ⟨high, hhigh, hrest⟩ := exists_of_bind_eq_ok h
        obtain ⟨low, hlow, hall⟩ := exists_of_bind_eq_ok hrest
        obtain ⟨front, rfl, hfront⟩ := groups_eq_ok_iff.mp hhigh
        obtain ⟨back, rfl, hback⟩ := groups_eq_ok_iff.mp hlow
        split at hall
        next hlength =>
          obtain rfl := Except.ok.inj hall
          have hlaid := LaysOut.gap hfront hback (Nat.le_of_lt_succ hlength)
          rwa [List.append_assoc] at hlaid
        next => cases hall
  · intro h
    cases h with
    | full hparts hlength =>
        rw [eightGroups, cutGap?_groups hparts]
        simp only [groups_eq_ok_iff.mpr ⟨_, rfl, hparts⟩, bind, Except.bind]
        exact if_pos hlength
    | gap hfront hback hlength =>
        rw [eightGroups, cutGap?_groups_gap hfront]
        simp only [cutGap?_groups hback, Option.isSome_none, Bool.false_eq_true, if_false,
          groups_eq_ok_iff.mpr ⟨_, rfl, hfront⟩, groups_eq_ok_iff.mpr ⟨_, rfl, hback⟩, bind,
          Except.bind]
        exact if_pos (Nat.lt_succ_of_le hlength)

/-! ### The dotted quad at the end -/

/-- A dotted quad at the end of some groups stands for the two groups that it is spelled as. -/
theorem areGroupsOrQuad_concat_iff {part : List Char} {quad : Nat}
    (hquad : DottedQuad.Spells part quad) {parts : List (List Char)} {all : List Nat} :
    AreGroupsOrQuad (parts ++ [part]) all ↔
      List.Forall₂ IsGroup (parts ++
        [Numeral.hexadecimal (quad / 65536), Numeral.hexadecimal (quad % 65536)]) all := by
  have hlt := hquad.lt
  have hhigh : IsGroup (Numeral.hexadecimal (quad / 65536)) (quad / 65536) :=
    group_eq_ok_iff_isGroup.mp (group_hexadecimal (by omega))
  have hlow : IsGroup (Numeral.hexadecimal (quad % 65536)) (quad % 65536) :=
    group_eq_ok_iff_isGroup.mp (group_hexadecimal (by omega))
  have hunique : ∀ {part value value'}, IsGroup part value → IsGroup part value' →
      value = value' := by
    intro part value value' h h'
    rw [← group_eq_ok_iff_isGroup] at h h'
    exact Except.ok.inj (h.symm.trans h')
  induction parts generalizing all with
  | nil =>
      constructor
      · intro h
        cases h with
        | quad hquad' =>
            rw [← DottedQuad.read_eq_ok_iff_spells] at hquad hquad'
            obtain rfl := Except.ok.inj (hquad.symm.trans hquad')
            exact .cons hhigh (.cons hlow .nil)
        | group hgroup _ =>
            have hdigits := hexDigit?_ne_none_of_group (group_eq_ok_iff_isGroup.mpr hgroup)
            exact absurd rfl (hdigits '.' hquad.dot_mem)
      · intro h
        simp only [List.nil_append, List.forall₂_cons_left_iff, List.forall₂_nil_left_iff] at h
        obtain ⟨_, _, hvalue, ⟨_, _, hvalue', rfl, rfl⟩, rfl⟩ := h
        rw [hunique hvalue hhigh, hunique hvalue' hlow]
        exact .quad hquad
  | cons first parts ih =>
      constructor
      · intro h
        generalize hlist : first :: parts ++ [part] = list at h
        cases h with
        | nil => cases hlist
        | quad hquad' => exact absurd (congrArg List.length hlist) (by simp)
        | group hgroup hrest =>
            obtain ⟨rfl, rfl⟩ := List.cons.inj hlist
            exact .cons hgroup (ih.mp hrest)
      · intro h
        cases h with
        | cons hgroup hrest => exact .group hgroup (ih.mpr hrest)

theorem AreGroupsOrQuad.groups_or_exists_quad {parts : List (List Char)} {all : List Nat}
    (h : AreGroupsOrQuad parts all) :
    List.Forall₂ IsGroup parts all ∨
      ∃ front part quad, parts = front ++ [part] ∧ DottedQuad.Spells part quad := by
  induction h with
  | nil => exact .inl .nil
  | quad hquad => exact .inr ⟨[], _, _, rfl, hquad⟩
  | group hgroup _ ih =>
      rcases ih with hrest | ⟨front, part, quad, rfl, hquad⟩
      · exact .inl (.cons hgroup hrest)
      · exact .inr ⟨_ :: front, part, quad, rfl, hquad⟩

theorem AreGroupsOrQuad.ne_nil_and_colon_not_mem {parts : List (List Char)} {all : List Nat}
    (h : AreGroupsOrQuad parts all) : ∀ part ∈ parts, part ≠ [] ∧ ':' ∉ part := by
  induction h with
  | nil => exact List.forall_mem_nil _
  | quad hquad =>
      exact List.forall_mem_singleton.mpr
        ⟨List.ne_nil_of_mem hquad.dot_mem, hquad.colon_not_mem⟩
  | group hgroup _ ih => exact List.forall_mem_cons.mpr ⟨hgroup.ne_nil_and_colon_not_mem, ih⟩

theorem AreGroupsOrQuad.of_groups {parts : List (List Char)} {all : List Nat}
    (h : List.Forall₂ IsGroup parts all) : AreGroupsOrQuad parts all := by
  induction h with
  | nil => exact .nil
  | cons hgroup _ ih => exact .group hgroup ih

theorem LaysOut.imp {Ending Ending' : List (List Char) → List Nat → Prop} {text : List Char}
    {all : List Nat} (h : LaysOut Ending text all)
    (himp : ∀ {parts values}, Ending parts values → Ending' parts values) :
    LaysOut Ending' text all := by
  cases h with
  | full hparts hlength => exact .full (himp hparts) hlength
  | gap hfront hback hlength => exact .gap hfront (himp hback) hlength

theorem splitOn_append_gap_append (before after : List Char) :
    (before ++ "::".toList ++ after).splitOn ':' =
      before.splitOn ':' ++ [] :: after.splitOn ':' := by
  rw [List.append_assoc]
  exact splitOn_gap before after

theorem eq_of_splitOn_eq {text other : List Char} (h : text.splitOn ':' = other.splitOn ':') :
    text = other := by
  have htext : [':'].intercalate (text.splitOn ':') = text := List.intercalate_splitOn ':'
  rw [← htext, h, List.intercalate_splitOn]

section Lead

variable {Ending : List (List Char) → List Nat → Prop} {ws : List (List Char)}
  (hending : ∀ parts all, Ending parts all → ∀ part ∈ parts, part ≠ [] ∧ ':' ∉ part)
  (hne : ws ≠ []) (hws : ∀ w ∈ ws, w ≠ [] ∧ ':' ∉ w)

include hending hne hws in
/-- Parts that end in the last words, seen from the text that they are joined into. -/
theorem splitOn_ending_iff {parts before : List (List Char)} {all : List Nat}
    (h : Ending parts all) :
    ([':'].intercalate parts).splitOn ':' = before ++ ws ↔ parts = before ++ ws := by
  by_cases hparts : parts = []
  · subst hparts
    rw [List.intercalate_nil, List.splitOn_nil]
    constructor
    · intro hsplit
      obtain ⟨w, hw⟩ := List.exists_mem_of_ne_nil ws hne
      have hmem : w ∈ [[]] := hsplit ▸ List.mem_append_right _ hw
      exact absurd (List.mem_singleton.mp hmem) (hws w hw).1
    · intro hnil
      exact absurd (List.append_eq_nil_iff.mp hnil.symm).2 hne
  · rw [List.splitOn_intercalate ':' (fun part hpart => (hending parts all h part hpart).2) hparts]

include hne hws in
theorem splitOn_lead (lead : List Char) :
    (lead ++ ':' :: [':'].intercalate ws).splitOn ':' = lead.splitOn ':' ++ ws := by
  rw [List.splitOn_append_cons_self,
    List.splitOn_intercalate ':' (fun w hw => (hws w hw).2) hne]

include hending hne hws in
/-- What is laid out in a text with some words behind a colon, by the parts before it: there is no
gap, or it is among them. -/
theorem laysOut_lead_iff (lead : List Char) (all : List Nat) :
    LaysOut Ending (lead ++ ':' :: [':'].intercalate ws) all ↔
      Ending (lead.splitOn ':' ++ ws) all ∧ all.length = 8 ∨
        ∃ front middle high low,
          lead.splitOn ':' = ([':'].intercalate front).splitOn ':' ++ [] :: middle ∧
            List.Forall₂ IsGroup front high ∧ Ending (middle ++ ws) low ∧
              high.length + low.length ≤ 7 ∧
                all = high ++ List.replicate (8 - (high.length + low.length)) 0 ++ low := by
  have hempty : [] ∉ ws := fun hmem => (hws [] hmem).1 rfl
  have hsplit := splitOn_lead hne hws lead
  constructor
  · intro h
    generalize lead ++ ':' :: [':'].intercalate ws = text at h hsplit
    cases h with
    | full hparts hlength =>
        left
        rw [splitOn_ending_iff hending hne hws hparts] at hsplit
        exact ⟨hsplit ▸ hparts, hlength⟩
    | @gap front back high low hfront hback hlength =>
        right
        rw [splitOn_append_gap_append] at hsplit
        rcases List.append_eq_append_iff.mp hsplit with
          ⟨middle, hlead, hparts⟩ | ⟨rest, -, hrest⟩
        · -- The empty part between the colons of the gap is none of the words at the end.
          cases middle with
          | nil =>
              have hws_eq : [] :: ([':'].intercalate back).splitOn ':' = ws := hparts
              exact absurd (hws_eq ▸ List.mem_cons_self) hempty
          | cons first middle =>
              obtain ⟨hfirst, hsplit_back⟩ : [] = first ∧
                  ([':'].intercalate back).splitOn ':' = middle ++ ws := List.cons.inj hparts
              subst hfirst
              rw [splitOn_ending_iff hending hne hws hback] at hsplit_back
              exact ⟨front, middle, high, low, hlead, hfront, hsplit_back ▸ hback, hlength, rfl⟩
        · exact absurd (hrest ▸ List.mem_append_right _ List.mem_cons_self) hempty
  · intro h
    rcases h with ⟨hparts, hlength⟩ | ⟨front, middle, high, low, hlead, hfront, hback, hlength, rfl⟩
    · have htext : lead ++ ':' :: [':'].intercalate ws =
          [':'].intercalate (lead.splitOn ':' ++ ws) :=
        eq_of_splitOn_eq
          (hsplit.trans ((splitOn_ending_iff hending hne hws hparts).mpr rfl).symm)
      exact htext ▸ .full hparts hlength
    · have hmiddle := (splitOn_ending_iff hending hne hws hback).mpr rfl
      have htext : lead ++ ':' :: [':'].intercalate ws =
          [':'].intercalate front ++ "::".toList ++ [':'].intercalate (middle ++ ws) := by
        apply eq_of_splitOn_eq
        rw [hsplit, hlead, splitOn_append_gap_append, hmiddle]
        exact List.append_assoc _ _ _
      exact htext ▸ .gap hfront hback hlength

end Lead

/-- A dotted quad behind the last colon stands for the two groups that it is spelled as. -/
theorem laysOut_quad_iff {part : List Char} {quad : Nat} (hquad : DottedQuad.Spells part quad)
    (lead : List Char) (all : List Nat) :
    LaysOut AreGroupsOrQuad (lead ++ ':' :: part) all ↔
      LaysOut (List.Forall₂ IsGroup) (lead ++ ':' :: join [quad / 65536, quad % 65536]) all := by
  have hpart : ∀ w ∈ [part], w ≠ [] ∧ ':' ∉ w :=
    List.forall_mem_singleton.mpr ⟨List.ne_nil_of_mem hquad.dot_mem, hquad.colon_not_mem⟩
  have hspelled : ∀ w ∈ [quad / 65536, quad % 65536].map Numeral.hexadecimal, w ≠ [] ∧ ':' ∉ w := by
    intro w hw
    obtain ⟨value, -, rfl⟩ := List.mem_map.mp hw
    exact ⟨Nat.toDigits_ne_nil, colon_not_mem_hexadecimal value⟩
  have hleft := laysOut_lead_iff
    (fun parts all (h : AreGroupsOrQuad parts all) => h.ne_nil_and_colon_not_mem)
    (List.cons_ne_nil _ _) hpart lead all
  have hright := laysOut_lead_iff
    (fun parts all (h : List.Forall₂ IsGroup parts all) => ne_nil_and_colon_not_mem h)
    (List.cons_ne_nil _ _) hspelled lead all
  rw [List.intercalate_singleton] at hleft
  refine hleft.trans (Iff.trans ?_ hright.symm)
  simp only [areGroupsOrQuad_concat_iff hquad, List.map_cons, List.map_nil]

theorem spellQuad_quad {part : List Char} {quad : Nat} (hquad : DottedQuad.Spells part quad)
    (lead : List Char) :
    spellQuad (lead ++ ':' :: part) = .ok (lead ++ ':' :: join [quad / 65536, quad % 65536]) := by
  rw [spellQuad, cutLastColon?_append_colon lead hquad.colon_not_mem]
  simp only [hquad.dot_mem, if_true, DottedQuad.read_eq_ok_iff_spells.mpr hquad]
  rw [join_cons_cons, join_singleton]
  simp only [List.append_assoc, List.cons_append, List.nil_append]

theorem exists_lead (parts : List (List Char)) (last : List Char) :
    ∃ lead, ':' :: [':'].intercalate (parts ++ [last]) = lead ++ ':' :: last := by
  induction parts with
  | nil => exact ⟨[], congrArg _ (List.intercalate_singleton)⟩
  | cons part parts ih =>
      obtain ⟨lead, hlead⟩ := ih
      refine ⟨':' :: part ++ lead, ?_⟩
      rw [List.cons_append, List.intercalate_cons_of_ne_nil (List.append_ne_nil_of_right_ne_nil
        parts (List.cons_ne_nil _ _)), List.append_assoc, List.singleton_append, hlead]
      simp only [List.cons_append, List.append_assoc]

theorem LaysOut.groups_or_exists_quad {text : List Char} {all : List Nat}
    (h : LaysOut AreGroupsOrQuad text all) :
    LaysOut (List.Forall₂ IsGroup) text all ∨
      ∃ lead part quad, text = lead ++ ':' :: part ∧ DottedQuad.Spells part quad := by
  cases h with
  | full hparts hlength =>
      rcases hparts.groups_or_exists_quad with hgroups | ⟨front, part, quad, rfl, hquad⟩
      · exact .inl (.full hgroups hlength)
      · have hcount := ((areGroupsOrQuad_concat_iff hquad).mp hparts).length_eq
        cases front with
        | nil =>
            have htwo : 2 = 8 := hcount.trans hlength
            exact absurd htwo (by decide)
        | cons first front =>
            obtain ⟨lead, hlead⟩ := exists_lead front part
            refine .inr ⟨first ++ lead, part, quad, ?_, hquad⟩
            rw [List.cons_append, List.intercalate_cons_of_ne_nil
              (List.append_ne_nil_of_right_ne_nil front (List.cons_ne_nil _ _)),
              List.append_assoc, List.singleton_append, hlead, List.append_assoc]
  | @gap front _ _ _ hfront hback hlength =>
      rcases hback.groups_or_exists_quad with hgroups | ⟨middle, part, quad, rfl, hquad⟩
      · exact .inl (.gap hfront hgroups hlength)
      · obtain ⟨lead, hlead⟩ := exists_lead middle part
        refine .inr ⟨[':'].intercalate front ++ ':' :: lead, part, quad, ?_, hquad⟩
        rw [List.append_assoc, List.append_assoc, List.cons_append, ← hlead]
        rfl

theorem LaysOut.dot_not_mem {text : List Char} {all : List Nat}
    (h : LaysOut (List.Forall₂ IsGroup) text all) : '.' ∉ text := by
  have hgroups : ∀ {parts values}, List.Forall₂ IsGroup parts values →
      '.' ∉ [':'].intercalate parts :=
    fun h => dot_not_mem_of_groups (h.imp fun _ _ => group_eq_ok_iff_isGroup.mpr)
  cases h with
  | full hparts _ => exact hgroups hparts
  | gap hfront hback _ =>
      simp only [List.mem_append, not_or]
      exact ⟨⟨hgroups hfront, by decide⟩, hgroups hback⟩

theorem IsGroup.lt {part : List Char} {value : Nat} (h : IsGroup part value) : value < 65536 := by
  obtain ⟨-, hlength, digits, hdigits, rfl⟩ := h
  have hlt : Positional.value 16 digits < 16 ^ digits.length := Positional.value_lt
    (forall_mem_of_forall₂ hdigits.flip fun _ _ => Numeral.lt_of_hexDigit?)
  rw [← hdigits.length_eq] at hlt
  exact Nat.lt_of_lt_of_le hlt (Nat.pow_le_pow_right (by decide) hlength)

theorem AreGroupsOrQuad.lt {parts : List (List Char)} {all : List Nat}
    (h : AreGroupsOrQuad parts all) : ∀ value ∈ all, value < 65536 := by
  induction h with
  | nil => exact List.forall_mem_nil _
  | quad hquad =>
      have hlt := hquad.lt
      intro value hvalue
      simp only [List.mem_cons, List.not_mem_nil, or_false] at hvalue
      omega
  | group hgroup _ ih => exact List.forall_mem_cons.mpr ⟨hgroup.lt, ih⟩

/-- What is laid out are eight groups of sixteen bits. -/
theorem LaysOut.length_and_lt {text : List Char} {all : List Nat}
    (h : LaysOut AreGroupsOrQuad text all) : all.length = 8 ∧ ∀ value ∈ all, value < 65536 := by
  cases h with
  | full hparts hlength => exact ⟨hlength, hparts.lt⟩
  | gap hfront hback hlength =>
      refine ⟨?_, ?_⟩
      · simp only [List.length_append, List.length_replicate]
        omega
      · intro value hvalue
        simp only [List.mem_append, List.mem_replicate] at hvalue
        rcases hvalue with (hhigh | ⟨-, rfl⟩) | hlow
        · exact (AreGroupsOrQuad.of_groups hfront).lt value hhigh
        · decide
        · exact hback.lt value hlow

theorem Spells.lt {text : List Char} {address : Nat} (h : Spells text address) :
    address < 2 ^ 128 := by
  obtain ⟨all, hall, rfl⟩ := h
  obtain ⟨hlength, hlt⟩ := hall.length_and_lt
  have hvalue := Positional.value_lt hlt
  rwa [hlength] at hvalue

/-- The reader of colon groups accepts what spells an IPv6 address. -/
theorem read_eq_ok_iff_spells {text : List Char} {address : Nat} :
    read text = .ok address ↔ Spells text address := by
  rw [read_eq_ok_iff_exists_spelled]
  simp only [eightGroups_eq_ok_iff]
  constructor
  · intro h
    obtain ⟨spelled, hspelled, all, hall, hvalue⟩ := h
    refine ⟨all, ?_, hvalue⟩
    rcases eq_or_exists_quad_of_spellQuad hspelled with rfl | ⟨lead, part, quad, rfl, -, hread⟩
    · exact hall.imp .of_groups
    · have hquad := DottedQuad.read_eq_ok_iff_spells.mp hread
      rw [spellQuad_quad hquad] at hspelled
      rwa [laysOut_quad_iff hquad, Except.ok.inj hspelled]
  · intro h
    obtain ⟨all, hall, hvalue⟩ := h
    rcases hall.groups_or_exists_quad with hgroups | ⟨lead, part, quad, rfl, hquad⟩
    · exact ⟨text, spellQuad_of_not_mem hgroups.dot_not_mem, all, hgroups, hvalue⟩
    · exact ⟨_, spellQuad_quad hquad lead, all, (laysOut_quad_iff hquad lead all).mp hall, hvalue⟩

end ColonGroups

/-! ### Parsed addresses -/

namespace Family

variable {family : Family} {text : String}

theorem parseAddress_eq_ok_iff {address : Nat} :
    family.parseAddress text = .ok address ↔ family.readAddress text.toList = .ok address := by
  rw [parseAddress]
  cases family.readAddress text.toList <;> simp [Except.mapError]

theorem parseAddress_eq_error_iff {fault : AddressFault} :
    family.parseAddress text = .error (.invalidAddress text fault) ↔
      family.readAddress text.toList = .error fault := by
  rw [parseAddress]
  cases family.readAddress text.toList <;> simp [Except.mapError]

/-- A text that is not parsed is refused with the whole of it in the error. -/
theorem exists_invalidAddress_iff :
    (∃ fault, family.parseAddress text = .error (.invalidAddress text fault)) ↔
      ¬∃ address, family.readAddress text.toList = .ok address := by
  rw [parseAddress]
  cases family.readAddress text.toList <;> simp [Except.mapError]

end Family

/-- A text is parsed as an IPv6 address if it spells one, and the address is the one that it
spells. Every other text is refused as it stands, with its dotted quad if it has one. -/
theorem ipv6_parsed_iff_spelled (text : String) :
    (∀ address, Family.v6.parseAddress text = .ok address ↔
        ColonGroups.Spells text.toList address) ∧
      ((∃ fault, Family.v6.parseAddress text = .error (.invalidAddress text fault)) ↔
        ¬∃ address, ColonGroups.Spells text.toList address) := by
  simp only [← ColonGroups.read_eq_ok_iff_spells]
  exact ⟨fun _ => Family.parseAddress_eq_ok_iff, Family.exists_invalidAddress_iff⟩

example : Family.v6.parseAddress "64:ff9b::192.0.002.33" =
    .ok 0x64ff9b0000000000000000c0000221 := by decide

end NetPattern
