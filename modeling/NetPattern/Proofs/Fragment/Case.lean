import NetPattern.Proofs.Fragment.Octet
import NetPattern.Proofs.Row.Language

/-!
# Fragments and case

Fragments are written with digits in lower case. So where case counts, a fragment takes the texts
that it takes where case is ignored, except those with a letter in upper case.
-/

namespace NetPattern

/-- Whether no letter of a text is in upper case. -/
def InLowerCase (text : List Char) : Prop :=
  ∀ c ∈ text, c.isUpper = false

instance (text : List Char) : Decidable (InLowerCase text) :=
  List.decidableBAll (fun c : Char => c.isUpper = false) text

theorem inLowerCase_append {first second : List Char} :
    InLowerCase (first ++ second) ↔ InLowerCase first ∧ InLowerCase second :=
  List.forall_mem_append

theorem isUpper_eq_false_iff {c : Char} : c.isUpper = false ↔ ¬(65 ≤ c.toNat ∧ c.toNat ≤ 90) :=
  decide_eq_false_iff_not

namespace Fragment

/-- A digit where case counts is one in lower case. -/
theorem writesDigit_false_iff {digit : Nat} {c : Char} :
    WritesDigit false digit c ↔ WritesDigit true digit c ∧ c.isUpper = false := by
  simp only [WritesDigit, forall_const, Bool.true_eq_false, false_implies, and_true]
  refine and_congr_right fun hdigit => ?_
  rw [isUpper_eq_false_iff, ← Char.toNat_inj,
    Numeral.toNat_digitChar (Numeral.lt_of_hexDigit? hdigit)]
  have hbounds := Numeral.hexDigit?_eq_some_iff.mp hdigit
  split <;> omega

theorem digitRows_false_iff {rows : List Nat → Prop} {text : List Char} :
    DigitRows false rows text ↔ DigitRows true rows text ∧ InLowerCase text := by
  have hwrites : ∀ ds, List.Forall₂ (WritesDigit false) ds text ↔
      List.Forall₂ (WritesDigit true) ds text ∧ InLowerCase text := by
    intro ds
    constructor
    · intro h
      have hboth := h.imp fun _ _ => writesDigit_false_iff.mp
      exact ⟨hboth.imp fun _ _ => And.left,
        forall_mem_of_forall₂ hboth.flip fun _ _ => And.right⟩
    · intro h
      have hboth := (List.forall₂_and_left text ds).mpr ⟨h.2, h.1.flip⟩
      exact hboth.flip.imp fun _ _ hdigit => writesDigit_false_iff.mpr ⟨hdigit.2, hdigit.1⟩
  simp only [DigitRows, hwrites, ← and_assoc, exists_and_right]

/-- Whether a fragment is written in lower case: where case counts, it takes of the texts that it
takes otherwise those in lower case. -/
structure IsLowerCase (fragment : Fragment) : Prop where
  isSingle : fragment.IsSingle
  matchesWhole_iff : ∀ text, fragment.matchesWhole false text = true ↔
    fragment.matchesWhole true text = true ∧ InLowerCase text

theorem IsLowerCase.of_denotes {fragment : Fragment} {language : List Char → Prop}
    (hignored : Denotes true fragment language)
    (hcounts : Denotes false fragment fun text => language text ∧ InLowerCase text) :
    fragment.IsLowerCase :=
  ⟨hignored.isSingle, fun text => by rw [hcounts.matches_iff, hignored.matches_iff]⟩

namespace IsLowerCase

theorem nil : IsLowerCase [] :=
  .of_denotes (denotes_nil true) ((denotes_nil false).congr fun _ =>
    ⟨fun hnil => ⟨hnil, hnil ▸ List.forall_mem_nil _⟩, And.left⟩)

theorem append {first second : Fragment} (hfirst : first.IsLowerCase)
    (hsecond : second.IsLowerCase) : IsLowerCase (first ++ second) := by
  refine ⟨hfirst.isSingle.append hsecond.isSingle, fun text => ?_⟩
  rw [hfirst.isSingle.matchesWhole_append false hsecond.isSingle,
    hfirst.isSingle.matchesWhole_append true hsecond.isSingle]
  simp only [hfirst.matchesWhole_iff, hsecond.matchesWhole_iff]
  constructor
  · intro h
    obtain ⟨piece, more, rfl, ⟨hpiece, hlower⟩, hmore, hlower'⟩ := h
    exact ⟨⟨piece, more, rfl, hpiece, hmore⟩, inLowerCase_append.mpr ⟨hlower, hlower'⟩⟩
  · intro h
    obtain ⟨⟨piece, more, rfl, hpiece, hmore⟩, hlower⟩ := h
    rw [inLowerCase_append] at hlower
    exact ⟨piece, more, rfl, ⟨hpiece, hlower.1⟩, hmore, hlower.2⟩

section Alternatives

variable {parts : List Fragment} (h : ∀ part ∈ parts, part.IsLowerCase)

include h in
theorem exists_part_iff (text : List Char) :
    (∃ part ∈ parts, part.matchesWhole false text = true) ↔
      (∃ part ∈ parts, part.matchesWhole true text = true) ∧ InLowerCase text := by
  constructor
  · intro hexists
    obtain ⟨part, hpart, htakes⟩ := hexists
    obtain ⟨htrue, hlower⟩ := ((h part hpart).matchesWhole_iff text).mp htakes
    exact ⟨⟨part, hpart, htrue⟩, hlower⟩
  · intro hboth
    obtain ⟨⟨part, hpart, htrue⟩, hlower⟩ := hboth
    exact ⟨part, hpart, ((h part hpart).matchesWhole_iff text).mpr ⟨htrue, hlower⟩⟩

include h in
theorem group (hne : parts ≠ []) : IsLowerCase (Fragment.group parts) := by
  have hsingle : ∀ part ∈ parts, part.IsSingle := fun part hpart => (h part hpart).isSingle
  refine ⟨group_isSingle hsingle, fun text => ?_⟩
  rw [matchesWhole_group false hne hsingle, matchesWhole_group true hne hsingle,
    exists_part_iff h]

include h in
theorem union : IsLowerCase (Fragment.union parts) := by
  by_cases hne : parts = []
  · subst hne
    exact nil
  · have hregular : ∀ part ∈ parts, part.IsRegular := fun part hpart =>
      (h part hpart).isSingle.isRegular
    refine ⟨union_isSingle hregular, fun text => ?_⟩
    rw [matchesWhole_union false hne hregular, matchesWhole_union true hne hregular,
      exists_part_iff h]

end Alternatives

end IsLowerCase

end Fragment

theorem Family.isLowerCase_separator (family : Family) : family.separator.IsLowerCase := by
  refine .of_denotes (family.denotes_separator true)
    ((family.denotes_separator false).congr fun text => ?_)
  constructor
  · rintro rfl
    exact ⟨rfl, by cases family <;> decide⟩
  · exact And.left

/-- Octets have no letters. -/
theorem SegmentForm.inLowerCase_of_writes {padded : Bool} {value : Nat} {text : List Char}
    (h : (octet padded).Writes value text) : InLowerCase text := by
  obtain ⟨ds, hds, -, rfl⟩ := writes_octet_iff.mp h
  intro c hc
  obtain ⟨d, hd, rfl⟩ := List.mem_map.mp hc
  have hlt := hds.lt_ten d hd
  rw [isUpper_eq_false_iff, Nat.toNat_digitChar_of_lt_ten hlt]
  omega

/-- The fragment of a range of segments is written in lower case. -/
theorem SegmentForm.isLowerCase_fragment (form : SegmentForm) {low high : Nat} (hle : low ≤ high)
    (hhigh : high ≤ form.top) : (form.fragment low high).IsLowerCase := by
  cases form with
  | octet padded =>
      refine .of_denotes (Fragment.denotes_octetRange true padded hle hhigh)
        ((Fragment.denotes_octetRange false padded hle hhigh).congr fun text => ?_)
      constructor
      · intro h
        obtain ⟨value, hlow, hvalue, hwrites⟩ := h
        exact ⟨⟨value, hlow, hvalue, hwrites⟩, inLowerCase_of_writes hwrites⟩
      · exact And.left
  | hextet =>
      have hlt : high < 65536 := Nat.lt_succ_of_le hhigh
      exact .of_denotes (Fragment.denotes_hextetRange true hle hlt)
        ((Fragment.denotes_hextetRange false hle hlt).congr fun _ => Fragment.digitRows_false_iff)

end NetPattern
