import NetPattern.Proofs.Fragment.Phrase

/-!
# Unions in stages

A union of flat parts is flat again, so it can be a part itself, and in the end it does not matter
which parts were united first: the result is the union of all parts, in the order in which the
stages have them. Every fragment of a range of segments is flat, and is the union of itself.
-/

namespace NetPattern.Fragment

/-- Two lists of parts may be united first, and a union may be united alone. -/
theorem union_union {xs ys : List Fragment} (hxs : xs ≠ []) (hys : ys ≠ [])
    (hflat : ∀ part ∈ xs ++ ys, part.IsFlat) :
    union [union xs, union ys] = union (xs ++ ys) := by
  obtain ⟨hflatxs, hflatys⟩ := List.forall_mem_append.mp hflat
  have hgroups := @union_map_union [xs, ys] (by simp [hxs, hys])
    (by simpa using ⟨hflatxs, hflatys⟩)
  rwa [List.flatten_cons, List.flatten_singleton] at hgroups

/-- A group inside a group is laid open by the first union, and taken apart by the second. -/
example : union [union ["(?:(?:a))".toList], union ["b".toList]] = "(?:a|b)".toList ∧
    union ["(?:(?:a))".toList, "b".toList] = "(?:(?:a)|b)".toList := by
  decide

theorem union_union_singleton {parts : List Fragment} (hne : parts ≠ [])
    (hflat : ∀ part ∈ parts, part.IsFlat) : union [union parts] = union parts := by
  have hgroups := @union_map_union [parts] (by simp [hne]) (by simpa using hflat)
  rwa [List.flatten_singleton] at hgroups

/-- Whether a fragment is the union of itself, and what it brings to another union is flat. -/
structure IsFlatUnion (fragment : Fragment) : Prop where
  isFlat : fragment.IsFlat
  union_eq : union [fragment] = fragment

namespace IsFlatUnion

theorem nil : IsFlatUnion [] :=
  ⟨by decide, rfl⟩

theorem union {parts : List Fragment} (hflat : ∀ part ∈ parts, part.IsFlat) :
    IsFlatUnion (union parts) := by
  by_cases hne : parts = []
  · subst hne
    exact nil
  · exact ⟨.union hflat, union_union_singleton hne hflat⟩

theorem cons {c : Char} {rest : List Char} (h : IsSingle (c :: rest)) (hc : c ≠ '(') :
    IsFlatUnion (c :: rest) := by
  refine ⟨h.isFlat hc, ?_⟩
  have hmembers : distinctAlternatives [c :: rest] = [c :: rest] := by
    rw [distinctAlternatives_eq, List.flatMap_singleton, h.members_eq hc]
    rfl
  rw [Fragment.union, hmembers]

end IsFlatUnion

/-! ### The fragments of ranges -/

theorem digitChar_ne_paren (d : Nat) : d.digitChar ≠ '(' :=
  Nat.digitChar_ne _ (by decide)

theorem isFlatUnion_digitText {ds : List Nat} (h : ∀ d ∈ ds, d < 16) :
    IsFlatUnion (digitText ds) := by
  cases ds with
  | nil => exact .nil
  | cons d ds => exact .cons (isPhrase_digitText h).isSingle (digitChar_ne_paren d)

theorem isFlatUnion_anyDigits (count : Nat) : IsFlatUnion (anyDigits count) := by
  have hsingle := (isPhrase_anyDigits count).isSingle
  match count with
  | 0 => exact .nil
  | 1 => exact .cons hsingle (by decide)
  | _ + 2 => exact .cons hsingle (show '[' ≠ '(' by decide)

theorem digitClass_eq_cons (low high : Nat) :
    ∃ c rest, c ≠ '(' ∧ digitClass low high = c :: rest := by
  unfold digitClass
  split
  · exact ⟨_, _, digitChar_ne_paren low, rfl⟩
  · exact ⟨'[', _, by decide, rfl⟩

/-- Each of the three parts of a range starts with a digit or a bracket class. -/
theorem splitParts_eq_cons {width l h : Nat} {low high : List Nat}
    {part : Fragment × (List Nat → Prop)} (hpart : part ∈ splitParts width l h low high) :
    ∃ c rest, c ≠ '(' ∧ part.1 = c :: rest := by
  rcases mem_splitParts.mp hpart with ⟨-, rfl⟩ | ⟨-, rfl⟩ | ⟨-, rfl⟩
  · exact ⟨_, _, digitChar_ne_paren l, rfl⟩
  · obtain ⟨c, rest, hc, heq⟩ := digitClass_eq_cons (firstFree l low) (lastFree h high)
    exact ⟨c, rest ++ anyDigits width, hc, by rw [freePart, heq, List.cons_append]⟩
  · exact ⟨_, _, digitChar_ne_paren h, rfl⟩

theorem IsPhrase.isFlatUnion {fragment : Fragment} (h : fragment.IsPhrase)
    (hcons : ∃ c rest, c ≠ '(' ∧ fragment = c :: rest) : fragment.IsFlatUnion := by
  obtain ⟨c, rest, hc, rfl⟩ := hcons
  exact .cons h.isSingle hc

theorem isFlatUnion_digitRange {width : Nat} {low high : List Nat} (hlow : ∀ d ∈ low, d < 16)
    (hhigh : ∀ d ∈ high, d < 16) : IsFlatUnion (digitRange width low high) := by
  match width, low, high with
  | 0, _, _ => exact .nil
  | _ + 1, [], _ => exact .nil
  | _ + 1, _ :: _, [] => exact .nil
  | width + 1, l :: low, h :: high =>
      obtain ⟨hl, hlow'⟩ := List.forall_mem_cons.mp hlow
      obtain ⟨hh, hhigh'⟩ := List.forall_mem_cons.mp hhigh
      by_cases hsame : l :: low = h :: high
      · rw [digitRange, if_pos hsame]
        exact isFlatUnion_digitText hlow
      by_cases hfull : (l :: low).all (· = 0) = true ∧ (h :: high).all (· = 15) = true
      · rw [digitRange, if_neg hsame, if_pos hfull]
        exact isFlatUnion_anyDigits (width + 1)
      by_cases hhead : l = h
      · rw [digitRange, if_neg hsame, if_neg hfull, if_pos hhead]
        exact ((isPhrase_digitRange hlow' hhigh').cons_digit hl).isFlatUnion
          ⟨_, _, digitChar_ne_paren l, rfl⟩
      · have hreplicate : ∀ {digit : Nat}, digit < 16 →
            ∀ d ∈ List.replicate width digit, d < 16 :=
          fun hdigit => List.forall_mem_replicate.mpr (.inr hdigit)
        rw [digitRange_split hhead hfull]
        refine .union fun fragment hfragment => ?_
        obtain ⟨part, hpart, rfl⟩ := List.mem_map.mp hfragment
        have hphrase := isPhrase_splitParts hl hh
          (isPhrase_digitRange hlow' (hreplicate (by decide)))
          (isPhrase_digitRange (hreplicate (by decide)) hhigh') part hpart
        exact (hphrase.isFlatUnion (splitParts_eq_cons hpart)).isFlat

theorem isFlatUnion_hextetRange (low high : Nat) : IsFlatUnion (hextetRange low high) :=
  isFlatUnion_digitRange (fun _ => Positional.digits_lt (by decide))
    fun _ => Positional.digits_lt (by decide)

theorem anyOctetParts_eq_cons (padded : Bool) : ∀ part ∈ highOctets ++ lowOctets padded,
    ∃ c rest, c ≠ '(' ∧ part.1 = c :: rest := by
  have htwo : ∀ rest, ∃ c more, c ≠ '(' ∧ '2' :: rest = c :: more :=
    fun rest => ⟨'2', rest, by decide, rfl⟩
  unfold highOctets
  cases padded with
  | false =>
      simp only [lowOctets, List.cons_append, List.nil_append, List.forall_mem_cons]
      exact ⟨htwo _, htwo _, ⟨'1', _, by decide, rfl⟩, ⟨'[', _, by decide, rfl⟩,
        List.forall_mem_nil _⟩
  | true =>
      simp only [lowOctets, List.cons_append, List.nil_append, List.forall_mem_cons]
      exact ⟨htwo _, htwo _, ⟨'[', _, by decide, rfl⟩, List.forall_mem_nil _⟩

theorem isFlatUnion_anyOctet (padded : Bool) : IsFlatUnion (anyOctet padded) := by
  rw [anyOctet_eq_union]
  refine .union fun fragment hfragment => ?_
  obtain ⟨part, hpart, rfl⟩ := List.mem_map.mp hfragment
  have hphrase : part.1.IsPhrase := by
    rcases List.mem_append.mp hpart with hhigh | hlow
    · exact isPhrase_highOctets part hhigh
    · exact isPhrase_lowOctets padded part hlow
  exact (hphrase.isFlatUnion (anyOctetParts_eq_cons padded part hpart)).isFlat

theorem isFlatUnion_octetRange (padded : Bool) (low high : Nat) :
    IsFlatUnion (octetRange padded low high) := by
  unfold octetRange
  split
  next => exact isFlatUnion_anyOctet padded
  next =>
    refine .union fun part hpart => ?_
    obtain ⟨value, -, rfl⟩ := List.mem_map.mp hpart
    exact ((isPhrase_octet padded value).isFlatUnion (octet_eq_cons padded value)).isFlat

/-! ### Stages -/

/-- Whether a fragment is what is left of some parts after unions of parts and of earlier unions,
with the parts in the order in which the unions have them. -/
inductive UnitedInStages : (parts : List Fragment) → (result : Fragment) → Prop
  | part (fragment : Fragment) : UnitedInStages [fragment] fragment
  | union {stages : List (List Fragment × Fragment)} (hne : stages ≠ [])
      (h : ∀ stage ∈ stages, UnitedInStages stage.1 stage.2) :
      UnitedInStages (stages.flatMap Prod.fst) (Fragment.union (stages.map Prod.snd))

namespace UnitedInStages

variable {parts : List Fragment} {result : Fragment}

theorem ne_nil (h : UnitedInStages parts result) : parts ≠ [] := by
  induction h with
  | part fragment => exact List.cons_ne_nil _ _
  | @union stages hne h ih =>
      obtain ⟨stage, hstage⟩ := List.exists_mem_of_ne_nil stages hne
      obtain ⟨part, hpart⟩ := List.exists_mem_of_ne_nil _ (ih stage hstage)
      exact List.ne_nil_of_mem (List.mem_flatMap.mpr ⟨stage, hstage, hpart⟩)

/-- It does not matter for the result in which stages the parts were united. -/
theorem eq_union (h : UnitedInStages parts result) (hparts : ∀ part ∈ parts, part.IsFlatUnion) :
    result = Fragment.union parts := by
  induction h with
  | part fragment => exact (hparts fragment List.mem_cons_self).union_eq.symm
  | @union stages hne h ih =>
      have hmem : ∀ stage ∈ stages, ∀ part ∈ stage.1, part.IsFlatUnion :=
        fun stage hstage part hpart =>
          hparts part (List.mem_flatMap.mpr ⟨stage, hstage, hpart⟩)
      have hresults : stages.map Prod.snd = (stages.map Prod.fst).map Fragment.union := by
        rw [List.map_map]
        exact List.map_congr_left fun stage hstage => ih stage hstage (hmem stage hstage)
      rw [hresults, union_map_union, List.flatMap_def]
      · exact List.forall_mem_map.mpr fun stage hstage => (h stage hstage).ne_nil
      · exact List.forall_mem_map.mpr fun stage hstage part hpart =>
          (hmem stage hstage part hpart).isFlat

/-- What is left of several stages is flat, and has the distinct alternatives of the parts. -/
theorem flat_union (h : UnitedInStages parts result)
    (hparts : ∀ part ∈ parts, part.IsFlatUnion) :
    result = Fragment.union parts ∧ result.IsFlatUnion ∧
      result.members = (parts.flatMap members).eraseDups := by
  have hflat : ∀ part ∈ parts, part.IsFlat := fun part hpart => (hparts part hpart).isFlat
  rw [h.eq_union hparts]
  exact ⟨rfl, .union hflat, members_union hflat h.ne_nil⟩

end UnitedInStages

end NetPattern.Fragment
