import NetPattern.Proofs.Fragment.Octet
import NetPattern.Proofs.Grammar

/-!
# Fragments are phrases

Every fragment for a segment is a phrase of the grammar, and so is what is united or grouped from
such fragments. Uniting cuts texts at their bars, which keeps to the grammar because the pieces
are those of the trees.
-/

namespace NetPattern

open Grammar

namespace Fragment

/-- Whether a fragment is the text of an expression that has the parts of the grammar only, and
no bar outside its groups. -/
def IsPhrase (fragment : Fragment) : Prop :=
  ∃ regex : Regex, regex.valid = true ∧ Regular regex ∧ regex.isSingle = true ∧
    regex.render = fragment

namespace IsPhrase

theorem isSingle {fragment : Fragment} (h : fragment.IsPhrase) : fragment.IsSingle := by
  obtain ⟨regex, hvalid, -, hsingle, hrender⟩ := h
  exact ⟨regex, hvalid, hsingle, hrender⟩

theorem phrase {fragment : Fragment} (h : fragment.IsPhrase) : Phrase false fragment := by
  obtain ⟨regex, -, hall, hsingle, rfl⟩ := h
  exact (phrase_render hall).2 hsingle

theorem nil : IsPhrase [] :=
  ⟨.done, rfl, trivial, rfl, rfl⟩

theorem append {first second : Fragment} (hfirst : first.IsPhrase) (hsecond : second.IsPhrase) :
    IsPhrase (first ++ second) := by
  obtain ⟨one, hvalid, hall, hsingle, rfl⟩ := hfirst
  obtain ⟨other, hvalid', hall', hsingle', rfl⟩ := hsecond
  refine ⟨one ++ other, ?_, Regex.all_append.mpr ⟨hall, hall'⟩, ?_, Regex.render_append one other⟩
  · rw [Regex.valid_append, hvalid, hvalid']
    rfl
  · rw [Regex.isSingle_append hsingle, hsingle']

theorem symbol {s : Symbol} {quantifier : Quantifier} (hs : s.valid = true)
    (hatom : Atom s.render) (hquantifier : quantifier.valid = true)
    (hrepetition : Repetition quantifier.render) : IsPhrase (s.render ++ quantifier.render) := by
  refine ⟨.symbol s quantifier .done, ?_, ⟨hatom, hrepetition, trivial⟩, rfl,
    List.append_nil _⟩
  rw [Regex.valid, hs, hquantifier]
  rfl

theorem exists_trees {parts : List Fragment} (h : ∀ part ∈ parts, part.IsPhrase) :
    ∃ trees : List Regex, (∀ tree ∈ trees, tree.valid = true ∧ Regular tree) ∧
      trees.map Regex.render = parts := by
  refine exists_map_eq fun part hpart => ?_
  obtain ⟨tree, hvalid, hall, -, hrender⟩ := h part hpart
  exact ⟨tree, ⟨hvalid, hall⟩, hrender⟩

theorem union {parts : List Fragment} (h : ∀ part ∈ parts, part.IsPhrase) :
    IsPhrase (union parts) := by
  obtain ⟨trees, htrees, rfl⟩ := exists_trees h
  have hvalid := fun tree htree => (htrees tree htree).1
  exact ⟨Regex.union trees, Regex.union_valid hvalid,
    Regex.union_all (g := (· = .once)) rfl fun tree htree => (htrees tree htree).2,
    Regex.union_isSingle trees, (union_render hvalid).symm⟩

theorem group {parts : List Fragment} (h : ∀ part ∈ parts, part.IsPhrase) :
    IsPhrase (group parts) := by
  obtain ⟨trees, htrees, rfl⟩ := exists_trees h
  have hall := Regex.All.ofAlternatives fun tree htree => (htrees tree htree).2
  refine ⟨.group (.ofAlternatives trees) .once .done, ?_, ⟨hall, rfl, trivial⟩, rfl,
    (group_render trees).symm⟩
  rw [Regex.valid, Regex.ofAlternatives_valid fun tree htree => (htrees tree htree).1]
  rfl

end IsPhrase

/-! ### Digits -/

theorem spans_digitSpan {least low high : Nat} {rest : List Char} (hleast : least ≤ low)
    (hle : low ≤ high) (hhigh : high < 16) (hrest : Spans (high + 1) rest) :
    Spans least (digitSpan low high ++ rest) := by
  unfold digitSpan
  split
  next hzero =>
    obtain rfl : low = high := by omega
    exact .digit hleast hhigh hrest
  next hone =>
    exact .digit hleast (Nat.lt_of_le_of_lt hle hhigh) (.digit (by omega) hhigh hrest)
  next hzero hone =>
    exact .span hleast (Nat.lt_of_le_of_ne hle fun h => hzero (by omega)) hhigh hrest

theorem spans_digitMembers {low high : Nat} (hle : low ≤ high) (hhigh : high < 16) :
    Spans 0 (digitMembers low high) := by
  have hletters : ∀ least, least ≤ max low 10 →
      Spans least (if 10 ≤ high then digitSpan (max low 10) high else []) := by
    intro least hleast
    split
    next hletter =>
      have hspan := spans_digitSpan hleast (Nat.max_le.mpr ⟨hle, hletter⟩) hhigh .nil
      rwa [List.append_nil] at hspan
    next => exact .nil
  unfold digitMembers
  split
  next hdecimal =>
    have hnine : min high 9 < 16 := by omega
    exact spans_digitSpan (Nat.zero_le low) (Nat.le_min.mpr ⟨hle, hdecimal⟩) hnine
      (hletters _ (by omega))
  next => exact hletters 0 (Nat.zero_le _)

theorem atom_digitSymbol {low high : Nat} (hle : low ≤ high) (hhigh : high < 16) :
    Atom (digitSymbol low high).render := by
  unfold digitSymbol
  split
  next => exact .digit (Nat.lt_of_le_of_lt hle hhigh)
  next =>
    refine .bracket ?_ (spans_digitMembers hle hhigh)
    intro hnil
    have hhead := head?_digitMembers hle
    rw [hnil] at hhead
    exact nomatch hhead

theorem isPhrase_digitClass_append {low high : Nat} (hle : low ≤ high) (hhigh : high < 16)
    {quantifier : Quantifier} (hvalid : quantifier.valid = true)
    (hrepetition : Repetition quantifier.render) :
    IsPhrase (digitClass low high ++ quantifier.render) := by
  rw [← digitSymbol_render]
  exact .symbol (digitSymbol_valid hle hhigh) (atom_digitSymbol hle hhigh) hvalid hrepetition

theorem isPhrase_digitClass {low high : Nat} (hle : low ≤ high) (hhigh : high < 16) :
    IsPhrase (digitClass low high) := by
  have hvalid : Quantifier.once.valid = true := rfl
  have h := isPhrase_digitClass_append hle hhigh hvalid .once
  rwa [Quantifier.render, List.append_nil] at h

theorem IsPhrase.cons_digit {d : Nat} (hd : d < 16) {fragment : Fragment}
    (h : fragment.IsPhrase) : IsPhrase (d.digitChar :: fragment) := by
  have hclass := isPhrase_digitClass (Nat.le_refl d) hd
  rw [digitClass, if_pos rfl] at hclass
  exact hclass.append h

theorem isPhrase_digitText {ds : List Nat} (h : ∀ d ∈ ds, d < 16) : IsPhrase (digitText ds) := by
  induction ds with
  | nil => exact .nil
  | cons d ds ih =>
      obtain ⟨hd, hds⟩ := List.forall_mem_cons.mp h
      exact (ih hds).cons_digit hd

/-! ### Hextets -/

theorem isPhrase_anyDigits (count : Nat) : IsPhrase (anyDigits count) := by
  match count with
  | 0 => exact .nil
  | 1 => exact isPhrase_digitClass (Nat.zero_le 15) (by decide)
  | count + 2 =>
      have hvalid : (Quantifier.exactly (count + 2)).valid = true := rfl
      exact isPhrase_digitClass_append (Nat.zero_le 15) (by decide) hvalid (.exactly (count + 2))

/-- The three parts of a range are phrases if what follows the boundary digits is. -/
theorem isPhrase_splitParts {width l h : Nat} {low high : List Nat} (hl : l < 16) (hh : h < 16)
    (hbelow : IsPhrase (digitRange width low (List.replicate width 15)))
    (habove : IsPhrase (digitRange width (List.replicate width 0) high)) :
    ∀ part ∈ splitParts width l h low high, IsPhrase part.1 := by
  intro part hpart
  rcases mem_splitParts.mp hpart with ⟨-, rfl⟩ | ⟨hfree, rfl⟩ | ⟨-, rfl⟩
  · exact hbelow.cons_digit hl
  · have hlast : lastFree h high < 16 := by
      unfold lastFree
      split <;> omega
    exact (isPhrase_digitClass hfree hlast).append (isPhrase_anyDigits width)
  · exact habove.cons_digit hh

/-- The fragment of a range is a phrase even where the bounds are not in order. -/
theorem isPhrase_digitRange {width : Nat} {low high : List Nat} (hlow : ∀ d ∈ low, d < 16)
    (hhigh : ∀ d ∈ high, d < 16) : IsPhrase (digitRange width low high) := by
  induction width generalizing low high with
  | zero => exact .nil
  | succ width ih =>
      match low, high with
      | [], _ => exact .nil
      | _ :: _, [] => exact .nil
      | l :: low, h :: high =>
          obtain ⟨hl, hlow'⟩ := List.forall_mem_cons.mp hlow
          obtain ⟨hh, hhigh'⟩ := List.forall_mem_cons.mp hhigh
          by_cases hsame : l :: low = h :: high
          · rw [digitRange, if_pos hsame]
            exact isPhrase_digitText hlow
          by_cases hfull : (l :: low).all (· = 0) = true ∧ (h :: high).all (· = 15) = true
          · rw [digitRange, if_neg hsame, if_pos hfull]
            exact isPhrase_anyDigits (width + 1)
          by_cases hhead : l = h
          · rw [digitRange, if_neg hsame, if_neg hfull, if_pos hhead]
            exact (ih hlow' hhigh').cons_digit hl
          · have hreplicate : ∀ {digit : Nat}, digit < 16 →
            ∀ d ∈ List.replicate width digit, d < 16 :=
          fun hdigit => List.forall_mem_replicate.mpr (.inr hdigit)
            rw [digitRange_split hhead hfull]
            refine .union fun fragment hfragment => ?_
            obtain ⟨part, hpart, rfl⟩ := List.mem_map.mp hfragment
            exact isPhrase_splitParts hl hh (ih hlow' (hreplicate (by decide)))
              (ih (hreplicate (by decide)) hhigh') part hpart

theorem isPhrase_hextetRange (low high : Nat) : IsPhrase (hextetRange low high) :=
  isPhrase_digitRange (fun _ => Positional.digits_lt (by decide))
    fun _ => Positional.digits_lt (by decide)

/-! ### Octets -/

theorem isPhrase_decimal (value : Nat) : IsPhrase (Numeral.decimal value) := by
  obtain ⟨ds, -, hlt, -, -, htext⟩ := Numeral.exists_digits (show 1 < 10 by decide) value
  rw [Numeral.decimal, htext]
  exact isPhrase_digitText fun d hd => Nat.lt_trans (hlt d hd) (by decide)

theorem isPhrase_octet (padded : Bool) (value : Nat) : IsPhrase (octet padded value) := by
  have hzeros : ∀ {quantifier : Quantifier}, quantifier.valid = true →
      Repetition quantifier.render →
        IsPhrase (digitClass 0 0 ++ quantifier.render ++ Numeral.decimal value) :=
    fun hvalid hrepetition =>
      (isPhrase_digitClass_append (Nat.le_refl 0) (by decide) hvalid hrepetition).append
        (isPhrase_decimal value)
  cases padded with
  | false => exact isPhrase_decimal value
  | true =>
      rw [octet, if_pos rfl]
      split
      next =>
        have hvalid : (Quantifier.between 0 2).valid = true := rfl
        exact hzeros hvalid (.between (Nat.zero_le 2))
      next =>
        have hvalid : Quantifier.optional.valid = true := rfl
        exact hzeros hvalid .optional
      next => exact isPhrase_decimal value

theorem isPhrase_highOctets : ∀ part ∈ highOctets, IsPhrase part.1 := by
  have hclass : ∀ {high : Nat}, high < 16 → IsPhrase (digitClass 0 high) :=
    isPhrase_digitClass (Nat.zero_le _)
  have htwo : ∀ {fragment : Fragment}, fragment.IsPhrase → IsPhrase ('2' :: fragment) :=
    IsPhrase.cons_digit (show 2 < 16 by decide)
  unfold highOctets
  simp only [List.forall_mem_cons]
  refine ⟨?_, ?_, fun _ hpart => nomatch hpart⟩
  · exact htwo ((hclass (by decide)).cons_digit (show 5 < 16 by decide))
  · exact htwo ((hclass (by decide)).append (hclass (by decide)))

theorem isPhrase_lowOctets (padded : Bool) : ∀ part ∈ lowOctets padded, IsPhrase part.1 := by
  have hoptional : Quantifier.optional.valid = true := rfl
  cases padded with
  | false =>
      have htwice : (Quantifier.exactly 2).valid = true := rfl
      unfold lowOctets
      simp only [List.forall_mem_cons]
      refine ⟨?_, ?_, fun _ hpart => nomatch hpart⟩
      · exact (isPhrase_digitClass_append (Nat.zero_le 9) (by decide) htwice
          (.exactly 2)).cons_digit (show 1 < 16 by decide)
      · exact (isPhrase_digitClass_append (show 1 ≤ 9 by decide) (by decide) hoptional
          .optional).append (isPhrase_digitClass (Nat.zero_le 9) (by decide))
  | true =>
      have htwice : (Quantifier.between 1 2).valid = true := rfl
      unfold lowOctets
      simp only [List.forall_mem_cons]
      refine ⟨?_, fun _ hpart => nomatch hpart⟩
      exact (isPhrase_digitClass_append (Nat.zero_le 1) (by decide) hoptional .optional).append
        (isPhrase_digitClass_append (Nat.zero_le 9) (by decide) htwice
          (.between (show 1 ≤ 2 by decide)))

theorem isPhrase_anyOctet (padded : Bool) : IsPhrase (anyOctet padded) := by
  rw [anyOctet_eq_union]
  refine .union fun fragment hfragment => ?_
  obtain ⟨part, hpart, rfl⟩ := List.mem_map.mp hfragment
  rcases List.mem_append.mp hpart with hpart | hpart
  · exact isPhrase_highOctets part hpart
  · exact isPhrase_lowOctets padded part hpart

theorem isPhrase_octetRange (padded : Bool) (low high : Nat) :
    IsPhrase (octetRange padded low high) := by
  unfold octetRange
  split
  next => exact isPhrase_anyOctet padded
  next =>
    refine .union fun part hpart => ?_
    obtain ⟨value, -, rfl⟩ := List.mem_map.mp hpart
    exact isPhrase_octet padded value

end Fragment

/-- The fragment of a range of segments is a phrase, whatever its bounds. -/
theorem SegmentForm.isPhrase_fragment (form : SegmentForm) (low high : Nat) :
    (form.fragment low high).IsPhrase := by
  cases form with
  | octet padded => exact Fragment.isPhrase_octetRange padded low high
  | hextet => exact Fragment.isPhrase_hextetRange low high

end NetPattern
