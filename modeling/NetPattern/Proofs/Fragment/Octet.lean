import NetPattern.Fragment.Octet
import NetPattern.Proofs.Fragment.Hextet
import NetPattern.Proofs.Fragment.Union
import NetPattern.Proofs.WrittenForm

/-!
# Fragments of octets

The fragment of a range of octets takes the octets of the range, written in decimal, and with the
zeros in front that the form allows. The short fragment of all octets takes the same as a list of
them would.
-/

namespace NetPattern.Fragment

theorem writesDigits_iff_of_lt_ten {ignoreCase : Bool} {ds : List Nat} {text : List Char}
    (h : ∀ d ∈ ds, d < 10) :
    List.Forall₂ (WritesDigit ignoreCase) ds text ↔ text = ds.map Nat.digitChar := by
  induction ds generalizing text with
  | nil => exact List.forall₂_nil_left_iff
  | cons d ds ih =>
      obtain ⟨hd, hds⟩ := List.forall_mem_cons.mp h
      rw [List.forall₂_cons_left_iff, List.map_cons]
      constructor
      · intro hwrites
        obtain ⟨c, rest, hc, hrest, rfl⟩ := hwrites
        rw [(writesDigit_iff_of_lt_ten hd).mp hc, (ih hds).mp hrest]
      · intro htext
        exact ⟨_, _, (writesDigit_iff_of_lt_ten hd).mpr rfl, (ih hds).mpr rfl, htext⟩

/-- Texts of decimal digits are the same in either case. -/
theorem digitRows_iff_of_lt_ten {ignoreCase : Bool} {rows : List Nat → Prop}
    (h : ∀ ds, rows ds → ∀ d ∈ ds, d < 10) (text : List Char) :
    DigitRows ignoreCase rows text ↔ ∃ ds, rows ds ∧ text = ds.map Nat.digitChar := by
  unfold DigitRows
  apply exists_congr
  intro ds
  exact and_congr_right fun hds => writesDigits_iff_of_lt_ten (h ds hds)

/-- An optional digit in front of a row of digits. -/
theorem Denotes.cons_optional_digit {ignoreCase : Bool} {low high : Nat} (hle : low ≤ high)
    (hhigh : high < 16) {fragment : Fragment} {rows : List Nat → Prop}
    (h : Denotes ignoreCase fragment (DigitRows ignoreCase rows)) :
    Denotes ignoreCase (digitClass low high ++ Quantifier.optional.render ++ fragment)
      (DigitRows ignoreCase fun row =>
        rows row ∨ ∃ d rest, row = d :: rest ∧ low ≤ d ∧ d ≤ high ∧ rows rest) := by
  apply ((denotes_digits_repeated ignoreCase hle hhigh
    (by rfl : Quantifier.optional.valid = true)).append_digits h).congr
  apply DigitRows.congr
  intro row _
  constructor
  · intro hrow
    obtain ⟨ahead, behind, rfl, ⟨-, hmost, hahead⟩, hbehind⟩ := hrow
    cases ahead with
    | nil => exact .inl hbehind
    | cons d more =>
        have hmore : more = [] := by
          have := hmost 1 rfl
          simpa using this
        obtain ⟨⟨hlow, hd⟩, -⟩ := List.forall_mem_cons.mp hahead
        exact .inr ⟨d, behind, by rw [hmore]; rfl, hlow, hd, hbehind⟩
  · intro hrow
    rcases hrow with hrow | ⟨d, rest, rfl, hlow, hd, hrest⟩
    · exact ⟨[], row, rfl, ⟨Nat.zero_le _, fun _ _ => Nat.zero_le _, by simp⟩, hrow⟩
    · refine ⟨[d], rest, rfl, ⟨Nat.zero_le _, ?_, by simp [hlow, hd]⟩, hrest⟩
      intro most hmost
      rw [← Option.some.inj hmost]
      exact Nat.le_refl 1

section Decimal

variable (ignoreCase : Bool) (value : Nat)

theorem denotes_decimal :
    Denotes ignoreCase (Numeral.decimal value) fun text => text = Numeral.decimal value := by
  obtain ⟨ds, -, hlt, -, -, htext⟩ := Numeral.exists_digits (show 1 < 10 by decide) value
  have hrow := denotes_digitText ignoreCase fun d hd => Nat.lt_trans (hlt d hd) (by decide)
  rw [digitText, ← htext] at hrow
  apply hrow.congr
  intro text
  rw [digitRows_iff_of_lt_ten]
  · simp [Numeral.decimal, htext]
  · intro row heq
    rwa [heq]

/-- A numeral behind as many zeros as a quantifier allows. -/
theorem denotes_zeros_decimal {quantifier : Quantifier} (hvalid : quantifier.valid = true)
    (hleast : quantifier.least = 0) {most : Nat} (hmost : quantifier.most? = some most) :
    Denotes ignoreCase ('0' :: quantifier.render ++ Numeral.decimal value) fun text =>
      ∃ zeros ≤ most, text = List.replicate zeros '0' ++ Numeral.decimal value := by
  have hzeros := denotes_digits_repeated ignoreCase (Nat.le_refl 0) (by decide) hvalid
  apply (hzeros.append (denotes_decimal ignoreCase value)).congr
  intro text
  constructor
  · intro h
    obtain ⟨_, _, rfl, ⟨ds, ⟨-, hlength, hds⟩, hwrites⟩, rfl⟩ := h
    have hrow : ds = List.replicate ds.length 0 :=
      List.eq_replicate_iff.mpr ⟨rfl, fun d hd => Nat.le_zero.mp (hds d hd).2⟩
    have hlt : ∀ d ∈ ds, d < 10 := fun d hd => Nat.lt_of_le_of_lt (hds d hd).2 (by decide)
    refine ⟨ds.length, hlength most hmost, ?_⟩
    rw [(writesDigits_iff_of_lt_ten hlt).mp hwrites, hrow, List.map_replicate,
      List.length_replicate]
    rfl
  · intro h
    obtain ⟨zeros, hle, rfl⟩ := h
    have hlt : ∀ d ∈ List.replicate zeros 0, d < 10 := by
      intro d hd
      rw [List.eq_of_mem_replicate hd]
      decide
    refine ⟨_, _, rfl, ⟨List.replicate zeros 0, ⟨by omega, ?_, ?_⟩, ?_⟩, rfl⟩
    · intro bound hbound
      rw [List.length_replicate, ← Option.some.inj (hmost.symm.trans hbound)]
      exact hle
    · intro d hd
      rw [List.eq_of_mem_replicate hd]
      exact ⟨Nat.le_refl 0, Nat.le_refl 0⟩
    · rw [writesDigits_iff_of_lt_ten hlt, List.map_replicate]
      rfl

end Decimal

/-- A padded octet has as many zeros in front as there is room for in three digits. -/
theorem exists_zeros_iff {value most : Nat} (hmost : most + (Numeral.decimal value).length = 3)
    (text : List Char) :
    (∃ zeros ≤ most, text = List.replicate zeros '0' ++ Numeral.decimal value) ↔
      (SegmentForm.octet true).Writes value text := by
  rw [SegmentForm.Writes]
  constructor
  · intro h
    obtain ⟨zeros, hzeros, rfl⟩ := h
    refine ⟨?_, zeros, rfl⟩
    rw [List.length_append, List.length_replicate]
    omega
  · intro h
    obtain ⟨hlength, zeros, rfl⟩ := h
    rw [List.length_append, List.length_replicate] at hlength
    exact ⟨zeros, by omega, rfl⟩

/-- The fragment of an octet takes the written forms of the octet. -/
theorem denotes_octet (ignoreCase padded : Bool) {value : Nat} (hvalue : value ≤ 255) :
    Denotes ignoreCase (octet padded value) ((SegmentForm.octet padded).Writes value) := by
  cases padded with
  | false => exact denotes_decimal ignoreCase value
  | true =>
      have hpos : 0 < (Numeral.decimal value).length :=
        List.length_pos_of_ne_nil (Numeral.decimal_ne_nil value)
      have hle : (Numeral.decimal value).length ≤ 3 :=
        (Nat.length_toDigits_le_iff (by decide) (by decide)).mpr
          (Nat.lt_of_le_of_lt hvalue (by decide : 255 < 10 ^ 3))
      rw [octet, if_pos rfl]
      split
      next hone =>
        have hvalid : (Quantifier.between 0 2).valid = true := rfl
        exact (denotes_zeros_decimal ignoreCase value hvalid rfl rfl).congr
          (exists_zeros_iff (by omega))
      next htwo =>
        have hvalid : Quantifier.optional.valid = true := rfl
        exact (denotes_zeros_decimal ignoreCase value hvalid rfl rfl).congr
          (exists_zeros_iff (by omega))
      next hone htwo =>
        have hthree : 0 + (Numeral.decimal value).length = 3 := by
          change _ ≠ 1 at hone
          change _ ≠ 2 at htwo
          omega
        apply (denotes_decimal ignoreCase value).congr
        intro text
        rw [← exists_zeros_iff hthree]
        simp

/-- The octets from 200 to 255 in two parts, each a fragment and its rows of digits. -/
def highOctets : List (Fragment × (List Nat → Prop)) :=
  [('2' :: '5' :: digitClass 0 5, fun row => ∃ d, row = [2, 5, d] ∧ d ≤ 5),
    ('2' :: (digitClass 0 4 ++ digitClass 0 9),
      fun row => ∃ d e, row = [2, d, e] ∧ d ≤ 4 ∧ e ≤ 9)]

/-- The other octets. -/
def lowOctets : (padded : Bool) → List (Fragment × (List Nat → Prop))
  | false =>
      [('1' :: (digitClass 0 9 ++ (Quantifier.exactly 2).render),
        fun row => ∃ d e, row = [1, d, e] ∧ d ≤ 9 ∧ e ≤ 9),
        (digitClass 1 9 ++ Quantifier.optional.render ++ digitClass 0 9,
          fun row => ∃ d, d ≤ 9 ∧ (row = [d] ∨ ∃ e, row = [e, d] ∧ 1 ≤ e ∧ e ≤ 9))]
  | true =>
      [(digitClass 0 1 ++ Quantifier.optional.render ++
          (digitClass 0 9 ++ (Quantifier.between 1 2).render),
        fun row => ∃ rest, rest ≠ [] ∧ rest.length ≤ 2 ∧ (∀ d ∈ rest, d ≤ 9) ∧
          (row = rest ∨ ∃ e, row = e :: rest ∧ e ≤ 1))]

theorem anyOctet_eq_union (padded : Bool) :
    anyOctet padded = union ((highOctets ++ lowOctets padded).map Prod.fst) := by
  cases padded <;> rfl

theorem denotes_lastDigit (ignoreCase : Bool) {high : Nat} (hhigh : high < 16) :
    Denotes ignoreCase (digitClass 0 high)
      (DigitRows ignoreCase fun row => ∃ d, row = [d] ∧ d ≤ high) := by
  apply (denotes_digitClass ignoreCase (Nat.zero_le high) hhigh).congr
  exact DigitRows.congr fun row _ => by simp

theorem denotes_highOctets (ignoreCase : Bool) :
    ∀ part ∈ highOctets, Denotes ignoreCase part.1 (DigitRows ignoreCase part.2) := by
  unfold highOctets
  simp only [List.forall_mem_cons]
  refine ⟨?_, ?_, fun _ hpart => nomatch hpart⟩
  · have hlast := denotes_lastDigit ignoreCase (show 5 < 16 by decide)
    apply ((hlast.cons_digitChar (show 5 < 16 by decide)).cons_digitChar
      (show 2 < 16 by decide)).congr
    exact DigitRows.congr fun row _ => by grind
  · have hlast := denotes_lastDigit ignoreCase (show 9 < 16 by decide)
    apply ((hlast.cons_digit (Nat.zero_le 4) (by decide)).cons_digitChar
      (show 2 < 16 by decide)).congr
    exact DigitRows.congr fun row _ => by grind

theorem denotes_lowOctets (ignoreCase padded : Bool) :
    ∀ part ∈ lowOctets padded, Denotes ignoreCase part.1 (DigitRows ignoreCase part.2) := by
  cases padded with
  | false =>
      unfold lowOctets
      simp only [List.forall_mem_cons]
      refine ⟨?_, ?_, fun _ hpart => nomatch hpart⟩
      · have hpair := denotes_digits_repeated ignoreCase (Nat.zero_le 9) (by decide)
          (by rfl : (Quantifier.exactly 2).valid = true)
        apply (hpair.cons_digitChar (show 1 < 16 by decide)).congr
        apply DigitRows.congr
        intro row _
        constructor
        · intro hrow
          obtain ⟨rest, rfl, hleast, hmost, hrest⟩ := hrow
          obtain ⟨d, e, rfl⟩ := List.length_eq_two.mp (Nat.le_antisymm (hmost 2 rfl) hleast)
          simp only [List.forall_mem_cons] at hrest
          exact ⟨d, e, rfl, hrest.1.2, hrest.2.1.2⟩
        · intro hrow
          obtain ⟨d, e, rfl, hd, he⟩ := hrow
          refine ⟨[d, e], rfl, Nat.le_refl 2, ?_, by simp [hd, he]⟩
          intro most hmost
          exact Nat.le_of_eq (Option.some.inj hmost)
      · have hlast := denotes_lastDigit ignoreCase (show 9 < 16 by decide)
        apply (hlast.cons_optional_digit (show 1 ≤ 9 by decide) (by decide)).congr
        exact DigitRows.congr fun row _ => by grind
  | true =>
      unfold lowOctets
      simp only [List.forall_mem_cons]
      refine ⟨?_, fun _ hpart => nomatch hpart⟩
      have hrest := denotes_digits_repeated ignoreCase (Nat.zero_le 9) (by decide)
        (by rfl : (Quantifier.between 1 2).valid = true)
      apply (hrest.cons_optional_digit (Nat.zero_le 1) (by decide)).congr
      apply DigitRows.congr
      intro row _
      have hsize : ∀ rest : List Nat, ((Quantifier.between 1 2).least ≤ rest.length ∧
          (∀ most, (Quantifier.between 1 2).most? = some most → rest.length ≤ most) ∧
          ∀ d ∈ rest, 0 ≤ d ∧ d ≤ 9) ↔
            rest ≠ [] ∧ rest.length ≤ 2 ∧ ∀ d ∈ rest, d ≤ 9 := by
        intro rest
        simp [Quantifier.least, Quantifier.most?, Nat.one_le_iff_ne_zero]
      simp only [hsize]
      grind

theorem octetDigits_length_le {padded : Bool} {row : List Nat} (h : OctetDigits padded row)
    (hvalue : Positional.value 10 row ≤ 255) : row.length ≤ 3 := by
  cases padded with
  | true => exact h.length_le rfl
  | false =>
      cases row with
      | nil => exact Nat.zero_le 3
      | cons d rest =>
          rw [Positional.value_cons] at hvalue
          have hhead := h.head_zero rfl
          -- A fourth digit makes the value at least 1000, as the first one is not zero.
          by_contra hlong
          rw [List.length_cons] at hlong
          have hd : 1 ≤ d := by
            apply Nat.pos_of_ne_zero
            intro hzero
            have hrest := (List.cons.inj (hhead (by rw [hzero]; rfl))).2
            rw [hrest] at hlong
            exact hlong (by decide)
          have hpow : 10 ^ 3 ≤ 10 ^ rest.length := Nat.pow_le_pow_right (by decide) (by omega)
          have := Nat.mul_le_mul hd hpow
          omega

/-- Up to three digits may be those of an octet, unless a superfluous zero stands in front. -/
theorem octetDigits_cons {padded : Bool} {d : Nat} {rest : List Nat} (hle : ∀ e ∈ d :: rest, e ≤ 9)
    (hlength : rest.length ≤ 2) (hhead : padded = false → d = 0 → rest = []) :
    OctetDigits padded (d :: rest) where
  ne_nil := List.cons_ne_nil d rest
  lt_ten := fun e he => Nat.lt_succ_of_le (hle e he)
  length_le := fun _ => Nat.succ_le_succ hlength
  head_zero := by
    intro hplain hzero
    have hd : d = 0 := Option.some.inj hzero
    rw [hd, hhead hplain hd]

theorem value_three (a b c : Nat) : Positional.value 10 [a, b, c] = 100 * a + 10 * b + c := by
  simp only [Positional.value, List.foldl_cons, List.foldl_nil]
  omega

theorem value_two (a b : Nat) : Positional.value 10 [a, b] = 10 * a + b := by
  simp only [Positional.value, List.foldl_cons, List.foldl_nil]
  omega

theorem mem_highOctets_iff {row : List Nat} :
    (∃ part ∈ highOctets, part.2 row) ↔
      ∃ b c, row = [2, b, c] ∧ b ≤ 9 ∧ c ≤ 9 ∧ 10 * b + c ≤ 55 := by
  simp only [highOctets, List.mem_cons, List.not_mem_nil, or_false, exists_eq_or_imp,
    exists_eq_left]
  constructor
  · intro h
    rcases h with ⟨d, rfl, hd⟩ | ⟨d, e, rfl, hd, he⟩
    · exact ⟨5, d, rfl, by omega, by omega, by omega⟩
    · exact ⟨d, e, rfl, by omega, by omega, by omega⟩
  · intro h
    obtain ⟨b, c, rfl, hb, hc, hle⟩ := h
    rcases Nat.lt_or_eq_of_le (show b ≤ 5 by omega) with hlt | rfl
    · exact .inr ⟨b, c, rfl, by omega, hc⟩
    · exact .inl ⟨c, rfl, by omega⟩

theorem mem_lowOctets_iff {padded : Bool} {row : List Nat} :
    (∃ part ∈ lowOctets padded, part.2 row) ↔
      (∃ c, row = [c] ∧ c ≤ 9) ∨
        (∃ b c, row = [b, c] ∧ b ≤ 9 ∧ c ≤ 9 ∧ (padded = false → b ≠ 0)) ∨
        ∃ a b c, row = [a, b, c] ∧ a ≤ 1 ∧ b ≤ 9 ∧ c ≤ 9 ∧ (padded = false → a ≠ 0) := by
  cases padded with
  | false =>
      simp only [lowOctets, List.mem_cons, List.not_mem_nil, or_false, exists_eq_or_imp,
        exists_eq_left, true_implies]
      grind
  | true =>
      simp only [lowOctets, List.mem_cons, List.not_mem_nil, or_false, exists_eq_left,
        Bool.true_eq_false, false_implies, and_true]
      constructor
      · intro h
        obtain ⟨rest, hne, hlength, hrest, hrow⟩ := h
        match rest with
        | [c] =>
            have hc : c ≤ 9 := hrest c (by simp)
            rcases hrow with rfl | ⟨e, rfl, he⟩
            · exact .inl ⟨c, rfl, hc⟩
            · exact .inr (.inl ⟨e, c, rfl, by omega, hc⟩)
        | [b, c] =>
            have hb : b ≤ 9 := hrest b (by simp)
            have hc : c ≤ 9 := hrest c (by simp)
            rcases hrow with rfl | ⟨e, rfl, he⟩
            · exact .inr (.inl ⟨b, c, rfl, hb, hc⟩)
            · exact .inr (.inr ⟨e, b, c, rfl, he, hb, hc⟩)
      · intro h
        rcases h with ⟨c, rfl, hc⟩ | ⟨b, c, rfl, hb, hc⟩ | ⟨a, b, c, rfl, ha, hb, hc⟩
        · exact ⟨[c], by simp, by simp, by simpa using hc, .inl rfl⟩
        · exact ⟨[b, c], by simp, by simp, by simp [hb, hc], .inl rfl⟩
        · exact ⟨[b, c], by simp, by simp, by simp [hb, hc], .inr ⟨a, rfl, ha⟩⟩

/-- The parts of the fragment of all octets cover the rows of digits of octets. -/
theorem exists_octetPart_iff {padded : Bool} {row : List Nat} :
    (∃ part ∈ highOctets ++ lowOctets padded, part.2 row) ↔
      OctetDigits padded row ∧ Positional.value 10 row ≤ 255 := by
  simp only [List.mem_append, or_and_right, exists_or]
  rw [mem_highOctets_iff, mem_lowOctets_iff]
  constructor
  · intro h
    rcases h with ⟨b, c, rfl, hb, hc, hle⟩ | ⟨c, rfl, hc⟩ | ⟨b, c, rfl, hb, hc, hpadded⟩ |
      ⟨a, b, c, rfl, ha, hb, hc, hpadded⟩
    · refine ⟨octetDigits_cons (by simp [hb, hc]) (Nat.le_refl 2) ?_, by rw [value_three]; omega⟩
      exact fun _ hzero => absurd hzero (by decide)
    · exact ⟨octetDigits_cons (by simpa using hc) (Nat.zero_le 2) fun _ _ => rfl,
        by simp [Positional.value]; omega⟩
    · refine ⟨octetDigits_cons (by simp [hb, hc]) (Nat.le_succ 1) ?_, by rw [value_two]; omega⟩
      exact fun hplain hzero => absurd hzero (hpadded hplain)
    · have ha : a ≤ 9 := by omega
      refine ⟨octetDigits_cons (by simp [ha, hb, hc]) (Nat.le_refl 2) ?_,
        by rw [value_three]; omega⟩
      exact fun hplain hzero => absurd hzero (hpadded hplain)
  · intro h
    obtain ⟨hdigits, hvalue⟩ := h
    have hlength := octetDigits_length_le hdigits hvalue
    have hlt := hdigits.lt_ten
    have hhead := hdigits.head_zero
    have hpos := List.length_pos_iff.mpr hdigits.ne_nil
    obtain hone | htwo | hthree : row.length = 1 ∨ row.length = 2 ∨ row.length = 3 := by omega
    · obtain ⟨c, rfl⟩ := List.length_eq_one_iff.mp hone
      have hc := hlt c (by simp)
      exact .inr (.inl ⟨c, rfl, by omega⟩)
    · obtain ⟨b, c, rfl⟩ := List.length_eq_two.mp htwo
      have hb := hlt b (by simp)
      have hc := hlt c (by simp)
      refine .inr (.inr (.inl ⟨b, c, rfl, by omega, by omega, ?_⟩))
      intro hplain hzero
      exact absurd (hhead hplain (by rw [hzero]; rfl)) (by simp)
    · obtain ⟨a, b, c, rfl⟩ := List.length_eq_three.mp hthree
      have ha := hlt a (by simp)
      have hb := hlt b (by simp)
      have hc := hlt c (by simp)
      rw [value_three] at hvalue
      rcases Nat.lt_or_eq_of_le (show a ≤ 2 by omega) with hsmall | rfl
      · refine .inr (.inr (.inr ⟨a, b, c, rfl, by omega, by omega, by omega, ?_⟩))
        intro hplain hzero
        exact absurd (hhead hplain (by rw [hzero]; rfl)) (by simp)
      · exact .inl ⟨b, c, rfl, by omega, by omega, by omega⟩

/-- The short fragment of all octets takes the written forms of all of them. -/
theorem denotes_anyOctet (ignoreCase padded : Bool) :
    Denotes ignoreCase (anyOctet padded) fun text =>
      ∃ v ≤ 255, (SegmentForm.octet padded).Writes v text := by
  have hparts : ∀ part ∈ highOctets ++ lowOctets padded,
      Denotes ignoreCase part.1 (DigitRows ignoreCase part.2) := by
    intro part hpart
    rcases List.mem_append.mp hpart with hpart | hpart
    · exact denotes_highOctets ignoreCase part hpart
    · exact denotes_lowOctets ignoreCase padded part hpart
  rw [anyOctet_eq_union]
  apply (Denotes.union_digits (by simp [highOctets]) hparts).congr
  intro text
  rw [DigitRows.congr fun row _ => exists_octetPart_iff,
    digitRows_iff_of_lt_ten fun row hrow => hrow.1.lt_ten]
  simp only [SegmentForm.writes_octet_iff]
  constructor
  · intro h
    obtain ⟨ds, ⟨hds, hvalue⟩, htext⟩ := h
    exact ⟨_, hvalue, ds, hds, rfl, htext⟩
  · intro h
    obtain ⟨_, hvalue, ds, hds, rfl, htext⟩ := h
    exact ⟨ds, ⟨hds, hvalue⟩, htext⟩

/-- The fragment of a range of octets takes their written forms. -/
theorem denotes_octetRange (ignoreCase padded : Bool) {low high : Nat} (hle : low ≤ high)
    (hhigh : high ≤ 255) :
    Denotes ignoreCase (octetRange padded low high) fun text =>
      ∃ v, low ≤ v ∧ v ≤ high ∧ (SegmentForm.octet padded).Writes v text := by
  unfold octetRange
  split
  next hfull =>
    obtain ⟨rfl, rfl⟩ := hfull
    apply (denotes_anyOctet ignoreCase padded).congr
    simp
  next hpart =>
    have hmem : ∀ {v}, v ∈ List.range' low (high + 1 - low) ↔ low ≤ v ∧ v ≤ high := by
      intro v
      rw [List.mem_range'_1]
      omega
    apply (Denotes.union (by simp; omega) fun v hv =>
      denotes_octet ignoreCase padded (by have := hmem.mp hv; omega)).congr
    intro text
    simp only [hmem, and_assoc]

theorem decimal_eq_cons (value : Nat) :
    ∃ c rest, c ≠ '(' ∧ Numeral.decimal value = c :: rest := by
  obtain ⟨c, rest, hcons⟩ := List.exists_cons_of_ne_nil (Numeral.decimal_ne_nil value)
  refine ⟨c, rest, ?_, hcons⟩
  intro hparen
  have hmem : c ∈ Numeral.decimal value := hcons ▸ List.mem_cons_self
  have hdigit := Numeral.isDigit_of_mem_decimal hmem
  rw [hparen] at hdigit
  exact nomatch hdigit

theorem octet_eq_cons (padded : Bool) (value : Nat) :
    ∃ c rest, c ≠ '(' ∧ octet padded value = c :: rest := by
  have hdecimal := decimal_eq_cons value
  unfold octet
  cases padded with
  | false => exact hdecimal
  | true =>
      rw [if_pos rfl]
      split
      · exact ⟨'0', _, by decide, rfl⟩
      · exact ⟨'0', _, by decide, rfl⟩
      · exact hdecimal

theorem octet_isFlat (padded : Bool) {value : Nat} (hvalue : value ≤ 255) :
    (octet padded value).IsFlat := by
  have hsingle := (denotes_octet false padded hvalue).isSingle
  obtain ⟨c, rest, hc, heq⟩ := octet_eq_cons padded value
  rw [heq] at hsingle ⊢
  exact hsingle.isFlat hc

section Octets

variable (padded : Bool) {low high : Nat}

/-- The fragments of the octets from `low` to `high`. -/
def octets (low high : Nat) : List Fragment :=
  (List.range' low (high + 1 - low)).map (octet padded)

theorem octetRange_eq_union (h : ¬ (low = 0 ∧ high = 255)) :
    octetRange padded low high = union (octets padded low high) :=
  if_neg h

theorem octets_ne_nil (hle : low ≤ high) : octets padded low high ≠ [] := by
  rw [octets, ne_eq, List.map_eq_nil_iff, List.range'_eq_nil_iff]
  omega

theorem octets_eq_nil (hlt : high < low) : octets padded low high = [] := by
  rw [octets, List.map_eq_nil_iff, List.range'_eq_nil_iff]
  omega

theorem octets_isFlat (hhigh : high ≤ 255) : ∀ part ∈ octets padded low high, part.IsFlat := by
  intro part hpart
  obtain ⟨value, hvalue, rfl⟩ := List.mem_map.mp hpart
  have := List.mem_range'_1.mp hvalue
  exact octet_isFlat padded (by omega)

theorem octets_append_append (hlt : low < high) :
    octets padded low low ++ octets padded (low + 1) (high - 1) ++ octets padded high high =
      octets padded low high := by
  obtain ⟨more, rfl⟩ := Nat.exists_eq_add_of_lt hlt
  have hfirst : low + 1 - low = 1 := by omega
  have hmiddle : low + more + 1 - 1 + 1 - (low + 1) = more := by omega
  have hlast : low + more + 1 + 1 - (low + more + 1) = 1 := by omega
  have hall : low + more + 1 + 1 - low = 1 + more + 1 := by omega
  have hplace : low + more + 1 = low + (1 + more) := by omega
  simp only [octets, ← List.map_append]
  rw [hfirst, hmiddle, hlast, hall, List.range'_append_1, hplace, List.range'_append_1]

/-- The octets of a range in groups: the first, those between, if there are any, and the last. -/
def octetGroups (low high : Nat) : List (List Fragment) :=
  [octets padded low low] ++
    (if low + 1 < high then [octets padded (low + 1) (high - 1)] else []) ++
    [octets padded high high]

theorem flatten_octetGroups (hlt : low < high) :
    (octetGroups padded low high).flatten = octets padded low high := by
  have hmiddle : (if low + 1 < high then [octets padded (low + 1) (high - 1)] else []).flatten =
      octets padded (low + 1) (high - 1) := by
    split
    next hgap => exact List.flatten_singleton
    next hgap => exact (octets_eq_nil padded (by omega)).symm
  rw [octetGroups, List.flatten_append, List.flatten_append, hmiddle, List.flatten_singleton,
    List.flatten_singleton, octets_append_append padded hlt]

theorem mem_octetGroups {group : List Fragment} (hlt : low < high)
    (hgroup : group ∈ octetGroups padded low high) :
    ∃ first last, first ≤ last ∧ last ≤ high ∧ group = octets padded first last := by
  simp only [octetGroups, List.mem_append, List.mem_singleton] at hgroup
  rcases hgroup with (rfl | hgroup) | rfl
  · exact ⟨low, low, Nat.le_refl low, Nat.le_of_lt hlt, rfl⟩
  · split at hgroup
    next hgap => exact ⟨low + 1, high - 1, by omega, by omega, List.mem_singleton.mp hgroup⟩
    next hgap => exact nomatch hgroup
  · exact ⟨high, high, Nat.le_refl high, Nat.le_refl high, rfl⟩

/-- A range of octets may be cut at its first and at its last octet. -/
theorem union_octetRange (hlt : low < high) (hhigh : high ≤ 255)
    (hopen : ¬ (low = 0 ∧ high = 255)) :
    union ([octetRange padded low low] ++
        (if low + 1 < high then [octetRange padded (low + 1) (high - 1)] else []) ++
        [octetRange padded high high]) = octetRange padded low high := by
  have hgroups : [octetRange padded low low] ++
      (if low + 1 < high then [octetRange padded (low + 1) (high - 1)] else []) ++
      [octetRange padded high high] = (octetGroups padded low high).map union := by
    rw [octetRange_eq_union padded (by omega), octetRange_eq_union padded (by omega),
      octetRange_eq_union padded (by omega), octetGroups]
    split <;> rfl
  rw [hgroups, union_map_union, flatten_octetGroups padded hlt, octetRange_eq_union padded hopen]
  · intro group hgroup
    obtain ⟨first, last, hle, -, rfl⟩ := mem_octetGroups padded hlt hgroup
    exact octets_ne_nil padded hle
  · intro group hgroup
    obtain ⟨first, last, -, hlast, rfl⟩ := mem_octetGroups padded hlt hgroup
    exact octets_isFlat padded (Nat.le_trans hlast hhigh)

end Octets

end NetPattern.Fragment

namespace NetPattern.SegmentForm

/-- The fragment of all segments is that of the widest range. -/
theorem any_eq_fragment (form : SegmentForm) : form.any = form.fragment 0 form.top := by
  cases form with
  | octet padded => cases padded <;> rfl
  | hextet => rfl

/-- The fragment of a range of segments takes their written forms. Only where case is ignored do
hextets match in either case. -/
theorem denotes_fragment (form : SegmentForm) {ignoreCase : Bool}
    (hcase : form = hextet → ignoreCase = true) {low high : Nat} (hle : low ≤ high)
    (hhigh : high ≤ form.top) :
    Fragment.Denotes ignoreCase (form.fragment low high) fun text =>
      ∃ v, low ≤ v ∧ v ≤ high ∧ form.Writes v text := by
  cases form with
  | octet padded => exact Fragment.denotes_octetRange ignoreCase padded hle hhigh
  | hextet =>
      rw [hcase rfl]
      apply (Fragment.denotes_hextetRange true hle (Nat.lt_succ_of_le hhigh)).congr
      intro text
      have hdigit : WritesDigit true =
          fun digit c => Numeral.hexDigit? c = some digit := by
        funext digit c
        simp [WritesDigit]
      unfold Fragment.DigitRows Writes
      rw [hdigit]
      constructor
      · intro h
        obtain ⟨_, ⟨v, hlow, hv, rfl⟩, hwrites⟩ := h
        exact ⟨v, hlow, hv, hwrites⟩
      · intro h
        obtain ⟨v, hlow, hv, hwrites⟩ := h
        exact ⟨_, ⟨v, hlow, hv, rfl⟩, hwrites⟩

/-- The written form of a segment is taken by the fragments of the ranges around the segment. -/
theorem matchesWhole_fragment_iff {form : SegmentForm} {ignoreCase : Bool}
    (hcase : form = hextet → ignoreCase = true) {low high value : Nat} {text : List Char}
    (hle : low ≤ high) (hhigh : high ≤ form.top) (hvalue : value ≤ form.top)
    (hwrites : form.Writes value text) :
    (form.fragment low high).matchesWhole ignoreCase text = true ↔
      low ≤ value ∧ value ≤ high := by
  rw [(form.denotes_fragment hcase hle hhigh).matches_iff]
  constructor
  · intro h
    obtain ⟨v, hlow, hv, hvwrites⟩ := h
    rw [hwrites.unique hvalue (Nat.le_trans hv hhigh) hvwrites]
    exact ⟨hlow, hv⟩
  · intro h
    exact ⟨value, h.1, h.2, hwrites⟩

/-- Different ranges of segments have different fragments. -/
theorem fragment_injective {form : SegmentForm} {low high low' high' : Nat} (hle : low ≤ high)
    (hhigh : high ≤ form.top) (hle' : low' ≤ high') (hhigh' : high' ≤ form.top)
    (heq : form.fragment low high = form.fragment low' high') : low = low' ∧ high = high' := by
  have hsame : ∀ value ≤ form.top, low ≤ value ∧ value ≤ high ↔ low' ≤ value ∧ value ≤ high' := by
    intro value hvalue
    obtain ⟨text, hwrites⟩ := form.exists_writes hvalue
    rw [← matchesWhole_fragment_iff (fun _ => rfl) hle hhigh hvalue hwrites, heq,
      matchesWhole_fragment_iff (fun _ => rfl) hle' hhigh' hvalue hwrites]
  have hlow := (hsame low (Nat.le_trans hle hhigh)).mp ⟨Nat.le_refl low, hle⟩
  have hhigh := (hsame high hhigh).mp ⟨hle, Nat.le_refl high⟩
  have hlow' := (hsame low' (Nat.le_trans hle' hhigh')).mpr ⟨Nat.le_refl low', hle'⟩
  have hhigh' := (hsame high' hhigh').mpr ⟨hle', Nat.le_refl high'⟩
  omega

end NetPattern.SegmentForm
