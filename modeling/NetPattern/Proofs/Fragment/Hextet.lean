import NetPattern.Proofs.Fragment.Digit

/-!
# Fragments of ranges of digits

The fragment of a range of rows of digits takes the rows of the range and nothing else, whatever
their width. So the fragment of a range of hextets takes the hextets of the range, written with
four digits.
-/

namespace NetPattern.Fragment

theorem denotes_digitText (ignoreCase : Bool) {ds : List Nat} (h : ∀ d ∈ ds, d < 16) :
    Denotes ignoreCase (digitText ds) (DigitRows ignoreCase fun row => row = ds) := by
  induction ds with
  | nil =>
      apply (denotes_nil ignoreCase).congr
      intro text
      constructor
      · intro htext
        subst htext
        exact ⟨[], rfl, .nil⟩
      · intro hrows
        obtain ⟨_, rfl, hwrites⟩ := hrows
        exact List.forall₂_nil_left_iff.mp hwrites
  | cons d ds ih =>
      obtain ⟨hd, hds⟩ := List.forall_mem_cons.mp h
      apply ((ih hds).cons_digitChar hd).congr
      exact DigitRows.congr fun row _ => by simp

theorem denotes_anyDigits (ignoreCase : Bool) (count : Nat) :
    Denotes ignoreCase (anyDigits count) (DigitRows ignoreCase fun row => row.length = count) := by
  have hrepeated : ∀ {quantifier : Quantifier}, quantifier.valid = true →
      quantifier.least = count → quantifier.most? = some count →
      Denotes ignoreCase (digitClass 0 15 ++ quantifier.render)
        (DigitRows ignoreCase fun row => row.length = count) := by
    intro quantifier hvalid hleast hmost
    apply (denotes_digits_repeated ignoreCase (by decide) (by decide) hvalid).congr
    apply DigitRows.congr
    intro row hrow
    rw [hleast]
    constructor
    · intro h
      exact Nat.le_antisymm (h.2.1 count hmost) h.1
    · intro h
      refine ⟨Nat.le_of_eq h.symm, ?_, fun d hd => ⟨Nat.zero_le d, Nat.le_of_lt_succ (hrow d hd)⟩⟩
      intro most heq
      rw [← Option.some.inj (hmost.symm.trans heq), h]
  match count with
  | 0 =>
      apply (denotes_digitText ignoreCase fun d (hd : d ∈ []) => nomatch hd).congr
      exact DigitRows.congr fun row _ => List.length_eq_zero_iff.symm
  | 1 =>
      have h := hrepeated (by rfl : Quantifier.once.valid = true) rfl rfl
      rwa [Quantifier.render, List.append_nil] at h
  | count + 2 => exact hrepeated (by rfl : (Quantifier.exactly (count + 2)).valid = true) rfl rfl

/-- The rows of digits of one width between two of them. -/
def RowsBetween (width : Nat) (low high row : List Nat) : Prop :=
  row.length = width ∧ low ≤ row ∧ row ≤ high

section Split

variable (width l h : Nat) (low high : List Nat)

/-- The least of the digits that may be followed by anything. -/
def firstFree : Nat :=
  if low.all (· = 0) then l else l + 1

/-- The largest of the digits that may be followed by anything. -/
def lastFree : Nat :=
  if high.all (· = 15) then h else h - 1

/-- The rows from the lower bound on that begin with its digit, and their fragment. -/
def lowestPart : Fragment × (List Nat → Prop) :=
  (l.digitChar :: digitRange width low (List.replicate width 15),
    fun row => ∃ rest, row = l :: rest ∧ RowsBetween width low (List.replicate width 15) rest)

/-- The rows that begin with a digit that may be followed by anything, and their fragment. -/
def freePart : Fragment × (List Nat → Prop) :=
  (digitClass (firstFree l low) (lastFree h high) ++ anyDigits width,
    fun row => ∃ d rest, row = d :: rest ∧ firstFree l low ≤ d ∧ d ≤ lastFree h high ∧
      rest.length = width)

/-- The rows up to the upper bound that begin with its digit, and their fragment. -/
def highestPart : Fragment × (List Nat → Prop) :=
  (h.digitChar :: digitRange width (List.replicate width 0) high,
    fun row => ∃ rest, row = h :: rest ∧ RowsBetween width (List.replicate width 0) high rest)

/-- The parts into which a range is split at a first digit in which its bounds differ. -/
def splitParts : List (Fragment × (List Nat → Prop)) :=
  (if low.all (· = 0) then [] else [lowestPart width l low]) ++
    (if firstFree l low ≤ lastFree h high then [freePart width l h low high] else []) ++
    (if high.all (· = 15) then [] else [highestPart width h high])

variable {width l h low high}

theorem mem_splitParts {part : Fragment × (List Nat → Prop)} :
    part ∈ splitParts width l h low high ↔
      low.all (· = 0) = false ∧ part = lowestPart width l low ∨
        firstFree l low ≤ lastFree h high ∧ part = freePart width l h low high ∨
        high.all (· = 15) = false ∧ part = highestPart width h high := by
  rw [splitParts, List.mem_append, List.mem_append, or_assoc]
  refine or_congr ?_ (or_congr ?_ ?_) <;> split <;> simp_all

theorem splitParts_ne_nil (hlt : l < h) : splitParts width l h low high ≠ [] := by
  -- Without a part for either bound, both boundary digits are free.
  intro hnil
  have hnone : ∀ part, ¬ part ∈ splitParts width l h low high := by simp [hnil]
  simp only [mem_splitParts, not_or, not_and] at hnone
  have hzero : low.all (· = 0) = true := by
    by_contra hopen
    exact (hnone _).1 (Bool.eq_false_iff.mpr hopen) rfl
  have htop : high.all (· = 15) = true := by
    by_contra hopen
    exact (hnone _).2.2 (Bool.eq_false_iff.mpr hopen) rfl
  refine (hnone _).2.1 ?_ rfl
  rw [firstFree, if_pos hzero, lastFree, if_pos htop]
  exact Nat.le_of_lt hlt

theorem digitRange_split (hne : l ≠ h)
    (hfull : ¬ ((l :: low).all (· = 0) = true ∧ (h :: high).all (· = 15) = true)) :
    digitRange (width + 1) (l :: low) (h :: high) =
      union ((splitParts width l h low high).map Prod.fst) := by
  rw [digitRange, if_neg (by simp [hne]), if_neg hfull, if_neg hne]
  simp only [splitParts, List.map_append, apply_ite (List.map Prod.fst), List.map_cons,
    List.map_nil, lowestPart, freePart, highestPart]
  rfl

end Split

theorem denotes_splitParts {ignoreCase : Bool} {width l h : Nat} {low high : List Nat}
    (hlt : l < h) (hh : h < 16)
    (hbelow : Denotes ignoreCase (digitRange width low (List.replicate width 15))
      (DigitRows ignoreCase (RowsBetween width low (List.replicate width 15))))
    (habove : Denotes ignoreCase (digitRange width (List.replicate width 0) high)
      (DigitRows ignoreCase (RowsBetween width (List.replicate width 0) high))) :
    ∀ part ∈ splitParts width l h low high,
      Denotes ignoreCase part.1 (DigitRows ignoreCase part.2) := by
  intro part hpart
  rcases mem_splitParts.mp hpart with ⟨-, rfl⟩ | ⟨hfree, rfl⟩ | ⟨-, rfl⟩
  · exact hbelow.cons_digitChar (by omega)
  · have hlast : lastFree h high < 16 := by
      unfold lastFree
      split <;> omega
    exact (denotes_anyDigits ignoreCase width).cons_digit hfree hlast
  · exact habove.cons_digitChar hh

/-- The rows between two bounds with different first digits are those of the three parts: the
boundary digits count as free where anything follows them. -/
theorem rowsBetween_split {width l h d : Nat} {low high rest : List Nat} (hlt : l < h)
    (hlow : low.length = width) (hhigh : high.length = width) (hlength : rest.length = width)
    (hrest : ∀ e ∈ rest, e < 16) :
    l :: low ≤ d :: rest ∧ d :: rest ≤ h :: high ↔
      (low.all (· = 0) = false ∧ d = l ∧ low ≤ rest) ∨
        (firstFree l low ≤ d ∧ d ≤ lastFree h high) ∨
        high.all (· = 15) = false ∧ d = h ∧ rest ≤ high := by
  have hopenlow : low.all (· = 0) = true → low ≤ rest := by
    intro hall
    rw [(all_eq_iff hlow).mp hall]
    exact replicate_zero_le hlength
  have hopenhigh : high.all (· = 15) = true → rest ≤ high := by
    intro hall
    rw [(all_eq_iff hhigh).mp hall]
    exact le_replicate hlength fun e he => Nat.le_of_lt_succ (hrest e he)
  rw [between_cons_iff hlt]
  unfold firstFree lastFree
  cases hzero : low.all (· = 0) <;> cases htop : high.all (· = 15) <;>
    simp only [hzero, htop, true_implies] at hopenlow hopenhigh <;>
    simp only [hopenlow, hopenhigh, Bool.false_eq_true, Bool.true_eq_false, if_true, if_false,
      true_and, false_and, and_true, false_or, or_false] <;> grind

theorem exists_splitPart_iff {width l h : Nat} {low high : List Nat} (hlt : l < h)
    (hlow : low.length = width) (hhigh : high.length = width) {row : List Nat}
    (hrow : ∀ d ∈ row, d < 16) :
    (∃ part ∈ splitParts width l h low high, part.2 row) ↔
      RowsBetween (width + 1) (l :: low) (h :: high) row := by
  constructor
  · intro hpart
    obtain ⟨part, hmem, hpart⟩ := hpart
    have hcons : ∃ d rest, row = d :: rest ∧ rest.length = width ∧
        (low.all (· = 0) = false ∧ d = l ∧ low ≤ rest ∨
          (firstFree l low ≤ d ∧ d ≤ lastFree h high) ∨
          high.all (· = 15) = false ∧ d = h ∧ rest ≤ high) := by
      rcases mem_splitParts.mp hmem with ⟨hopen, rfl⟩ | ⟨-, rfl⟩ | ⟨hopen, rfl⟩
      · obtain ⟨rest, rfl, hlength, hle, -⟩ := hpart
        exact ⟨l, rest, rfl, hlength, .inl ⟨hopen, rfl, hle⟩⟩
      · obtain ⟨d, rest, rfl, hfirst, hlast, hlength⟩ := hpart
        exact ⟨d, rest, rfl, hlength, .inr (.inl ⟨hfirst, hlast⟩)⟩
      · obtain ⟨rest, rfl, hlength, -, hle⟩ := hpart
        exact ⟨h, rest, rfl, hlength, .inr (.inr ⟨hopen, rfl, hle⟩)⟩
    obtain ⟨d, rest, rfl, hlength, hcases⟩ := hcons
    have hrest := fun e he => hrow e (List.mem_cons_of_mem d he)
    exact ⟨by simpa using hlength, (rowsBetween_split hlt hlow hhigh hlength hrest).mpr hcases⟩
  · intro hbetween
    obtain ⟨hlength, hbounds⟩ := hbetween
    obtain ⟨d, rest, rfl⟩ := List.exists_cons_of_length_eq_add_one hlength
    have hlength : rest.length = width := Nat.succ.inj hlength
    have hrest := fun e he => hrow e (List.mem_cons_of_mem d he)
    have htop : rest ≤ List.replicate width 15 :=
      le_replicate hlength fun e he => Nat.le_of_lt_succ (hrest e he)
    rcases (rowsBetween_split hlt hlow hhigh hlength hrest).mp hbounds with
      ⟨hopen, rfl, hle⟩ | ⟨hfirst, hlast⟩ | ⟨hopen, rfl, hle⟩
    · exact ⟨_, mem_splitParts.mpr (.inl ⟨hopen, rfl⟩), rest, rfl, hlength, hle, htop⟩
    · exact ⟨_, mem_splitParts.mpr (.inr (.inl ⟨hfirst.trans hlast, rfl⟩)), d, rest, rfl, hfirst,
        hlast, hlength⟩
    · exact ⟨_, mem_splitParts.mpr (.inr (.inr ⟨hopen, rfl⟩)), rest, rfl, hlength,
        replicate_zero_le hlength, hle⟩

/-- Where the bounds differ in the first digit, the union of the parts denotes the range. -/
theorem denotes_split {ignoreCase : Bool} {width l h : Nat} {low high : List Nat}
    (hlt : l < h) (hh : h < 16) (hlow : low.length = width) (hhigh : high.length = width)
    (hbelow : Denotes ignoreCase (digitRange width low (List.replicate width 15))
      (DigitRows ignoreCase (RowsBetween width low (List.replicate width 15))))
    (habove : Denotes ignoreCase (digitRange width (List.replicate width 0) high)
      (DigitRows ignoreCase (RowsBetween width (List.replicate width 0) high))) :
    Denotes ignoreCase (union ((splitParts width l h low high).map Prod.fst))
      (DigitRows ignoreCase (RowsBetween (width + 1) (l :: low) (h :: high))) := by
  have hparts := denotes_splitParts hlt hh hbelow habove
  apply (Denotes.union_digits (splitParts_ne_nil hlt) hparts).congr
  exact DigitRows.congr fun row hrow => exists_splitPart_iff hlt hlow hhigh hrow

theorem rowsBetween_self_iff {width : Nat} {bound row : List Nat} (h : bound.length = width) :
    row = bound ↔ RowsBetween width bound bound row := by
  constructor
  · intro heq
    subst heq
    exact ⟨h, le_refl _, le_refl _⟩
  · intro hbetween
    exact le_antisymm hbetween.2.2 hbetween.2.1

theorem rowsBetween_cons_iff {width d : Nat} {low high row : List Nat} :
    (∃ rest, row = d :: rest ∧ RowsBetween width low high rest) ↔
      RowsBetween (width + 1) (d :: low) (d :: high) row := by
  constructor
  · intro h
    obtain ⟨rest, rfl, hlength, hbounds⟩ := h
    exact ⟨by simpa using hlength, between_cons_self_iff.mpr ⟨rfl, hbounds⟩⟩
  · intro h
    obtain ⟨hlength, hbounds⟩ := h
    obtain ⟨e, rest, rfl⟩ := List.exists_cons_of_length_eq_add_one hlength
    obtain ⟨rfl, hrests⟩ := between_cons_self_iff.mp hbounds
    exact ⟨rest, rfl, Nat.succ.inj hlength, hrests⟩

theorem rowsBetween_full_iff {width : Nat} {row : List Nat} (hrow : ∀ d ∈ row, d < 16) :
    row.length = width ↔
      RowsBetween width (List.replicate width 0) (List.replicate width 15) row := by
  refine ⟨fun hlength => ⟨hlength, replicate_zero_le hlength, ?_⟩, And.left⟩
  exact le_replicate hlength fun d hd => Nat.le_of_lt_succ (hrow d hd)

/-- The fragment of a range of rows of digits denotes the rows of the range. -/
theorem denotes_digitRange (ignoreCase : Bool) {width : Nat} {low high : List Nat}
    (hlow : low.length = width) (hhigh : high.length = width) (hlowlt : ∀ d ∈ low, d < 16)
    (hhighlt : ∀ d ∈ high, d < 16) (hle : low ≤ high) :
    Denotes ignoreCase (digitRange width low high)
      (DigitRows ignoreCase (RowsBetween width low high)) := by
  -- The bounds change in the recursion: behind a boundary digit the other one is free.
  induction width generalizing low high with
  | zero =>
      obtain rfl := List.length_eq_zero_iff.mp hlow
      obtain rfl := List.length_eq_zero_iff.mp hhigh
      apply (denotes_digitText ignoreCase hlowlt).congr
      exact DigitRows.congr fun row _ => rowsBetween_self_iff rfl
  | succ width ih =>
      obtain ⟨l, lows, rfl⟩ := List.exists_cons_of_length_eq_add_one hlow
      obtain ⟨h, highs, rfl⟩ := List.exists_cons_of_length_eq_add_one hhigh
      have hlows : lows.length = width := Nat.succ.inj hlow
      have hhighs : highs.length = width := Nat.succ.inj hhigh
      obtain ⟨hl, hlowslt⟩ := List.forall_mem_cons.mp hlowlt
      obtain ⟨hh, hhighslt⟩ := List.forall_mem_cons.mp hhighlt
      by_cases hsame : l :: lows = h :: highs
      · rw [digitRange, if_pos hsame, ← hsame]
        apply (denotes_digitText ignoreCase hlowlt).congr
        exact DigitRows.congr fun row _ => rowsBetween_self_iff hlow
      by_cases hfull : (l :: lows).all (· = 0) = true ∧ (h :: highs).all (· = 15) = true
      · rw [digitRange, if_neg hsame, if_pos hfull, (all_eq_iff hlow).mp hfull.1,
          (all_eq_iff hhigh).mp hfull.2]
        apply (denotes_anyDigits ignoreCase (width + 1)).congr
        exact DigitRows.congr fun row hrow => rowsBetween_full_iff hrow
      rcases cons_le_cons_iff.mp hle with hlt | ⟨heq, hrests⟩
      · have hbelow := ih hlows List.length_replicate hlowslt
          (fun d hd => by rw [List.eq_of_mem_replicate hd]; decide)
          (le_replicate hlows fun d hd => Nat.le_of_lt_succ (hlowslt d hd))
        have habove := ih List.length_replicate hhighs
          (fun d hd => by rw [List.eq_of_mem_replicate hd]; decide) hhighslt
          (replicate_zero_le hhighs)
        rw [digitRange_split (Nat.ne_of_lt hlt) hfull]
        exact denotes_split hlt hh hlows hhighs hbelow habove
      · rw [digitRange, if_neg hsame, if_neg hfull, if_pos heq, ← heq]
        apply ((ih hlows hhighs hlowslt hhighslt hrests).cons_digitChar hl).congr
        exact DigitRows.congr fun row _ => rowsBetween_cons_iff

/-- The fragment of a range of hextets denotes their rows of four digits. -/
theorem denotes_hextetRange (ignoreCase : Bool) {low high : Nat} (hle : low ≤ high)
    (hhigh : high < 65536) :
    Denotes ignoreCase (hextetRange low high)
      (DigitRows ignoreCase fun row =>
        ∃ v, low ≤ v ∧ v ≤ high ∧ row = Positional.digits 16 4 v) := by
  have hsize : 65536 = 16 ^ 4 := rfl
  rw [hsize] at hhigh
  have hlow := Nat.lt_of_le_of_lt hle hhigh
  have hdigits : ∀ v, ∀ d ∈ Positional.digits 16 4 v, d < 16 :=
    fun v d => Positional.digits_lt (by decide)
  apply (denotes_digitRange ignoreCase (Positional.length_digits 16 4 low)
    (Positional.length_digits 16 4 high) (hdigits low) (hdigits high)
    ((Positional.digits_le_digits_iff hlow hhigh).mpr hle)).congr
  apply DigitRows.congr
  intro row hrow
  constructor
  · intro hbetween
    obtain ⟨hlength, hbounds⟩ := hbetween
    have hback : Positional.digits 16 4 (Positional.value 16 row) = row := by
      rw [← hlength]
      exact Positional.digits_value hrow
    have hvalue : Positional.value 16 row < 16 ^ 4 := by
      rw [← hlength]
      exact Positional.value_lt hrow
    rw [← hback, Positional.digits_le_digits_iff hlow hvalue,
      Positional.digits_le_digits_iff hvalue hhigh] at hbounds
    exact ⟨_, hbounds.1, hbounds.2, hback.symm⟩
  · intro hexists
    obtain ⟨v, hlowv, hhighv, rfl⟩ := hexists
    have hv := Nat.lt_of_le_of_lt hhighv hhigh
    exact ⟨Positional.length_digits 16 4 v, (Positional.digits_le_digits_iff hlow hv).mpr hlowv,
      (Positional.digits_le_digits_iff hv hhigh).mpr hhighv⟩

/-- Where case counts, the fragment of a range of rows of digits takes the rows of the range in
lower case, whatever their width, and that of a range of hextets takes the hextets of the range,
written with four digits in lower case. Both stand in a row without a group around them. -/
theorem digit_ranges_are_exact :
    (∀ (width : Nat) (low high : List Nat), low.length = width → high.length = width →
      (∀ d ∈ low, d < 16) → (∀ d ∈ high, d < 16) → low ≤ high →
        Denotes false (digitRange width low high) fun text =>
          ∃ ds, RowsBetween width low high ds ∧ (∀ d ∈ ds, d < 16) ∧
            text = ds.map Nat.digitChar) ∧
      ∀ low high : Nat, low ≤ high → high < 65536 →
        Denotes false (hextetRange low high) fun text =>
          ∃ v, low ≤ v ∧ v ≤ high ∧ text = (Positional.digits 16 4 v).map Nat.digitChar := by
  constructor
  · intro width low high hlow hhigh hlowlt hhighlt hle
    exact (denotes_digitRange false hlow hhigh hlowlt hhighlt hle).congr
      fun _ => digitRows_iff_exists_map
  · intro low high hle hhigh
    apply (denotes_hextetRange false hle hhigh).congr
    intro text
    rw [digitRows_iff_exists_map]
    constructor
    · intro h
      obtain ⟨_, ⟨v, hlow, hv, rfl⟩, -, htext⟩ := h
      exact ⟨v, hlow, hv, htext⟩
    · intro h
      obtain ⟨v, hlow, hv, htext⟩ := h
      exact ⟨_, ⟨v, hlow, hv, rfl⟩, fun _ => Positional.digits_lt (by decide), htext⟩

/-- Bounds next to each other that share no digit, in a width that is not that of a hextet. -/
theorem digit_ranges_are_exact_adjacent :
    matchesWhole false (digitRange 3 [0, 15, 15] [1, 0, 0]) "0ff".toList = true ∧
      matchesWhole false (digitRange 3 [0, 15, 15] [1, 0, 0]) "100".toList = true ∧
      matchesWhole false (hextetRange 0x00ff 0x0100) "00ff".toList = true := by
  obtain ⟨hrows, hhextets⟩ := digit_ranges_are_exact
  have hbounds := hrows 3 [0, 15, 15] [1, 0, 0] rfl rfl (by decide) (by decide) (by decide)
  refine ⟨(hbounds.matches_iff _).mpr ⟨[0, 15, 15], ?_, by decide, by decide⟩,
    (hbounds.matches_iff _).mpr ⟨[1, 0, 0], ?_, by decide, by decide⟩,
    ((hhextets 0x00ff 0x0100 (by decide) (by decide)).matches_iff _).mpr
      ⟨0x00ff, by decide, by decide, by decide⟩⟩
  · exact ⟨rfl, by decide, by decide⟩
  · exact ⟨rfl, by decide, by decide⟩

end NetPattern.Fragment
