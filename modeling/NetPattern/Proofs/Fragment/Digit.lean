import NetPattern.Fragment.Hextet
import NetPattern.Proofs.Fragment.Language
import NetPattern.Proofs.Numeral

/-!
# Digits in fragments

What the digits of a fragment take: a single digit its character, in either case where case is
ignored, and a class of digits the characters of all digits between its ends, the step from the
decimal digits to the letters included.
-/

namespace NetPattern

theorem toNat_toLower (c : Char) :
    c.toLower.toNat = if 65 ≤ c.toNat ∧ c.toNat ≤ 90 then c.toNat + 32 else c.toNat := by
  have hA : 'A'.val.toNat = 65 := rfl
  have hZ : 'Z'.val.toNat = 90 := rfl
  have hstep : ('a'.val - 'A'.val).toNat = 32 := rfl
  have hval : c.val.toNat = c.toNat := rfl
  unfold Char.toLower
  simp only [ge_iff_le, UInt32.le_iff_toNat_le, hA, hZ, hval]
  split
  next h =>
    have hadd : (c.val + ('a'.val - 'A'.val)).toNat = c.toNat + 32 := by
      rw [UInt32.toNat_add, hstep, hval]
      omega
    exact hadd
  next h => rfl

theorem toNat_toUpper (c : Char) :
    c.toUpper.toNat = if 97 ≤ c.toNat ∧ c.toNat ≤ 122 then c.toNat - 32 else c.toNat := by
  have ha : 'a'.val.toNat = 97 := rfl
  have hz : 'z'.val.toNat = 122 := rfl
  have hstep : ('A'.val - 'a'.val).toNat = 2 ^ 32 - 32 := rfl
  have hval : c.val.toNat = c.toNat := rfl
  unfold Char.toUpper
  simp only [UInt32.le_iff_toNat_le, ha, hz, hval]
  split
  next h =>
    have hadd : (c.val + ('A'.val - 'a'.val)).toNat = c.toNat - 32 := by
      rw [UInt32.toNat_add, hstep, hval]
      omega
    exact hadd
  next h => rfl

/-- Whether a character is the digit of a number: the one in lower case, or either where case is
ignored. -/
def WritesDigit (ignoreCase : Bool) (digit : Nat) (c : Char) : Prop :=
  Numeral.hexDigit? c = some digit ∧ (ignoreCase = false → c = digit.digitChar)

theorem WritesDigit.lt {ignoreCase : Bool} {digit : Nat} {c : Char}
    (h : WritesDigit ignoreCase digit c) : digit < 16 :=
  Numeral.lt_of_hexDigit? h.1

/-- Decimal digits have one case only. -/
theorem writesDigit_iff_of_lt_ten {ignoreCase : Bool} {digit : Nat} {c : Char}
    (h : digit < 10) : WritesDigit ignoreCase digit c ↔ c = digit.digitChar := by
  constructor
  · intro hwrites
    rcases Numeral.hexDigit?_eq_some_iff.mp hwrites.1 with hc | hc
    · apply Char.toNat_inj.mp
      rw [Nat.toNat_digitChar_of_lt_ten h, hc.2]
    · omega
  · intro hc
    subst hc
    exact ⟨Numeral.hexDigit?_digitChar (by omega), fun _ => rfl⟩

theorem mem_caseForms {ignoreCase : Bool} {c d : Char} :
    d ∈ caseForms ignoreCase c ↔
      c = d ∨ ignoreCase = true ∧ (c.toLower = d ∨ c.toUpper = d) := by
  cases ignoreCase <;> simp [caseForms, eq_comm]

theorem digitChar_mem_caseForms_iff {ignoreCase : Bool} {digit : Nat} {c : Char}
    (h : digit < 16) :
    digit.digitChar ∈ caseForms ignoreCase c ↔ WritesDigit ignoreCase digit c := by
  rw [mem_caseForms, WritesDigit, Numeral.hexDigit?_eq_some_iff]
  simp only [← Char.toNat_inj, toNat_toLower, toNat_toUpper, Numeral.toNat_digitChar h]
  cases ignoreCase
  · simp only [Bool.false_eq_true, false_and, or_false, forall_const]
    split <;> omega
  · simp only [true_and, Bool.true_eq_false, false_implies, and_true]
    split <;> split <;> split <;> omega

/-- A character before the letters has no other case. -/
theorem mem_caseForms_iff_of_lt {ignoreCase : Bool} {c d : Char} (h : d.toNat < 65) :
    d ∈ caseForms ignoreCase c ↔ c = d := by
  rw [mem_caseForms]
  simp only [← Char.toNat_inj, toNat_toLower, toNat_toUpper]
  constructor
  · intro hforms
    rcases hforms with hsame | ⟨-, hlower | hupper⟩
    · exact hsame
    · split at hlower <;> omega
    · split at hupper <;> omega
  · exact .inl

namespace Bracket

/-- A character of a class that starts no span stands for itself. -/
theorem holds_cons {c single : Char} {rest : List Char} (h : rest.head? ≠ some '-') :
    holds c (single :: rest) = (single == c || holds c rest) := by
  cases rest with
  | nil => rfl
  | cons next more =>
      have hnext : next ≠ '-' := fun heq => h (heq ▸ rfl)
      cases more <;> simp [holds, hnext]

end Bracket

namespace Fragment

/-- The characters between two digits of one kind are the digits between them. -/
theorem between_digitChar_iff {low high : Nat} (hblock : high < 10 ∨ 10 ≤ low ∧ high < 16)
    (hle : low ≤ high) (c : Char) :
    low.digitChar ≤ c ∧ c ≤ high.digitChar ↔
      ∃ d, low ≤ d ∧ d ≤ high ∧ c = d.digitChar := by
  rw [Numeral.char_le_iff, Numeral.char_le_iff, Numeral.toNat_digitChar (by omega),
    Numeral.toNat_digitChar (by omega)]
  constructor
  · intro h
    rcases hblock with hdecimal | ⟨hletter, hhigh⟩
    · rw [if_pos (by omega), if_pos hdecimal] at h
      refine ⟨c.toNat - 48, by omega, by omega, Char.toNat_inj.mp ?_⟩
      rw [Numeral.toNat_digitChar (by omega), if_pos (by omega)]
      omega
    · rw [if_neg (by omega), if_neg (by omega)] at h
      refine ⟨c.toNat - 87, by omega, by omega, Char.toNat_inj.mp ?_⟩
      rw [Numeral.toNat_digitChar (by omega), if_neg (by omega)]
      omega
  · intro h
    obtain ⟨d, hlow, hhigh, rfl⟩ := h
    rw [Numeral.toNat_digitChar (by omega)]
    split <;> split <;> split <;> omega

theorem digitChar_ne_dash (d : Nat) : d.digitChar ≠ '-' :=
  Nat.digitChar_ne _ (by decide)

theorem holds_digitSpan {low high : Nat} (hblock : high < 10 ∨ 10 ≤ low ∧ high < 16)
    (hle : low ≤ high) (c : Char) {rest : List Char} (hrest : rest.head? ≠ some '-') :
    Bracket.holds c (digitSpan low high ++ rest) = true ↔
      (∃ d, low ≤ d ∧ d ≤ high ∧ c = d.digitChar) ∨ Bracket.holds c rest = true := by
  unfold digitSpan
  split
  next hzero =>
    obtain rfl : low = high := by omega
    rw [List.singleton_append, Bracket.holds_cons hrest, Bool.or_eq_true, beq_iff_eq]
    apply or_congr_left
    exact ⟨fun h => ⟨low, hle, hle, h.symm⟩, fun ⟨d, hlow, hhigh, hc⟩ => by
      rw [hc, Nat.le_antisymm hlow hhigh]⟩
  next hone =>
    obtain rfl : high = low + 1 := by omega
    have hnext : ((low + 1).digitChar :: rest).head? ≠ some '-' :=
      fun h => digitChar_ne_dash (low + 1) (Option.some.inj h)
    rw [List.cons_append, List.singleton_append, Bracket.holds_cons hnext,
      Bracket.holds_cons hrest, Bool.or_eq_true, Bool.or_eq_true, beq_iff_eq, beq_iff_eq,
      ← or_assoc]
    apply or_congr_left
    constructor
    · intro h
      rcases h with rfl | rfl
      · exact ⟨low, by omega, by omega, rfl⟩
      · exact ⟨low + 1, by omega, by omega, rfl⟩
    · intro h
      obtain ⟨d, hlow, hhigh, rfl⟩ := h
      rcases Nat.lt_or_eq_of_le hhigh with hlt | rfl
      · exact .inl (by rw [Nat.le_antisymm hlow (Nat.lt_succ_iff.mp hlt)])
      · exact .inr rfl
  next =>
    rw [List.cons_append, List.cons_append, List.singleton_append, Bracket.holds, Bool.or_eq_true,
      Bool.and_eq_true, decide_eq_true_eq, decide_eq_true_eq, between_digitChar_iff hblock hle]

theorem holds_lone_digitSpan {low high : Nat} (hblock : high < 10 ∨ 10 ≤ low ∧ high < 16)
    (hle : low ≤ high) (c : Char) :
    Bracket.holds c (digitSpan low high) = true ↔ ∃ d, low ≤ d ∧ d ≤ high ∧ c = d.digitChar := by
  have h := holds_digitSpan hblock hle c (show ([] : List Char).head? ≠ some '-' by simp)
  rw [List.append_nil] at h
  rw [h]
  exact or_iff_left (by simp [Bracket.holds])

theorem head?_digitSpan (low high : Nat) : (digitSpan low high).head? = some low.digitChar := by
  unfold digitSpan
  split <;> rfl

/-- What stands between the brackets of a class of digits. -/
def digitMembers (low high : Nat) : List Char :=
  (if low ≤ 9 then digitSpan low (min high 9) else []) ++
    (if 10 ≤ high then digitSpan (max low 10) high else [])

theorem holds_digitMembers {low high : Nat} (hle : low ≤ high) (hhigh : high < 16) (c : Char) :
    Bracket.holds c (digitMembers low high) = true ↔
      ∃ d, low ≤ d ∧ d ≤ high ∧ c = d.digitChar := by
  unfold digitMembers
  by_cases hdecimal : low ≤ 9
  · by_cases hletter : 10 ≤ high
    · -- Both spans stand side by side, and no dash between them makes them one.
      have hdash : (digitSpan 10 high).head? ≠ some '-' := by
        rw [head?_digitSpan]
        exact fun h => digitChar_ne_dash 10 (Option.some.inj h)
      rw [if_pos hdecimal, if_pos hletter, Nat.min_eq_right (by omega), Nat.max_eq_right (by omega),
        holds_digitSpan (.inl (by omega)) hdecimal c hdash,
        holds_lone_digitSpan (.inr ⟨Nat.le_refl 10, hhigh⟩) hletter]
      constructor
      · intro h
        rcases h with ⟨d, hlow, hnine, hc⟩ | ⟨d, hten, hd, hc⟩
        · exact ⟨d, hlow, by omega, hc⟩
        · exact ⟨d, by omega, hd, hc⟩
      · intro h
        obtain ⟨d, hlow, hd, hc⟩ := h
        by_cases hnine : d ≤ 9
        · exact .inl ⟨d, hlow, hnine, hc⟩
        · exact .inr ⟨d, by omega, hd, hc⟩
    · rw [if_pos hdecimal, if_neg hletter, List.append_nil, Nat.min_eq_left (by omega),
        holds_lone_digitSpan (.inl (by omega)) hle]
  · rw [if_neg hdecimal, if_pos (by omega), List.nil_append, Nat.max_eq_left (by omega),
      holds_lone_digitSpan (.inr ⟨by omega, hhigh⟩) hle]

theorem head?_digitMembers {low high : Nat} (hle : low ≤ high) :
    (digitMembers low high).head? = some low.digitChar := by
  unfold digitMembers
  by_cases hdecimal : low ≤ 9
  · rw [if_pos hdecimal, List.head?_append, head?_digitSpan]
    rfl
  · rw [if_neg hdecimal, if_pos (by omega), List.nil_append, head?_digitSpan,
      Nat.max_eq_left (by omega)]

/-- The symbol of the digits between two digits. -/
def digitSymbol (low high : Nat) : Symbol :=
  if low = high then .literal low.digitChar else .bracket (digitMembers low high)

theorem digitSymbol_render (low high : Nat) :
    (digitSymbol low high).render = digitClass low high := by
  unfold digitSymbol digitClass
  split <;> simp [Symbol.render, digitMembers]

theorem digitSymbol_valid {low high : Nat} (hle : low ≤ high) (hhigh : high < 16) :
    (digitSymbol low high).valid = true := by
  have hall : ∀ low high : Fin 16, low ≤ high → (digitSymbol low high).valid = true := by
    decide
  exact hall ⟨low, by omega⟩ ⟨high, hhigh⟩ hle

/-- A class of digits accepts the digits between its ends. -/
theorem digitSymbol_accepts {ignoreCase : Bool} {low high : Nat} (hle : low ≤ high)
    (hhigh : high < 16) (c : Char) :
    (digitSymbol low high).accepts ignoreCase c = true ↔
      ∃ d, low ≤ d ∧ d ≤ high ∧ WritesDigit ignoreCase d c := by
  unfold digitSymbol
  split
  next heq =>
    subst heq
    rw [Symbol.accepts, List.contains_iff_mem, digitChar_mem_caseForms_iff hhigh]
    exact ⟨fun h => ⟨low, hle, hle, h⟩, fun ⟨d, hlow, hd, h⟩ => Nat.le_antisymm hd hlow ▸ h⟩
  next hne =>
    -- The class starts with a digit, so it is not one of the excluding classes.
    have hhead := head?_digitMembers hle
    have hcaret : low.digitChar ≠ '^' := Nat.digitChar_ne _ (by decide)
    have hmembers : Bracket.members (digitMembers low high) = digitMembers low high := by
      unfold Bracket.members
      split
      next rest heq =>
        rw [heq] at hhead
        exact absurd (Option.some.inj hhead).symm hcaret
      · rfl
    have hplain : ((digitMembers low high).head? == some '^') = false := by
      rw [hhead]
      exact beq_false_of_ne fun h => hcaret (Option.some.inj h)
    rw [Symbol.accepts, Bracket.accepts, hmembers, hplain, Bool.bne_false, List.any_eq_true]
    simp only [holds_digitMembers hle hhigh]
    constructor
    · intro h
      obtain ⟨_, hform, d, hlow, hd, rfl⟩ := h
      exact ⟨d, hlow, hd, (digitChar_mem_caseForms_iff (by omega)).mp hform⟩
    · intro h
      obtain ⟨d, hlow, hd, hc⟩ := h
      exact ⟨_, (digitChar_mem_caseForms_iff (by omega)).mpr hc, d, hlow, hd, rfl⟩

/-- The texts of the rows of digits that satisfy a condition. -/
def DigitRows (ignoreCase : Bool) (rows : List Nat → Prop) (text : List Char) : Prop :=
  ∃ ds, rows ds ∧ List.Forall₂ (WritesDigit ignoreCase) ds text

theorem denotes_digitClass (ignoreCase : Bool) {low high : Nat} (hle : low ≤ high)
    (hhigh : high < 16) :
    Denotes ignoreCase (digitClass low high)
      (DigitRows ignoreCase fun ds => ∃ d, ds = [d] ∧ low ≤ d ∧ d ≤ high) := by
  rw [← digitSymbol_render]
  apply (denotes_symbol ignoreCase (digitSymbol_valid hle hhigh)).congr
  intro text
  simp only [digitSymbol_accepts hle hhigh]
  constructor
  · intro h
    obtain ⟨c, rfl, d, hlow, hd, hc⟩ := h
    exact ⟨[d], ⟨d, rfl, hlow, hd⟩, .cons hc .nil⟩
  · intro h
    obtain ⟨_, ⟨d, rfl, hlow, hd⟩, hwrites⟩ := h
    cases hwrites with
    | cons hc hrest =>
        cases hrest
        exact ⟨_, rfl, d, hlow, hd, hc⟩

theorem lt_of_writesDigits {ignoreCase : Bool} {ds : List Nat} {text : List Char}
    (h : List.Forall₂ (WritesDigit ignoreCase) ds text) : ∀ d ∈ ds, d < 16 := by
  induction h with
  | nil => simp
  | cons hdigit _ ih => exact List.forall_mem_cons.mpr ⟨hdigit.lt, ih⟩

/-- Where case counts, a row of digits is written with the characters of the digits. -/
theorem forall₂_writesDigit_iff {ds : List Nat} {text : List Char} :
    List.Forall₂ (WritesDigit false) ds text ↔
      (∀ d ∈ ds, d < 16) ∧ text = ds.map Nat.digitChar := by
  constructor
  · intro h
    refine ⟨lt_of_writesDigits h, ?_⟩
    induction h with
    | nil => rfl
    | cons hdigit _ ih => rw [hdigit.2 rfl, ih, List.map_cons]
  · intro h
    obtain ⟨hlt, rfl⟩ := h
    rw [List.forall₂_map_right_iff, List.forall₂_same]
    exact fun d hd => ⟨Numeral.hexDigit?_digitChar (hlt d hd), fun _ => rfl⟩

theorem digitRows_iff_exists_map {rows : List Nat → Prop} {text : List Char} :
    DigitRows false rows text ↔
      ∃ ds, rows ds ∧ (∀ d ∈ ds, d < 16) ∧ text = ds.map Nat.digitChar :=
  exists_congr fun _ => and_congr_right fun _ => forall₂_writesDigit_iff

theorem DigitRows.congr {ignoreCase : Bool} {first second : List Nat → Prop}
    (h : ∀ ds, (∀ d ∈ ds, d < 16) → (first ds ↔ second ds)) (text : List Char) :
    DigitRows ignoreCase first text ↔ DigitRows ignoreCase second text :=
  exists_congr fun ds => and_congr_left fun hwrites => h ds (lt_of_writesDigits hwrites)

/-- Rows of digits side by side are written by texts side by side. -/
theorem Denotes.append_digits {ignoreCase : Bool} {first second : Fragment}
    {one other : List Nat → Prop} (hfirst : Denotes ignoreCase first (DigitRows ignoreCase one))
    (hsecond : Denotes ignoreCase second (DigitRows ignoreCase other)) :
    Denotes ignoreCase (first ++ second)
      (DigitRows ignoreCase fun ds => ∃ ahead behind, ds = ahead ++ behind ∧ one ahead ∧
        other behind) := by
  apply (hfirst.append hsecond).congr
  intro text
  constructor
  · intro h
    obtain ⟨piece, more, rfl, ⟨ahead, hahead, hpiece⟩, behind, hbehind, hmore⟩ := h
    exact ⟨ahead ++ behind, ⟨ahead, behind, rfl, hahead, hbehind⟩,
      List.rel_append hpiece hmore⟩
  · intro h
    obtain ⟨_, ⟨ahead, behind, rfl, hahead, hbehind⟩, hwrites⟩ := h
    refine ⟨text.take ahead.length, text.drop ahead.length, (List.take_append_drop _ _).symm,
      ⟨ahead, hahead, ?_⟩, behind, hbehind, ?_⟩
    · simpa using List.forall₂_take ahead.length hwrites
    · simpa using List.forall₂_drop ahead.length hwrites

/-- A class of digits goes in front of a row of digits. -/
theorem Denotes.cons_digit {ignoreCase : Bool} {low high : Nat} (hle : low ≤ high)
    (hhigh : high < 16) {fragment : Fragment} {rows : List Nat → Prop}
    (h : Denotes ignoreCase fragment (DigitRows ignoreCase rows)) :
    Denotes ignoreCase (digitClass low high ++ fragment)
      (DigitRows ignoreCase fun row =>
        ∃ d rest, row = d :: rest ∧ low ≤ d ∧ d ≤ high ∧ rows rest) := by
  apply ((denotes_digitClass ignoreCase hle hhigh).append_digits h).congr
  apply DigitRows.congr
  intro row _
  constructor
  · intro hrow
    obtain ⟨_, rest, rfl, ⟨d, rfl, hlow, hd⟩, hrest⟩ := hrow
    exact ⟨d, rest, rfl, hlow, hd, hrest⟩
  · intro hrow
    obtain ⟨d, rest, rfl, hlow, hd, hrest⟩ := hrow
    exact ⟨[d], rest, rfl, ⟨d, rfl, hlow, hd⟩, hrest⟩

theorem Denotes.cons_digitChar {ignoreCase : Bool} {d : Nat} (hd : d < 16) {fragment : Fragment}
    {rows : List Nat → Prop} (h : Denotes ignoreCase fragment (DigitRows ignoreCase rows)) :
    Denotes ignoreCase (d.digitChar :: fragment)
      (DigitRows ignoreCase fun row => ∃ rest, row = d :: rest ∧ rows rest) := by
  have hone := h.cons_digit (Nat.le_refl d) hd
  rw [digitClass, if_pos rfl, List.singleton_append] at hone
  apply hone.congr
  apply DigitRows.congr
  intro row _
  constructor
  · intro hrow
    obtain ⟨e, rest, rfl, hle, hge, hrest⟩ := hrow
    exact ⟨rest, by rw [Nat.le_antisymm hge hle], hrest⟩
  · intro hrow
    obtain ⟨rest, rfl, hrest⟩ := hrow
    exact ⟨d, rest, rfl, Nat.le_refl d, Nat.le_refl d, hrest⟩

/-- A union of fragments for rows of digits takes the rows of all of them. -/
theorem Denotes.union_digits {ignoreCase : Bool} {parts : List (Fragment × (List Nat → Prop))}
    (hne : parts ≠ [])
    (h : ∀ part ∈ parts, Denotes ignoreCase part.1 (DigitRows ignoreCase part.2)) :
    Denotes ignoreCase (Fragment.union (parts.map Prod.fst))
      (DigitRows ignoreCase fun row => ∃ part ∈ parts, part.2 row) := by
  apply (Denotes.union hne h).congr
  intro text
  constructor
  · intro hexists
    obtain ⟨part, hmem, row, hrow, hwrites⟩ := hexists
    exact ⟨row, ⟨part, hmem, hrow⟩, hwrites⟩
  · intro hrows
    obtain ⟨row, ⟨part, hmem, hrow⟩, hwrites⟩ := hrows
    exact ⟨part, hmem, row, hrow, hwrites⟩

/-- As many digits between two digits as a quantifier allows. -/
theorem denotes_digits_repeated (ignoreCase : Bool) {low high : Nat} (hle : low ≤ high)
    (hhigh : high < 16) {quantifier : Quantifier} (hquantifier : quantifier.valid = true) :
    Denotes ignoreCase (digitClass low high ++ quantifier.render)
      (DigitRows ignoreCase fun ds => quantifier.least ≤ ds.length ∧
        (∀ most, quantifier.most? = some most → ds.length ≤ most) ∧
        ∀ d ∈ ds, low ≤ d ∧ d ≤ high) := by
  rw [← digitSymbol_render]
  apply (denotes_repeated ignoreCase (digitSymbol_valid hle hhigh) hquantifier).congr
  intro text
  simp only [digitSymbol_accepts hle hhigh]
  have hrows : (∀ c ∈ text, ∃ d, low ≤ d ∧ d ≤ high ∧ WritesDigit ignoreCase d c) ↔
      DigitRows ignoreCase (fun ds => ∀ d ∈ ds, low ≤ d ∧ d ≤ high) text := by
    induction text with
    | nil => exact ⟨fun _ => ⟨[], by simp, .nil⟩, by simp⟩
    | cons c text ih =>
        rw [List.forall_mem_cons, ih]
        constructor
        · intro h
          obtain ⟨⟨d, hlow, hd, hc⟩, ds, hds, hwrites⟩ := h
          exact ⟨d :: ds, List.forall_mem_cons.mpr ⟨⟨hlow, hd⟩, hds⟩, .cons hc hwrites⟩
        · intro h
          obtain ⟨_, hds, hwrites⟩ := h
          cases hwrites with
          | cons hc hwrites =>
              obtain ⟨⟨hlow, hd⟩, hds⟩ := List.forall_mem_cons.mp hds
              exact ⟨⟨_, hlow, hd, hc⟩, _, hds, hwrites⟩
  rw [hrows]
  constructor
  · intro h
    obtain ⟨hleast, hmost, ds, hds, hwrites⟩ := h
    rw [← hwrites.length_eq] at hleast hmost
    exact ⟨ds, ⟨hleast, hmost, hds⟩, hwrites⟩
  · intro h
    obtain ⟨ds, ⟨hleast, hmost, hds⟩, hwrites⟩ := h
    rw [hwrites.length_eq] at hleast hmost
    exact ⟨hleast, hmost, ds, hds, hwrites⟩

end Fragment

end NetPattern
