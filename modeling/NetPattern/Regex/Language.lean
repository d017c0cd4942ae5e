import NetPattern.Regex.Match

/-!
# The language of a regular expression

Which texts an expression takes as a whole, said without any search. The matcher leaves of a text
exactly what stands behind such a text at its start.
-/

namespace NetPattern

/-- The texts of a number of pieces, each of them in a language. -/
def Repeats (language : List Char → Prop) : Nat → List Char → Prop
  | 0, text => text = []
  | count + 1, text =>
      ∃ piece rest, text = piece ++ rest ∧ language piece ∧ Repeats language count rest

/-- Pieces can be counted in two parts. -/
theorem repeats_add {language : List Char → Prop} {first second : Nat} {text : List Char} :
    Repeats language (first + second) text ↔
      ∃ piece rest, text = piece ++ rest ∧ Repeats language first piece ∧
        Repeats language second rest := by
  induction first generalizing text with
  | zero =>
      rw [Nat.zero_add]
      constructor
      · exact fun h => ⟨[], text, rfl, rfl, h⟩
      · rintro ⟨_, rest, rfl, rfl, h⟩
        exact h
  | succ first ih =>
      rw [Nat.succ_add]
      constructor
      · rintro ⟨piece, rest, rfl, hpiece, hrest⟩
        obtain ⟨middle, last, rfl, hmiddle, hlast⟩ := ih.mp hrest
        exact ⟨piece ++ middle, last, by simp, ⟨piece, middle, rfl, hpiece, hmiddle⟩, hlast⟩
      · rintro ⟨_, last, rfl, ⟨piece, middle, rfl, hpiece, hmiddle⟩, hlast⟩
        exact ⟨piece, middle ++ last, by simp, hpiece, ih.mpr ⟨middle, last, rfl, hmiddle, hlast⟩⟩

/-- Pieces that take nothing can be left out. -/
theorem Repeats.exists_le_length {language : List Char → Prop} {count : Nat} {text : List Char}
    (h : Repeats language count text) :
    ∃ fewer ≤ count, fewer ≤ text.length ∧ Repeats language fewer text := by
  induction count generalizing text with
  | zero => exact ⟨0, Nat.le_refl _, Nat.zero_le _, h⟩
  | succ count ih =>
      obtain ⟨piece, rest, rfl, hpiece, hrest⟩ := h
      obtain ⟨fewer, hcount, hlength, hfewer⟩ := ih hrest
      cases piece with
      | nil => exact ⟨fewer, by omega, by simpa using hlength, hfewer⟩
      | cons c piece =>
          exact ⟨fewer + 1, by omega, by simp; omega, c :: piece, rest, rfl, hpiece, hfewer⟩

/-- The texts of as many pieces as a quantifier allows. -/
def Quantifier.Takes (quantifier : Quantifier) (language : List Char → Prop)
    (text : List Char) : Prop :=
  ∃ count, quantifier.least ≤ count ∧ (∀ most, quantifier.most? = some most → count ≤ most) ∧
    Repeats language count text

/-- Whether a step leaves of a text exactly what stands behind a piece of a language. -/
def Steps (step : List Char → List (List Char)) (language : List Char → Prop) : Prop :=
  ∀ text rest, rest ∈ step text ↔ ∃ piece, text = piece ++ rest ∧ language piece

/-- One step after another leaves what stands behind two pieces. -/
theorem Steps.andThen {first second : List Char → List (List Char)}
    {before after : List Char → Prop} (hfirst : Steps first before) (hsecond : Steps second after) :
    Steps (fun text => (first text).flatMap second)
      (fun text => ∃ piece more, text = piece ++ more ∧ before piece ∧ after more) := by
  intro text rest
  simp only [List.mem_flatMap, hfirst text, hsecond _ rest]
  constructor
  · rintro ⟨_, ⟨piece, rfl, hpiece⟩, more, rfl, hmore⟩
    exact ⟨piece ++ more, by simp, piece, more, rfl, hpiece, hmore⟩
  · rintro ⟨_, rfl, piece, more, rfl, hpiece, hmore⟩
    exact ⟨more ++ rest, ⟨piece, by simp, hpiece⟩, more, rfl, hmore⟩

/-- Two steps together leave what stands behind a piece of either language. -/
theorem Steps.orElse {first second : List Char → List (List Char)}
    {one other : List Char → Prop} (hfirst : Steps first one) (hsecond : Steps second other) :
    Steps (fun text => first text ++ second text) (fun text => one text ∨ other text) := by
  intro text rest
  simp only [List.mem_append, hfirst text rest, hsecond text rest]
  constructor
  · rintro (⟨piece, h, hpiece⟩ | ⟨piece, h, hpiece⟩)
    · exact ⟨piece, h, .inl hpiece⟩
    · exact ⟨piece, h, .inr hpiece⟩
  · rintro ⟨piece, h, hpiece | hpiece⟩
    · exact .inl ⟨piece, h, hpiece⟩
    · exact .inr ⟨piece, h, hpiece⟩

theorem Steps.repeatExactly {step : List Char → List (List Char)} {language : List Char → Prop}
    (h : Steps step language) (count : Nat) :
    Steps (Quantifier.repeatExactly step count) (Repeats language count) := by
  induction count with
  | zero =>
      intro text rest
      simp [Quantifier.repeatExactly, Repeats, eq_comm]
  | succ count ih =>
      intro text rest
      simp only [Quantifier.repeatExactly, List.mem_flatMap, h text, ih _ rest, Repeats]
      constructor
      · rintro ⟨_, ⟨piece, rfl, hpiece⟩, more, rfl, hmore⟩
        exact ⟨piece ++ more, by simp, piece, more, rfl, hpiece, hmore⟩
      · rintro ⟨_, rfl, piece, more, rfl, hpiece, hmore⟩
        exact ⟨more ++ rest, ⟨piece, by simp, hpiece⟩, more, rfl, hmore⟩

theorem Steps.repeatUpTo {step : List Char → List (List Char)} {language : List Char → Prop}
    (h : Steps step language) (count : Nat) :
    Steps (Quantifier.repeatUpTo step count)
      (fun text => ∃ fewer ≤ count, Repeats language fewer text) := by
  induction count with
  | zero =>
      intro text rest
      simp [Quantifier.repeatUpTo, Repeats, eq_comm]
  | succ count ih =>
      intro text rest
      simp only [Quantifier.repeatUpTo, List.mem_append, List.mem_flatMap, h text, ih _ rest,
        List.mem_singleton]
      constructor
      · rintro (⟨_, ⟨piece, rfl, hpiece⟩, more, rfl, fewer, hfewer, hmore⟩ | rfl)
        · exact ⟨piece ++ more, by simp, fewer + 1, by omega, piece, more, rfl, hpiece, hmore⟩
        · exact ⟨[], rfl, 0, by omega, rfl⟩
      · rintro ⟨text, rfl, fewer, hfewer, hrepeats⟩
        cases fewer with
        | zero => exact .inr (by simp [show text = [] from hrepeats])
        | succ fewer =>
            obtain ⟨piece, more, rfl, hpiece, hmore⟩ := hrepeats
            exact .inl ⟨more ++ rest, ⟨piece, by simp, hpiece⟩, more, rfl, fewer, by omega, hmore⟩

theorem Quantifier.least_le_most (quantifier : Quantifier) (hvalid : quantifier.valid = true)
    {most : Nat} (hmost : quantifier.most? = some most) : quantifier.least ≤ most := by
  cases quantifier with
  | between least upper =>
      obtain rfl : upper = most := Option.some.inj hmost
      exact of_decide_eq_true hvalid
  | star => simp [most?] at hmost
  | plus => simp [most?] at hmost
  | atLeast least => simp [most?] at hmost
  | once => exact Nat.le_of_eq (Option.some.inj hmost)
  | exactly count => exact Nat.le_of_eq (Option.some.inj hmost)
  | optional => exact Nat.zero_le most

/-- A repeated step leaves what stands behind as many pieces as the quantifier allows. -/
theorem Steps.quantifier {step : List Char → List (List Char)} {language : List Char → Prop}
    (h : Steps step language) (quantifier : Quantifier) (hvalid : quantifier.valid = true) :
    Steps (quantifier.remainders step) (quantifier.Takes language) := by
  intro text rest
  simp only [Quantifier.remainders, List.mem_flatMap, h.repeatExactly quantifier.least text]
  cases hmost : quantifier.most? with
  | none =>
      simp only [h.repeatUpTo _ _ rest, Quantifier.Takes, hmost]
      constructor
      · rintro ⟨_, ⟨first, rfl, hfirst⟩, second, rfl, count, hcount, hsecond⟩
        exact ⟨first ++ second, by simp, quantifier.least + count, by omega, by simp,
          repeats_add.mpr ⟨first, second, rfl, hfirst, hsecond⟩⟩
      · rintro ⟨_, rfl, count, hleast, -, hrepeats⟩
        obtain ⟨more, rfl⟩ := Nat.le.dest hleast
        obtain ⟨first, second, rfl, hfirst, hsecond⟩ := repeats_add.mp hrepeats
        obtain ⟨fewer, -, hlength, hfewer⟩ := hsecond.exists_le_length
        exact ⟨second ++ rest, ⟨first, by simp, hfirst⟩, second, rfl, fewer, by simp; omega,
          hfewer⟩
  | some most =>
      have hle := quantifier.least_le_most hvalid hmost
      simp only [h.repeatUpTo _ _ rest, Quantifier.Takes, hmost]
      constructor
      · rintro ⟨_, ⟨first, rfl, hfirst⟩, second, rfl, count, hcount, hsecond⟩
        refine ⟨first ++ second, by simp, quantifier.least + count, by omega, ?_,
          repeats_add.mpr ⟨first, second, rfl, hfirst, hsecond⟩⟩
        rintro _ ⟨⟩
        omega
      · rintro ⟨_, rfl, count, hleast, hbound, hrepeats⟩
        have := hbound most rfl
        obtain ⟨more, rfl⟩ := Nat.le.dest hleast
        obtain ⟨first, second, rfl, hfirst, hsecond⟩ := repeats_add.mp hrepeats
        exact ⟨second ++ rest, ⟨first, by simp, hfirst⟩, second, rfl, more, by omega, hsecond⟩

namespace Regex

mutual

/-- The texts that the first alternative of an expression takes. -/
def FirstTakes (ignoreCase : Bool) : Regex → List Char → Prop
  | done, text => text = []
  | bar _, text => text = []
  | symbol s quantifier rest, text => ∃ piece more, text = piece ++ more ∧
      quantifier.Takes (fun single => ∃ c, single = [c] ∧ s.accepts ignoreCase c = true) piece ∧
      rest.FirstTakes ignoreCase more
  | group inner quantifier rest, text => ∃ piece more, text = piece ++ more ∧
      quantifier.Takes
        (fun single => inner.FirstTakes ignoreCase single ∨ inner.OtherTakes ignoreCase single)
        piece ∧
      rest.FirstTakes ignoreCase more

/-- The texts that an alternative after the first takes. -/
def OtherTakes (ignoreCase : Bool) : Regex → List Char → Prop
  | done, _ => False
  | bar rest, text => rest.FirstTakes ignoreCase text ∨ rest.OtherTakes ignoreCase text
  | symbol _ _ rest, text => rest.OtherTakes ignoreCase text
  | group _ _ rest, text => rest.OtherTakes ignoreCase text

end

/-- The texts that an expression takes. -/
def Takes (ignoreCase : Bool) (regex : Regex) (text : List Char) : Prop :=
  regex.FirstTakes ignoreCase text ∨ regex.OtherTakes ignoreCase text

/-- A symbol leaves what stands behind a character that it accepts. -/
theorem symbol_steps (ignoreCase : Bool) (s : Symbol) :
    Steps (s.remainders ignoreCase)
      (fun single => ∃ c, single = [c] ∧ s.accepts ignoreCase c = true) := by
  intro text rest
  cases text with
  | nil => simp [Symbol.remainders]
  | cons c text =>
      constructor
      · intro h
        by_cases hc : s.accepts ignoreCase c = true
        · simp only [Symbol.remainders, hc, if_true, List.mem_singleton] at h
          exact ⟨[c], by simp [h], c, rfl, hc⟩
        · simp [Symbol.remainders, hc] at h
      · rintro ⟨_, h, d, rfl, hd⟩
        obtain ⟨rfl, rfl⟩ := List.cons.inj h
        simp [Symbol.remainders, hd]

/-- Each part of the matcher leaves what stands behind the texts of its language. -/
theorem steps (ignoreCase : Bool) (regex : Regex) (hvalid : regex.valid = true) :
    Steps (regex.firstRemainders ignoreCase) (regex.FirstTakes ignoreCase) ∧
      Steps (regex.otherRemainders ignoreCase) (regex.OtherTakes ignoreCase) := by
  induction regex with
  | done =>
      refine ⟨fun text rest => ?_, fun text rest => ?_⟩
      · simp [firstRemainders, FirstTakes, eq_comm]
      · simp [otherRemainders, OtherTakes]
  | bar rest ih =>
      have ih := ih hvalid
      refine ⟨fun text rest => ?_, ?_⟩
      · simp [firstRemainders, FirstTakes, eq_comm]
      · exact Steps.orElse ih.1 ih.2
  | symbol s quantifier rest ih =>
      simp only [valid, Bool.and_eq_true] at hvalid
      have ih := ih hvalid.2
      exact ⟨Steps.andThen ((symbol_steps ignoreCase s).quantifier quantifier hvalid.1.2) ih.1,
        ih.2⟩
  | group inner quantifier rest ihinner ihrest =>
      simp only [valid, Bool.and_eq_true] at hvalid
      have ihinner := ihinner hvalid.1.1
      have ihrest := ihrest hvalid.2
      exact ⟨Steps.andThen ((Steps.orElse ihinner.1 ihinner.2).quantifier quantifier hvalid.1.2)
        ihrest.1, ihrest.2⟩

/-- The matcher leaves what stands behind the texts that an expression takes. -/
theorem mem_remainders_iff (ignoreCase : Bool) (regex : Regex) (hvalid : regex.valid = true)
    (text rest : List Char) :
    rest ∈ regex.remainders ignoreCase text ↔
      ∃ piece, text = piece ++ rest ∧ regex.Takes ignoreCase piece :=
  Steps.orElse (regex.steps ignoreCase hvalid).1 (regex.steps ignoreCase hvalid).2 text rest

/-- The matcher takes whole the texts of the language. -/
theorem matchesWhole_iff (ignoreCase : Bool) (regex : Regex) (hvalid : regex.valid = true)
    (text : List Char) :
    regex.matchesWhole ignoreCase text = true ↔ regex.Takes ignoreCase text := by
  rw [matchesWhole, List.contains_iff_mem, mem_remainders_iff ignoreCase regex hvalid]
  simp

end Regex

end NetPattern
