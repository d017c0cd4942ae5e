import Mathlib.Data.List.Basic
import NetPattern.Regex.LeftFactor.Language

/-!
# The order of matches

The ends of a match are found in the order of the alternatives, and within an alternative in the
order of the ends of its first item. Left factoring moves them only where all alternatives share
their first items. And the characters behind the longest match do not matter for the order.
-/

namespace NetPattern

/-- Whether a step goes on with no character of a text behind some place. -/
def StopsBefore (stop : List Char) (step : List Char → List (List Char)) : Prop :=
  ∀ text, step (text ++ stop) = (step text).map (· ++ stop)

namespace StopsBefore

variable {stop : List Char} {first second : List Char → List (List Char)}

theorem append (hfirst : StopsBefore stop first) (hsecond : StopsBefore stop second) :
    StopsBefore stop fun text => first text ++ second text := by
  intro text
  simp only [hfirst text, hsecond text, List.map_append]

theorem flatMap (hfirst : StopsBefore stop first) (hsecond : StopsBefore stop second) :
    StopsBefore stop fun text => (first text).flatMap second := by
  intro text
  simp only [hfirst text, List.flatMap_map, List.map_flatMap, hsecond _]

theorem keep : StopsBefore stop fun text => [text] :=
  fun _ => rfl

theorem fail : StopsBefore stop fun _ => [] :=
  fun _ => rfl

theorem repeatExactly (h : StopsBefore stop first) (count : Nat) :
    StopsBefore stop (Quantifier.repeatExactly first count) := by
  induction count with
  | zero => exact keep
  | succ count ih => exact h.flatMap ih

theorem repeatUpTo (h : StopsBefore stop first) (count : Nat) :
    StopsBefore stop (Quantifier.repeatUpTo first count) := by
  induction count with
  | zero => exact keep
  | succ count ih => exact (h.flatMap ih).append keep

theorem quantifier (h : StopsBefore stop first) {quantifier : Quantifier}
    (hbounded : quantifier.most?.isSome = true) :
    StopsBefore stop (quantifier.remainders first) := by
  obtain ⟨most, hmost⟩ := Option.isSome_iff_exists.mp hbounded
  intro text
  simp only [Quantifier.remainders, hmost]
  exact (h.repeatExactly quantifier.least).flatMap (h.repeatUpTo (most - quantifier.least)) text

theorem symbol {ignoreCase : Bool} {s : Symbol}
    (h : ∀ c ∈ stop.head?, s.accepts ignoreCase c = false) :
    StopsBefore stop (s.remainders ignoreCase) := by
  intro text
  cases text with
  | nil =>
      cases stop with
      | nil => rfl
      | cons c stop => simp [Symbol.remainders, h c rfl]
  | cons d text =>
      simp only [List.cons_append, Symbol.remainders]
      split <;> rfl

end StopsBefore

namespace Regex

/-- An expression without unbounded repetitions stops where no symbol of it takes the next
character. -/
theorem stopsBefore {ignoreCase : Bool} {stop : List Char} {regex : Regex}
    (hall : regex.All (fun s => ∀ c ∈ stop.head?, s.accepts ignoreCase c = false)
      (·.most?.isSome = true) (·.most?.isSome = true)) :
    StopsBefore stop (regex.firstRemainders ignoreCase) ∧
      StopsBefore stop (regex.otherRemainders ignoreCase) := by
  induction regex with
  | done => exact ⟨.keep, .fail⟩
  | bar rest ih => exact ⟨.keep, (ih hall).1.append (ih hall).2⟩
  | symbol s quantifier rest ih =>
      obtain ⟨hs, hquantifier, hrest⟩ := hall
      exact ⟨((StopsBefore.symbol hs).quantifier hquantifier).flatMap (ih hrest).1, (ih hrest).2⟩
  | group inner quantifier rest ihinner ihrest =>
      obtain ⟨hinner, hquantifier, hrest⟩ := hall
      have hboth := (ihinner hinner).1.append (ihinner hinner).2
      exact ⟨(hboth.quantifier hquantifier).flatMap (ihrest hrest).1, (ihrest hrest).2⟩

/-! ### Items and alternatives in order -/

section Order

variable (ignoreCase : Bool)

/-- Behind a single alternative the ends are those of the first expression, each followed by those
of the second one. -/
theorem remainders_append {first : Regex} (h : first.isSingle = true) (second : Regex)
    (text : List Char) :
    (first ++ second).firstRemainders ignoreCase text =
        (first.firstRemainders ignoreCase text).flatMap (second.firstRemainders ignoreCase) ∧
      (first ++ second).otherRemainders ignoreCase text =
        second.otherRemainders ignoreCase text := by
  induction first generalizing text with
  | done => simp [firstRemainders]
  | bar rest _ => exact absurd h Bool.false_ne_true
  | symbol s quantifier rest ih =>
      refine ⟨?_, (ih h text).2⟩
      simp only [symbol_append, firstRemainders, List.flatMap_assoc]
      exact List.flatMap_congr fun more _ => (ih h more).1
  | group inner quantifier rest _ ih =>
      refine ⟨?_, (ih h text).2⟩
      simp only [group_append, firstRemainders, List.flatMap_assoc]
      exact List.flatMap_congr fun more _ => (ih h more).1

theorem remainders_of_isSingle {regex : Regex} (h : regex.isSingle = true) (text : List Char) :
    regex.remainders ignoreCase text = regex.firstRemainders ignoreCase text := by
  have hother := (remainders_append ignoreCase h done text).2
  rw [append_done] at hother
  rw [remainders, hother, otherRemainders, List.append_nil]

/-- The end that is found first is found first behind an end of the first expression. -/
theorem exists_of_head?_append {first second : Regex} (h : first.isSingle = true)
    {text rest : List Char}
    (hhead : ((first ++ second).firstRemainders ignoreCase text).head? = some rest) :
    ∃ more ∈ first.firstRemainders ignoreCase text,
      (second.firstRemainders ignoreCase more).head? = some rest := by
  rw [(remainders_append ignoreCase h second text).1, List.head?_flatMap] at hhead
  exact List.exists_of_findSome?_eq_some hhead

theorem remainders_once (step : List Char → List (List Char)) :
    Quantifier.once.remainders step = step := by
  funext text
  simp [Quantifier.remainders, Quantifier.least, Quantifier.most?, Quantifier.repeatExactly,
    Quantifier.repeatUpTo]

/-- What may be left out is, where it cannot be taken. -/
theorem remainders_of_eq_nil {quantifier : Quantifier} (hleast : quantifier.least = 0)
    {step : List Char → List (List Char)} {text : List Char} (hstep : step text = []) :
    quantifier.remainders step text = [text] := by
  have hupTo : ∀ count, Quantifier.repeatUpTo step count text = [text] := by
    intro count
    cases count with
    | zero => rfl
    | succ count => simp [Quantifier.repeatUpTo, hstep]
  rw [Quantifier.remainders, hleast, Quantifier.repeatExactly, List.flatMap_singleton]
  cases quantifier.most? with
  | none => exact hupTo _
  | some most => exact hupTo _

theorem firstRemainders_symbol_once (s : Symbol) (rest : Regex) (text : List Char) :
    (symbol s .once rest).firstRemainders ignoreCase text =
      (s.remainders ignoreCase text).flatMap (rest.firstRemainders ignoreCase) := by
  rw [firstRemainders, remainders_once]

theorem firstRemainders_group_once (inner : Regex) (text : List Char) :
    (group inner .once done).firstRemainders ignoreCase text =
      inner.remainders ignoreCase text := by
  rw [firstRemainders, remainders_once]
  exact List.flatMap_singleton' _

/-- Alternatives joined by bars are tried in turn. -/
theorem remainders_ofAlternatives {all : List Regex} (hne : all ≠ [])
    (hsingle : ∀ alternative ∈ all, alternative.isSingle = true) (text : List Char) :
    (ofAlternatives all).remainders ignoreCase text =
      all.flatMap fun alternative => alternative.firstRemainders ignoreCase text := by
  induction all with
  | nil => exact absurd rfl hne
  | cons first others ih =>
      obtain ⟨hfirst, hothers⟩ := List.forall_mem_cons.mp hsingle
      cases others with
      | nil => simp [ofAlternatives, remainders_of_isSingle ignoreCase hfirst]
      | cons second more =>
          have ih := ih (List.cons_ne_nil _ _) hothers
          obtain ⟨hfirsts, hothers⟩ := remainders_append ignoreCase hfirst
            (bar (ofAlternatives (second :: more))) text
          rw [ofAlternatives, remainders, hfirsts, hothers, otherRemainders, ← remainders, ih,
            List.flatMap_cons]
          · congr 1
            exact List.flatMap_singleton' _
          · exact List.cons_ne_nil _ _

end Order

/-! ### Where left factoring changes nothing -/

theorem factorGroups_append (first second : Regex) :
    (first ++ second).factorGroups = first.factorGroups ++ second.factorGroups := by
  induction first with
  | done => rfl
  | bar rest ih => simp only [bar_append, factorGroups, ih]
  | symbol s quantifier rest ih => simp only [symbol_append, factorGroups, ih]
  | group inner quantifier rest _ ih => simp only [group_append, factorGroups, ih]

theorem factorGroups_isSingle (regex : Regex) :
    regex.factorGroups.isSingle = regex.isSingle := by
  induction regex with
  | done => rfl
  | bar rest _ => rfl
  | symbol s quantifier rest ih => exact ih
  | group inner quantifier rest _ ih => exact ih

theorem factorTop_of_isSingle {regex : Regex} (h : regex.isSingle = true) :
    regex.factorTop = regex := by
  rw [factorTop, alternatives_of_isSingle h]

/-- In a group of a single alternative nothing is factored but the groups in it. -/
theorem leftFactor_group {row : Regex} (h : row.isSingle = true) :
    (group row .once done).leftFactor = group row.factorGroups .once done := by
  have hsingle := row.factorGroups_isSingle.trans h
  have hgroup : (group row.factorGroups .once done).isSingle = true := rfl
  rw [leftFactor, factorGroups, factorTop_of_isSingle hsingle, factorGroups,
    factorTop_of_isSingle hgroup]

/-- Without groups there is nothing to factor inside them. -/
theorem factorGroups_eq_self {p : Symbol → Prop} {q : Quantifier → Prop} {regex : Regex}
    (hall : regex.All p q fun _ => False) : regex.factorGroups = regex := by
  induction regex with
  | done => rfl
  | bar rest ih => rw [factorGroups, ih hall]
  | symbol s quantifier rest ih => rw [factorGroups, ih hall.2.2]
  | group inner quantifier rest _ _ => exact hall.2.1.elim

/-- Nothing is taken out in front of an alternative with a single item. -/
theorem factorTop_of_short {regex alternative : Regex} (hmem : alternative ∈ regex.alternatives)
    (hshort : alternative.itemCount < 2) : regex.factorTop = regex := by
  unfold factorTop
  split
  next first second others halternatives =>
    rw [if_pos]
    exact .inr (List.any_eq_true.mpr ⟨alternative, halternatives ▸ hmem, decide_eq_true hshort⟩)
  next => rfl

/-- Expressions whose first symbols repeat in different ways share no items. -/
theorem Leads.eq_done {lead rest rest' : Regex} {s s' : Symbol}
    {quantifier quantifier' : Quantifier} (hne : quantifier ≠ quantifier')
    (h : Leads lead (symbol s quantifier rest)) (h' : Leads lead (symbol s' quantifier' rest')) :
    lead = done := by
  obtain ⟨more, hmore⟩ := h
  obtain ⟨more', hmore'⟩ := h'
  cases lead with
  | done => rfl
  | bar lead => exact Regex.noConfusion hmore
  | symbol t other lead =>
      have hquantifier : quantifier = other := (symbol.inj hmore).2.1
      have hquantifier' : quantifier' = other := (symbol.inj hmore').2.1
      exact absurd (hquantifier.trans hquantifier'.symm) hne
  | group inner other lead => exact Regex.noConfusion hmore

/-- Nothing is taken out in front of two alternatives that share no items. -/
theorem factorTop_of_apart {regex first other : Regex} (hfirst : first ∈ regex.alternatives)
    (hother : other ∈ regex.alternatives)
    (happart : ∀ lead, Leads lead first → Leads lead other → lead = done) :
    regex.factorTop = regex := by
  unfold factorTop
  split
  next head second others halternatives =>
    have hhead : head.isSingle = true :=
      isSingle_of_mem_alternatives (halternatives ▸ List.mem_cons_self)
    obtain ⟨hleads, -⟩ := foldl_shared_leads hhead (second :: others)
    rw [if_pos]
    exact .inl (happart _ (hleads first (halternatives ▸ hfirst))
      (hleads other (halternatives ▸ hother)))
  next => rfl

end Regex

end NetPattern
