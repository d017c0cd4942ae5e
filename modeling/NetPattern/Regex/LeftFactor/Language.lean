import NetPattern.Regex.Language
import NetPattern.Regex.LeftFactor

/-!
# Left factoring keeps the language

An expression takes what one of its alternatives takes, and each alternative is the shared items
followed by what is left of it. So the left factored expression takes the same texts, and it is
valid where the expression is.
-/

namespace NetPattern.Regex

theorem alternatives_ne_nil (regex : Regex) : regex.alternatives ≠ [] := by
  induction regex with
  | done => simp [alternatives]
  | bar rest _ => simp [alternatives]
  | symbol s quantifier rest ih => simp [alternatives, ih]
  | group inner quantifier rest _ ih => simp [alternatives, ih]

/-- The first alternative and the others take what their trees say. -/
theorem takes_of_alternatives (ignoreCase : Bool) {regex first : Regex} {others : List Regex}
    (h : regex.alternatives = first :: others) (text : List Char) :
    (regex.FirstTakes ignoreCase text ↔ first.FirstTakes ignoreCase text) ∧
      (regex.OtherTakes ignoreCase text ↔
        ∃ other ∈ others, other.FirstTakes ignoreCase text) := by
  induction regex generalizing first others text with
  | done =>
      obtain ⟨rfl, rfl⟩ := List.cons.inj h
      simp [FirstTakes, OtherTakes]
  | bar rest ih =>
      obtain ⟨rfl, rfl⟩ := List.cons.inj h
      obtain ⟨first, others, hrest⟩ := List.exists_cons_of_ne_nil rest.alternatives_ne_nil
      refine ⟨by simp [FirstTakes], ?_⟩
      rw [OtherTakes, (ih hrest text).1, (ih hrest text).2, hrest]
      simp
  | symbol s quantifier rest ih =>
      obtain ⟨first, others, hrest⟩ := List.exists_cons_of_ne_nil rest.alternatives_ne_nil
      rw [alternatives, hrest, List.modifyHead_cons] at h
      obtain ⟨rfl, rfl⟩ := List.cons.inj h
      refine ⟨?_, (ih hrest text).2⟩
      simp only [FirstTakes, (ih hrest _).1]
  | group inner quantifier rest _ ih =>
      obtain ⟨first, others, hrest⟩ := List.exists_cons_of_ne_nil rest.alternatives_ne_nil
      rw [alternatives, hrest, List.modifyHead_cons] at h
      obtain ⟨rfl, rfl⟩ := List.cons.inj h
      refine ⟨?_, (ih hrest text).2⟩
      simp only [FirstTakes, (ih hrest _).1]

/-- An expression takes what one of its alternatives takes. -/
theorem takes_iff_exists_alternative (ignoreCase : Bool) (regex : Regex) (text : List Char) :
    regex.Takes ignoreCase text ↔
      ∃ alternative ∈ regex.alternatives, alternative.FirstTakes ignoreCase text := by
  obtain ⟨first, others, h⟩ := List.exists_cons_of_ne_nil regex.alternatives_ne_nil
  rw [Takes, (takes_of_alternatives ignoreCase h text).1,
    (takes_of_alternatives ignoreCase h text).2, h]
  simp

/-- An alternative is a single one. -/
theorem isSingle_of_mem_alternatives {regex alternative : Regex}
    (h : alternative ∈ regex.alternatives) : alternative.isSingle = true := by
  induction regex generalizing alternative with
  | done => simp_all [alternatives, isSingle]
  | bar rest ih =>
      rcases List.mem_cons.mp h with rfl | h
      · rfl
      · exact ih h
  | symbol s quantifier rest ih =>
      obtain ⟨first, others, hrest⟩ := List.exists_cons_of_ne_nil rest.alternatives_ne_nil
      rw [alternatives, hrest, List.modifyHead_cons] at h
      rcases List.mem_cons.mp h with rfl | h
      · show first.isSingle = true
        exact ih (hrest ▸ List.mem_cons_self)
      · exact ih (hrest ▸ List.mem_cons_of_mem _ h)
  | group inner quantifier rest _ ih =>
      obtain ⟨first, others, hrest⟩ := List.exists_cons_of_ne_nil rest.alternatives_ne_nil
      rw [alternatives, hrest, List.modifyHead_cons] at h
      rcases List.mem_cons.mp h with rfl | h
      · show first.isSingle = true
        exact ih (hrest ▸ List.mem_cons_self)
      · exact ih (hrest ▸ List.mem_cons_of_mem _ h)

theorem isSingle_append {first : Regex} (hfirst : first.isSingle = true) (second : Regex) :
    (first ++ second).isSingle = second.isSingle := by
  induction first with
  | done => rfl
  | bar rest _ => simp [isSingle] at hfirst
  | symbol s quantifier rest ih => exact ih hfirst
  | group inner quantifier rest _ ih => exact ih hfirst

/-- A single alternative in front of an expression takes the front of a text. -/
theorem takes_append (ignoreCase : Bool) {first : Regex} (hfirst : first.isSingle = true)
    (second : Regex) (text : List Char) :
    ((first ++ second).FirstTakes ignoreCase text ↔
      ∃ piece more, text = piece ++ more ∧ first.FirstTakes ignoreCase piece ∧
        second.FirstTakes ignoreCase more) ∧
      ((first ++ second).OtherTakes ignoreCase text ↔ second.OtherTakes ignoreCase text) := by
  induction first generalizing text with
  | done =>
      refine ⟨?_, Iff.rfl⟩
      constructor
      · exact fun h => ⟨[], text, rfl, rfl, h⟩
      · rintro ⟨_, more, rfl, rfl, h⟩
        exact h
  | bar rest _ => simp [isSingle] at hfirst
  | symbol s quantifier rest ih =>
      have ih := ih hfirst
      refine ⟨?_, (ih text).2⟩
      simp only [symbol_append, FirstTakes, (ih _).1]
      constructor
      · rintro ⟨piece, _, rfl, hpiece, middle, more, rfl, hmiddle, hmore⟩
        exact ⟨piece ++ middle, more, by simp, ⟨piece, middle, rfl, hpiece, hmiddle⟩, hmore⟩
      · rintro ⟨_, more, rfl, ⟨piece, middle, rfl, hpiece, hmiddle⟩, hmore⟩
        exact ⟨piece, middle ++ more, by simp, hpiece, middle, more, rfl, hmiddle, hmore⟩
  | group inner quantifier rest _ ih =>
      have ih := ih hfirst
      refine ⟨?_, (ih text).2⟩
      simp only [group_append, FirstTakes, (ih _).1]
      constructor
      · rintro ⟨piece, _, rfl, hpiece, middle, more, rfl, hmiddle, hmore⟩
        exact ⟨piece ++ middle, more, by simp, ⟨piece, middle, rfl, hpiece, hmiddle⟩, hmore⟩
      · rintro ⟨_, more, rfl, ⟨piece, middle, rfl, hpiece, hmiddle⟩, hmore⟩
        exact ⟨piece, middle ++ more, by simp, hpiece, middle, more, rfl, hmiddle, hmore⟩

/-- Joined by bars, single alternatives take what one of them takes. -/
theorem ofAlternatives_takes (ignoreCase : Bool) {all : List Regex} (hne : all ≠ [])
    (hsingle : ∀ alternative ∈ all, alternative.isSingle = true) (text : List Char) :
    (ofAlternatives all).Takes ignoreCase text ↔
      ∃ alternative ∈ all, alternative.FirstTakes ignoreCase text := by
  induction all with
  | nil => exact absurd rfl hne
  | cons first others ih =>
      have hfirst := hsingle first List.mem_cons_self
      cases others with
      | nil =>
          have hother : ¬ first.OtherTakes ignoreCase text := by
            have h := (takes_append ignoreCase hfirst done text).2
            rw [append_done] at h
            exact h.mp
          simp [ofAlternatives, Takes, hother]
      | cons second more =>
          have ih := ih (List.cons_ne_nil _ _)
            fun alternative h => hsingle alternative (List.mem_cons_of_mem _ h)
          rw [ofAlternatives, Takes, (takes_append ignoreCase hfirst _ text).1,
            (takes_append ignoreCase hfirst _ text).2]
          simp only [FirstTakes, OtherTakes]
          rw [← Takes, ih]
          constructor
          · rintro (⟨piece, _, rfl, h, rfl⟩ | ⟨alternative, hmem, h⟩)
            · exact ⟨first, List.mem_cons_self, by simpa using h⟩
            · exact ⟨alternative, List.mem_cons_of_mem _ hmem, h⟩
          · rintro ⟨alternative, hmem, h⟩
            rcases List.mem_cons.mp hmem with rfl | hmem
            · exact .inl ⟨text, [], by simp, h, rfl⟩
            · exact .inr ⟨alternative, hmem, h⟩
          · exact List.cons_ne_nil _ _

theorem alternatives_of_isSingle {regex : Regex} (h : regex.isSingle = true) :
    regex.alternatives = [regex] := by
  induction regex with
  | done => rfl
  | bar rest => exact nomatch h
  | symbol s quantifier rest ih =>
      rw [alternatives, ih h]
      rfl
  | group inner quantifier rest _ ih =>
      rw [alternatives, ih h]
      rfl

theorem alternatives_append_bar {first : Regex} (h : first.isSingle = true) (rest : Regex) :
    (first ++ bar rest).alternatives = first :: rest.alternatives := by
  induction first with
  | done => rfl
  | bar more => exact nomatch h
  | symbol s quantifier more ih =>
      rw [symbol_append, alternatives, ih h]
      rfl
  | group inner quantifier more _ ih =>
      rw [group_append, alternatives, ih h]
      rfl

theorem alternatives_ofAlternatives {all : List Regex} (hne : all ≠ [])
    (hsingle : ∀ alternative ∈ all, alternative.isSingle = true) :
    (ofAlternatives all).alternatives = all := by
  induction all with
  | nil => exact absurd rfl hne
  | cons first others ih =>
      obtain ⟨hfirst, hothers⟩ := List.forall_mem_cons.mp hsingle
      cases others with
      | nil => exact alternatives_of_isSingle hfirst
      | cons second more =>
          rw [ofAlternatives, alternatives_append_bar hfirst, ih (List.cons_ne_nil _ _) hothers]
          exact List.cons_ne_nil _ _

/-- Whether an expression begins with the items of another. -/
def Leads (lead regex : Regex) : Prop :=
  ∃ rest, regex = lead ++ rest

theorem Leads.trans {first second third : Regex} (h : Leads first second)
    (h' : Leads second third) : Leads first third := by
  obtain ⟨rest, rfl⟩ := h
  obtain ⟨more, rfl⟩ := h'
  exact ⟨rest ++ more, append_assoc first rest more⟩

/-- The shared items of two expressions lead both of them, and no bar is among them. -/
theorem shared_leads (first second : Regex) :
    (Leads (shared first second) first ∧ Leads (shared first second) second) ∧
      (shared first second).isSingle = true := by
  induction first generalizing second with
  | done => exact ⟨⟨⟨done, rfl⟩, ⟨second, rfl⟩⟩, rfl⟩
  | bar rest _ => exact ⟨⟨⟨bar rest, rfl⟩, ⟨second, rfl⟩⟩, rfl⟩
  | symbol s quantifier rest ih =>
      cases second with
      | symbol s' quantifier' rest' =>
          by_cases h : s = s' ∧ quantifier = quantifier'
          · obtain ⟨rfl, rfl⟩ := h
            obtain ⟨⟨⟨more, hmore⟩, ⟨more', hmore'⟩⟩, hsingle⟩ := ih rest'
            rw [shared, if_pos ⟨rfl, rfl⟩]
            exact ⟨⟨⟨more, congrArg _ hmore⟩, ⟨more', congrArg _ hmore'⟩⟩, hsingle⟩
          · rw [shared, if_neg h]
            exact ⟨⟨⟨_, rfl⟩, ⟨_, rfl⟩⟩, rfl⟩
      | _ => exact ⟨⟨⟨_, rfl⟩, ⟨_, rfl⟩⟩, rfl⟩
  | group inner quantifier rest _ ih =>
      cases second with
      | group inner' quantifier' rest' =>
          by_cases h : inner = inner' ∧ quantifier = quantifier'
          · obtain ⟨rfl, rfl⟩ := h
            obtain ⟨⟨⟨more, hmore⟩, ⟨more', hmore'⟩⟩, hsingle⟩ := ih rest'
            rw [shared, if_pos ⟨rfl, rfl⟩]
            exact ⟨⟨⟨more, congrArg _ hmore⟩, ⟨more', congrArg _ hmore'⟩⟩, hsingle⟩
          · rw [shared, if_neg h]
            exact ⟨⟨⟨_, rfl⟩, ⟨_, rfl⟩⟩, rfl⟩
      | _ => exact ⟨⟨⟨_, rfl⟩, ⟨_, rfl⟩⟩, rfl⟩

/-- What all of several expressions share leads each of them, and no bar is among it. -/
theorem foldl_shared_leads {first : Regex} (hfirst : first.isSingle = true)
    (others : List Regex) :
    (∀ regex ∈ first :: others, Leads (others.foldl shared first) regex) ∧
      (others.foldl shared first).isSingle = true := by
  induction others generalizing first with
  | nil =>
      refine ⟨fun regex h => ?_, hfirst⟩
      obtain rfl := List.mem_singleton.mp h
      exact ⟨done, (append_done _).symm⟩
  | cons second others ih =>
      obtain ⟨⟨hone, hother⟩, hsingle⟩ := shared_leads first second
      obtain ⟨ih, ihsingle⟩ := ih hsingle
      refine ⟨fun regex h => ?_, ihsingle⟩
      have hlead := ih (shared first second) List.mem_cons_self
      rcases List.mem_cons.mp h with rfl | h
      · exact hlead.trans hone
      · rcases List.mem_cons.mp h with rfl | h
        · exact hlead.trans hother
        · exact ih regex (List.mem_cons_of_mem _ h)

/-- Behind the items of a single alternative stands what was put there. -/
theorem dropItems_append {lead : Regex} (hlead : lead.isSingle = true) (rest : Regex) :
    dropItems lead.itemCount (lead ++ rest) = rest := by
  induction lead with
  | done => simp [itemCount, dropItems]
  | bar lead _ => simp [isSingle] at hlead
  | symbol s quantifier lead ih => exact ih hlead
  | group inner quantifier lead _ ih => exact ih hlead

/-- Whether all symbols, their quantifiers and the quantifiers of groups are of some kind. -/
def All (p : Symbol → Prop) (q g : Quantifier → Prop) : Regex → Prop
  | done => True
  | bar rest => rest.All p q g
  | symbol s quantifier rest => p s ∧ q quantifier ∧ rest.All p q g
  | group inner quantifier rest => inner.All p q g ∧ g quantifier ∧ rest.All p q g

section All

variable {p : Symbol → Prop} {q g : Quantifier → Prop}

theorem valid_iff_all {regex : Regex} :
    regex.valid = true ↔ regex.All (·.valid = true) (·.valid = true) (·.valid = true) := by
  induction regex with
  | done => simp [valid, All]
  | bar rest ih => exact ih
  | symbol s quantifier rest ih => simp [valid, All, ih, and_assoc]
  | group inner quantifier rest ihinner ihrest => simp [valid, All, ihinner, ihrest, and_assoc]

theorem all_append {first second : Regex} :
    (first ++ second).All p q g ↔ first.All p q g ∧ second.All p q g := by
  induction first with
  | done => simp [All]
  | bar rest ih => exact ih
  | symbol s quantifier rest ih => simp [All, ih, and_assoc]
  | group inner quantifier rest _ ih => simp [All, ih, and_assoc]

theorem All.imp {p' : Symbol → Prop} {q' g' : Quantifier → Prop} {regex : Regex}
    (hall : regex.All p q g) (hp : ∀ s, p s → p' s) (hq : ∀ quantifier, q quantifier → q' quantifier)
    (hg : ∀ quantifier, g quantifier → g' quantifier) : regex.All p' q' g' := by
  induction regex with
  | done => trivial
  | bar rest ih => exact ih hall
  | symbol s quantifier rest ih => exact ⟨hp s hall.1, hq quantifier hall.2.1, ih hall.2.2⟩
  | group inner quantifier rest ihinner ihrest =>
      exact ⟨ihinner hall.1, hg quantifier hall.2.1, ihrest hall.2.2⟩

/-- What all items of an expression are, those of its alternatives are. -/
theorem All.of_mem_alternatives {regex alternative : Regex} (hall : regex.All p q g)
    (h : alternative ∈ regex.alternatives) : alternative.All p q g := by
  induction regex generalizing alternative with
  | done =>
      rw [List.mem_singleton.mp h]
      exact hall
  | bar rest ih =>
      rcases List.mem_cons.mp h with rfl | h
      · trivial
      · exact ih hall h
  | symbol s quantifier rest ih =>
      obtain ⟨first, others, hrest⟩ := List.exists_cons_of_ne_nil rest.alternatives_ne_nil
      rw [alternatives, hrest, List.modifyHead_cons] at h
      rcases List.mem_cons.mp h with rfl | h
      · exact ⟨hall.1, hall.2.1, ih hall.2.2 (hrest ▸ List.mem_cons_self)⟩
      · exact ih hall.2.2 (hrest ▸ List.mem_cons_of_mem _ h)
  | group inner quantifier rest _ ih =>
      obtain ⟨first, others, hrest⟩ := List.exists_cons_of_ne_nil rest.alternatives_ne_nil
      rw [alternatives, hrest, List.modifyHead_cons] at h
      rcases List.mem_cons.mp h with rfl | h
      · exact ⟨hall.1, hall.2.1, ih hall.2.2 (hrest ▸ List.mem_cons_self)⟩
      · exact ih hall.2.2 (hrest ▸ List.mem_cons_of_mem _ h)

/-- Joining alternatives by bars adds no items to theirs. -/
theorem All.ofAlternatives {all : List Regex} (h : ∀ alternative ∈ all, alternative.All p q g) :
    (ofAlternatives all).All p q g := by
  induction all with
  | nil => trivial
  | cons first others ih =>
      obtain ⟨hfirst, hothers⟩ := List.forall_mem_cons.mp h
      cases others with
      | nil => exact hfirst
      | cons second more =>
          rw [Regex.ofAlternatives, all_append]
          · exact ⟨hfirst, ih hothers⟩
          · exact List.cons_ne_nil _ _

end All

theorem valid_append (first second : Regex) :
    (first ++ second).valid = (first.valid && second.valid) := by
  rw [Bool.eq_iff_iff, Bool.and_eq_true]
  simp only [valid_iff_all]
  exact all_append

/-- The alternatives of a valid expression are valid. -/
theorem valid_of_mem_alternatives {regex alternative : Regex} (hvalid : regex.valid = true)
    (h : alternative ∈ regex.alternatives) : alternative.valid = true :=
  valid_iff_all.mpr ((valid_iff_all.mp hvalid).of_mem_alternatives h)

/-- Joined by bars, valid alternatives are valid. -/
theorem ofAlternatives_valid {all : List Regex}
    (h : ∀ alternative ∈ all, alternative.valid = true) : (ofAlternatives all).valid = true :=
  valid_iff_all.mpr (All.ofAlternatives fun alternative hmem =>
    valid_iff_all.mp (h alternative hmem))

/-- Taking shared items out in front keeps an expression valid. -/
theorem factorTop_valid {regex : Regex} (hvalid : regex.valid = true) :
    regex.factorTop.valid = true := by
  unfold factorTop
  split
  next first second others halternatives =>
    dsimp only
    split
    next => exact hvalid
    next =>
      have hall : ∀ alternative ∈ first :: second :: others, alternative.valid = true :=
        fun alternative h => valid_of_mem_alternatives hvalid (halternatives ▸ h)
      have hfirst : first.isSingle = true :=
        isSingle_of_mem_alternatives (halternatives ▸ List.mem_cons_self)
      obtain ⟨hleads, hlead⟩ := foldl_shared_leads hfirst (second :: others)
      generalize (second :: others).foldl shared first = lead at hleads hlead ⊢
      have hparts : ∀ alternative ∈ first :: second :: others,
          lead.valid = true ∧ (dropItems lead.itemCount alternative).valid = true := by
        intro alternative h
        have hwhole := hall alternative h
        obtain ⟨rest, rfl⟩ := hleads alternative h
        rw [valid_append, Bool.and_eq_true] at hwhole
        rw [dropItems_append hlead]
        exact hwhole
      rw [valid_append, (hparts first List.mem_cons_self).1, Bool.true_and, valid,
        ofAlternatives_valid]
      · rfl
      · intro alternative h
        obtain ⟨whole, hwhole, rfl⟩ := List.mem_map.mp h
        exact (hparts whole hwhole).2
  next => exact hvalid

/-- Factoring the groups keeps an expression valid. -/
theorem factorGroups_valid {regex : Regex} (hvalid : regex.valid = true) :
    regex.factorGroups.valid = true := by
  induction regex with
  | done => rfl
  | bar rest ih => exact ih hvalid
  | symbol s quantifier rest ih =>
      simp only [valid, Bool.and_eq_true] at hvalid
      simp only [factorGroups, valid, hvalid.1.1, hvalid.1.2, ih hvalid.2, Bool.and_self]
  | group inner quantifier rest ihinner ihrest =>
      simp only [valid, Bool.and_eq_true] at hvalid
      simp only [factorGroups, valid, factorTop_valid (ihinner hvalid.1.1), hvalid.1.2,
        ihrest hvalid.2, Bool.and_self]

/-- Left factoring keeps an expression valid. -/
theorem leftFactor_valid {regex : Regex} (hvalid : regex.valid = true) :
    regex.leftFactor.valid = true :=
  factorTop_valid (factorGroups_valid hvalid)

/-- A group that stands once takes what is inside it. -/
theorem group_once_takes (ignoreCase : Bool) (inner : Regex) (text : List Char) :
    (group inner .once done).FirstTakes ignoreCase text ↔ inner.Takes ignoreCase text := by
  constructor
  · rintro ⟨piece, _, rfl, ⟨count, hleast, hmost, hrepeats⟩, rfl⟩
    obtain rfl : count = 1 := Nat.le_antisymm (hmost 1 rfl) hleast
    obtain ⟨single, _, rfl, hsingle, rfl⟩ := hrepeats
    rw [List.append_nil, List.append_nil]
    exact hsingle
  · intro h
    refine ⟨text, [], by simp, ⟨1, Nat.le_refl _, ?_, text, [], by simp, h, rfl⟩, rfl⟩
    rintro _ ⟨⟩
    exact Nat.le_refl _

/-- Taking shared items out in front changes nothing in what is taken. -/
theorem factorTop_takes (ignoreCase : Bool) (regex : Regex) (text : List Char) :
    regex.factorTop.Takes ignoreCase text ↔ regex.Takes ignoreCase text := by
  unfold factorTop
  split
  next first second others halternatives =>
    dsimp only
    split
    next => rfl
    next =>
      have hfirst : first.isSingle = true :=
        isSingle_of_mem_alternatives (halternatives ▸ List.mem_cons_self)
      obtain ⟨hleads, hlead⟩ := foldl_shared_leads hfirst (second :: others)
      generalize (second :: others).foldl shared first = lead at hleads hlead ⊢
      rw [takes_iff_exists_alternative ignoreCase regex, halternatives, Takes,
        (takes_append ignoreCase hlead _ text).1, (takes_append ignoreCase hlead _ text).2]
      have hgroup : ∀ more, (group (ofAlternatives
          ((first :: second :: others).map (dropItems lead.itemCount))) .once done).FirstTakes
            ignoreCase more ↔ ∃ alternative ∈ first :: second :: others,
              (dropItems lead.itemCount alternative).FirstTakes ignoreCase more := by
        intro more
        rw [group_once_takes, ofAlternatives_takes ignoreCase (by simp)]
        · constructor
          · rintro ⟨_, h, hmore⟩
            obtain ⟨alternative, hmem, rfl⟩ := List.mem_map.mp h
            exact ⟨alternative, hmem, hmore⟩
          · rintro ⟨alternative, hmem, hmore⟩
            exact ⟨_, List.mem_map_of_mem hmem, hmore⟩
        · intro alternative h
          obtain ⟨whole, hwhole, rfl⟩ := List.mem_map.mp h
          obtain ⟨rest, rfl⟩ := hleads whole hwhole
          rw [dropItems_append hlead]
          have hsingle : (lead ++ rest).isSingle = true :=
            isSingle_of_mem_alternatives (halternatives ▸ hwhole)
          rwa [isSingle_append hlead] at hsingle
      simp only [hgroup, OtherTakes, or_false]
      constructor
      · rintro ⟨piece, more, rfl, hpiece, alternative, hmem, hmore⟩
        refine ⟨alternative, hmem, ?_⟩
        obtain ⟨rest, rfl⟩ := hleads alternative hmem
        rw [dropItems_append hlead] at hmore
        exact (takes_append ignoreCase hlead rest _).1.mpr ⟨piece, more, rfl, hpiece, hmore⟩
      · rintro ⟨alternative, hmem, h⟩
        obtain ⟨rest, rfl⟩ := hleads alternative hmem
        obtain ⟨piece, more, rfl, hpiece, hmore⟩ :=
          (takes_append ignoreCase hlead rest _).1.mp h
        exact ⟨piece, more, rfl, hpiece, _, hmem, by rwa [dropItems_append hlead]⟩
  next => rfl

/-- Factoring the groups changes nothing in what is taken. -/
theorem factorGroups_takes (ignoreCase : Bool) (regex : Regex) (text : List Char) :
    (regex.factorGroups.FirstTakes ignoreCase text ↔ regex.FirstTakes ignoreCase text) ∧
      (regex.factorGroups.OtherTakes ignoreCase text ↔ regex.OtherTakes ignoreCase text) := by
  induction regex generalizing text with
  | done => exact ⟨Iff.rfl, Iff.rfl⟩
  | bar rest ih =>
      refine ⟨Iff.rfl, ?_⟩
      simp only [factorGroups, OtherTakes, (ih text).1, (ih text).2]
  | symbol s quantifier rest ih =>
      refine ⟨?_, (ih text).2⟩
      simp only [factorGroups, FirstTakes, (ih _).1]
  | group inner quantifier rest ihinner ihrest =>
      refine ⟨?_, (ihrest text).2⟩
      have hinner : ∀ single, inner.factorGroups.factorTop.FirstTakes ignoreCase single ∨
          inner.factorGroups.factorTop.OtherTakes ignoreCase single ↔
            inner.FirstTakes ignoreCase single ∨ inner.OtherTakes ignoreCase single := by
        intro single
        have h := factorTop_takes ignoreCase inner.factorGroups single
        rw [Takes, Takes, (ihinner single).1, (ihinner single).2] at h
        exact h
      simp only [factorGroups, FirstTakes, hinner, (ihrest _).1]

/-- Left factoring changes nothing in what is taken. -/
theorem leftFactor_takes (ignoreCase : Bool) (regex : Regex) (text : List Char) :
    regex.leftFactor.Takes ignoreCase text ↔ regex.Takes ignoreCase text := by
  rw [leftFactor, factorTop_takes, Takes, Takes, (factorGroups_takes ignoreCase regex text).1,
    (factorGroups_takes ignoreCase regex text).2]

end NetPattern.Regex
