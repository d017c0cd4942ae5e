import NetPattern.Fragment.Basic
import NetPattern.Regex.LeftFactor.Language

/-!
# Scanning the text of an expression

The scanner of fragments knows nothing of expressions: it counts parentheses and looks at the
characters between them. On the text of an expression, whose symbols may be any that end where the
scanner takes them to end, it finds the alternatives of the tree, and it finds a single group
exactly where the tree is one.
-/

namespace NetPattern

/-- Whether a symbol ends where the scanner takes it to end: a literal means nothing to it, and what
stands in brackets does not close them. Any character may be escaped. -/
def Symbol.IsDelimited : Symbol → Prop
  | literal c => c ∉ ['\\', '[', '(', ')', '|']
  | escaped _ => True
  | bracket content => ']' ∉ content

theorem Symbol.isDelimited_of_valid {s : Symbol} (h : s.valid = true) : s.IsDelimited := by
  cases s with
  | literal c =>
      have hsubset : ['\\', '[', '(', ')', '|'] ⊆
          ['\\', '.', '+', '*', '?', '(', ')', '|', '[', '{', '^', '$'] := by decide
      have hliteral : isMeta c = false := by simpa [Symbol.valid] using h
      exact fun hmem => of_decide_eq_false hliteral (hsubset hmem)
  | escaped c => trivial
  | bracket content =>
      simp only [Symbol.valid, Bracket.valid, Bool.and_eq_true, decide_eq_true_eq] at h
      exact h.1.1.2

/-- Whether each symbol of an expression ends where the scanner takes it to end. -/
abbrev Regex.IsDelimited (regex : Regex) : Prop :=
  regex.All Symbol.IsDelimited (fun _ => True) fun _ => True

theorem Regex.isDelimited_of_valid {regex : Regex} (h : regex.valid = true) :
    regex.IsDelimited :=
  (valid_iff_all.mp h).imp (fun _ => Symbol.isDelimited_of_valid) (fun _ _ => trivial)
    fun _ _ => trivial

namespace Fragment

/-- The place behind a text, unless the scanner meets the character `stop` where no group is
open. -/
def walk (stop : Char) : Place → List Char → Option Place
  | place, [] => some place
  | place, c :: rest =>
      if place = .start ∧ c = stop then none else walk stop (place.next c) rest

theorem walk_append {stop : Char} {place middle : Place} {first : List Char}
    (h : walk stop place first = some middle) (second : List Char) :
    walk stop place (first ++ second) = walk stop middle second := by
  induction first generalizing place with
  | nil =>
      obtain rfl := Option.some.inj h
      rfl
  | cons c rest ih =>
      rw [walk] at h
      rw [List.cons_append, walk]
      split at h
      · exact nomatch h
      next hstop => rw [if_neg hstop, ih h]

theorem alternativesFrom_ne_nil (place : Place) (text : List Char) :
    alternativesFrom place text ≠ [] := by
  induction text generalizing place with
  | nil => exact List.cons_ne_nil _ _
  | cons c rest ih =>
      rw [alternativesFrom]
      split
      · exact List.cons_ne_nil _ _
      · exact mt List.modifyHead_eq_nil_iff.mp (ih _)

/-- No bar outside groups is met, so the text belongs to the first of the alternatives. -/
theorem alternativesFrom_append {place after : Place} {text : List Char}
    (h : walk '|' place text = some after) (more : List Char) :
    alternativesFrom place (text ++ more) =
      (alternativesFrom after more).modifyHead (text ++ ·) := by
  induction text generalizing place with
  | nil =>
      obtain rfl := Option.some.inj h
      cases halternatives : alternativesFrom place more <;> simp [halternatives]
  | cons c rest ih =>
      rw [walk] at h
      split at h
      · exact nomatch h
      next hstop =>
        rw [List.cons_append, alternativesFrom, if_neg hstop, ih h, List.modifyHead_modifyHead]
        rfl

/-- No group is closed in the text that was open before it. -/
theorem closesFrom_append {place after : Place} {text : List Char}
    (h : walk ')' place text = some after) (more : List Char) :
    closesFrom place (text ++ more) = closesFrom after more := by
  induction text generalizing place with
  | nil =>
      obtain rfl := Option.some.inj h
      rfl
  | cons c rest ih =>
      rw [walk] at h
      split at h
      · exact nomatch h
      next hstop => rw [List.cons_append, closesFrom, if_neg hstop, ih h]

section Walk

variable {stop : Char} (hstop : stop = '|' ∨ stop = ')') (depth : Nat)

include hstop

/-- Characters without a meaning to the scanner leave it where it is. -/
theorem walk_plain {text : List Char}
    (h : ∀ c ∈ text, c ∉ ['\\', '[', '(', ')', '|']) :
    walk stop ⟨.plain, depth⟩ text = some ⟨.plain, depth⟩ := by
  induction text with
  | nil => rfl
  | cons c rest ih =>
      have hc := h c List.mem_cons_self
      have hrest := ih fun d hd => h d (List.mem_cons_of_mem _ hd)
      simp only [List.mem_cons, List.not_mem_nil, or_false, not_or] at hc
      have hne : c ≠ stop := by
        rcases hstop with rfl | rfl
        · exact hc.2.2.2.2
        · exact hc.2.2.2.1
      rw [walk, if_neg fun hboth => hne hboth.2]
      simpa [Place.next, hc] using hrest

omit hstop in
/-- A bracket class is left behind at its closing bracket. -/
theorem walk_bracket {content : List Char} (h : ']' ∉ content) :
    walk stop ⟨.bracket, depth⟩ (content ++ [']']) = some ⟨.plain, depth⟩ := by
  induction content with
  | nil => simp [walk, Place.next, Place.start]
  | cons c rest ih =>
      have hc : c ≠ ']' := fun heq => h (heq ▸ List.mem_cons_self)
      have hrest := ih fun hmem => h (List.mem_cons_of_mem _ hmem)
      simpa [walk, Place.next, Place.start, hc] using hrest

theorem walk_symbol {s : Symbol} (h : s.IsDelimited) :
    walk stop ⟨.plain, depth⟩ s.render = some ⟨.plain, depth⟩ := by
  cases s with
  | literal c =>
      apply walk_plain hstop
      intro d hd
      obtain rfl := List.mem_singleton.mp hd
      exact h
  | escaped c =>
      have hne : '\\' ≠ stop := by rcases hstop with rfl | rfl <;> decide
      simp [Symbol.render, walk, Place.next, Place.start, hne]
  | bracket content =>
      have hne : '[' ≠ stop := by rcases hstop with rfl | rfl <;> decide
      have hclosing := @walk_bracket stop depth content h
      simpa [Symbol.render, walk, Place.next, Place.start, hne] using hclosing

theorem walk_quantifier (quantifier : Quantifier) :
    walk stop ⟨.plain, depth⟩ quantifier.render = some ⟨.plain, depth⟩ := by
  apply walk_plain hstop
  have hcounts : ∀ c ∈ quantifier.counts, c.isDigit = true ∨ c = ',' := by
    intro c hc
    cases quantifier <;>
      simp only [Quantifier.counts, List.mem_append, List.mem_cons, List.not_mem_nil, or_false]
        at hc
    case exactly => exact .inl (Numeral.isDigit_of_mem_decimal hc)
    case atLeast => exact hc.imp_left Numeral.isDigit_of_mem_decimal
    case between =>
      rcases hc with hc | hc | hc
      · exact .inl (Numeral.isDigit_of_mem_decimal hc)
      · exact .inr hc
      · exact .inl (Numeral.isDigit_of_mem_decimal hc)
  intro c hc hmeta
  have hchar : (c.isDigit = true ∨ c = ',') ∨ c ∈ ['?', '*', '+', '{', '}'] := by
    cases quantifier <;>
      simp only [Quantifier.render, List.mem_append, List.mem_cons, List.not_mem_nil, or_false]
        at hc
    case exactly | atLeast | between =>
      rcases hc with (rfl | hc) | rfl
      · simp
      · exact .inl (hcounts c hc)
      · simp
    all_goals simp [hc]
  simp only [List.mem_cons, List.not_mem_nil, or_false] at hmeta
  rcases hmeta with rfl | rfl | rfl | rfl | rfl <;> revert hchar <;> decide

/-- The scanner passes the text of an expression without leaving the groups it started in. It
meets a bar there only in front of all groups and only where the expression has one. -/
theorem walk_render {regex : Regex} (hdelimited : regex.IsDelimited)
    (hsingle : stop = '|' → depth = 0 → regex.isSingle = true) :
    walk stop ⟨.plain, depth⟩ regex.render = some ⟨.plain, depth⟩ := by
  induction regex generalizing depth with
  | done => rfl
  | bar rest ih =>
      -- A tree with a bar is not single, so the scan starts inside a group or looks for its end.
      have hpass : ¬ ((⟨.plain, depth⟩ : Place) = .start ∧ '|' = stop) := by
        intro h
        exact Bool.noConfusion (hsingle h.2.symm (congrArg Place.depth h.1))
      have hrest := ih depth hdelimited fun hbar hzero => nomatch hsingle hbar hzero
      rw [Regex.render, walk, if_neg hpass]
      simpa [Place.next] using hrest
  | symbol s quantifier rest ih =>
      obtain ⟨hs, -, hrest⟩ := hdelimited
      rw [Regex.render, List.append_assoc, walk_append (walk_symbol hstop depth hs),
        walk_append (walk_quantifier hstop depth quantifier)]
      exact ih depth hrest hsingle
  | group inner quantifier rest ihinner ihrest =>
      obtain ⟨hinner, -, hrest⟩ := hdelimited
      have hne : '(' ≠ stop := by rcases hstop with rfl | rfl <;> decide
      have hopen : walk stop ⟨.plain, depth⟩ ['(', '?', ':'] = some ⟨.plain, depth + 1⟩ := by
        simp [walk, Place.next, Place.start, hne]
      have hclose : walk stop ⟨.plain, depth + 1⟩ [')'] = some ⟨.plain, depth⟩ := by
        simp [walk, Place.next, Place.start]
      -- Bars inside the group do not stop the scan, which is then not in front of all groups.
      have hinside := ihinner (depth + 1) hinner fun _ h => absurd h (Nat.succ_ne_zero _)
      have htext : (Regex.group inner quantifier rest).render =
          ['(', '?', ':'] ++ (inner.render ++ ([')'] ++ (quantifier.render ++ rest.render))) := by
        simp [Regex.render]
      rw [htext, walk_append hopen, walk_append hinside, walk_append hclose,
        walk_append (walk_quantifier hstop depth quantifier)]
      exact ihrest depth hrest hsingle

end Walk

/-- The alternatives found in a text are the texts of the alternatives of its tree. -/
theorem alternatives_render {regex : Regex} (hdelimited : regex.IsDelimited) :
    alternatives regex.render = regex.alternatives.map Regex.render := by
  have hitem : ∀ item rest : Regex, item.IsDelimited → item.isSingle = true →
      alternatives (item.render ++ rest.render) =
        (alternatives rest.render).modifyHead (item.render ++ ·) :=
    fun _ _ hitem hsingle =>
      alternativesFrom_append (walk_render (.inl rfl) 0 hitem fun _ _ => hsingle) _
  induction regex with
  | done => rfl
  | bar rest ih =>
      have hrest : alternatives ('|' :: rest.render) = [] :: alternatives rest.render := by
        rw [alternatives, alternativesFrom, if_pos ⟨rfl, rfl⟩]
        rfl
      rw [Regex.render, hrest, ih hdelimited]
      rfl
  | symbol s quantifier rest ih =>
      obtain ⟨hs, -, hrest⟩ := hdelimited
      have h := hitem (.symbol s quantifier .done) rest ⟨hs, trivial, trivial⟩ rfl
      rw [← Regex.render_append, Regex.symbol_append, Regex.done_append, ih hrest] at h
      rw [h, Regex.alternatives]
      cases rest.alternatives <;> simp [Regex.render]
  | group inner quantifier rest _ ih =>
      obtain ⟨hinner, -, hrest⟩ := hdelimited
      have h := hitem (.group inner quantifier .done) rest ⟨hinner, trivial, trivial⟩ rfl
      rw [← Regex.render_append, Regex.group_append, Regex.done_append, ih hrest] at h
      rw [h, Regex.alternatives]
      cases rest.alternatives <;> simp [Regex.render]

theorem ungroup?_of_head_ne {c : Char} {rest : List Char} (h : c ≠ '(') :
    ungroup? (c :: rest) = none := by
  unfold ungroup?
  split
  next heq => exact absurd (List.cons.inj heq).1 h
  · rfl

/-- A text that is a group and nothing else is found to be one. -/
theorem ungroup?_group {inner : Regex} (hdelimited : inner.IsDelimited) :
    ungroup? (Regex.group inner .once .done).render = some inner.render := by
  have hcloses : closesFrom .start inner.render = true := by
    have h :=
      closesFrom_append (walk_render (.inr rfl) 0 hdelimited fun h => absurd h (by decide)) []
    rwa [List.append_nil] at h
  have htext : (Regex.group inner .once .done).render =
      '(' :: '?' :: ':' :: (inner.render ++ [')']) := by
    simp [Regex.render, Quantifier.render]
  rw [htext, ungroup?, if_pos ⟨by simp, by simpa using hcloses⟩]
  simp

theorem quantifier_render_ne_nil {quantifier : Quantifier} (h : quantifier ≠ .once) :
    quantifier.render ≠ [] := by
  cases quantifier <;> simp_all [Quantifier.render]

theorem symbol_render_ne_nil (s : Symbol) : s.render ≠ [] := by
  cases s <;> simp [Symbol.render]

theorem render_eq_nil_iff {regex : Regex} : regex.render = [] ↔ regex = .done := by
  cases regex <;> simp [Regex.render, symbol_render_ne_nil]

/-- A text that is more than a group, or something else, is not taken for one. -/
theorem ungroup?_eq_none {regex : Regex} (hdelimited : regex.IsDelimited)
    (h : ∀ inner, regex ≠ .group inner .once .done) : ungroup? regex.render = none := by
  cases regex with
  | done => rfl
  | bar rest => exact ungroup?_of_head_ne (by decide)
  | symbol s quantifier rest =>
      cases s with
      | literal c =>
          apply ungroup?_of_head_ne
          rintro rfl
          exact absurd hdelimited.1 (by simp [Symbol.IsDelimited])
      | escaped c => exact ungroup?_of_head_ne (by decide)
      | bracket content => exact ungroup?_of_head_ne (by decide)
  | group inner quantifier rest =>
      have htail : quantifier.render ++ rest.render ≠ [] := by
        intro hnil
        obtain ⟨hquantifier, hrest⟩ := List.append_eq_nil_iff.mp hnil
        apply h inner
        rw [render_eq_nil_iff.mp hrest,
          Classical.byContradiction fun hne => quantifier_render_ne_nil hne hquantifier]
      -- Something stands behind the group, so its parenthesis is not the one that is dropped.
      have hdrop : (inner.render ++ ')' :: (quantifier.render ++ rest.render)).dropLast =
          inner.render ++ ')' :: (quantifier.render ++ rest.render).dropLast := by
        rw [List.dropLast_append_of_ne_nil (List.cons_ne_nil _ _),
          List.dropLast_cons_of_ne_nil htail]
      have hcloses : closesFrom .start
          (inner.render ++ ')' :: (quantifier.render ++ rest.render).dropLast) = false := by
        have hwalk := walk_render (.inr rfl) 0 hdelimited.1 fun h => absurd h (by decide)
        refine (closesFrom_append hwalk _).trans ?_
        rw [closesFrom, if_pos ⟨rfl, rfl⟩]
      have htext : (Regex.group inner quantifier rest).render =
          '(' :: '?' :: ':' :: (inner.render ++ ')' :: (quantifier.render ++ rest.render)) := by
        simp [Regex.render]
      rw [htext, ungroup?, hdrop, hcloses, if_neg (by simp)]

end Fragment

end NetPattern
