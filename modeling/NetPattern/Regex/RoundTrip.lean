import NetPattern.Regex.Reader

/-!
# Reading back what is written

The text of a valid expression is cut into the tokens that its tree lists, and these are
assembled into the same tree. So distinct valid expressions have distinct texts.
-/

namespace NetPattern

/-- The tokens that the text of a quantifier is cut into. -/
def Quantifier.tokens : Quantifier → List Token
  | once => []
  | quantifier => [.quantifier quantifier]

/-- The tokens that the text of an expression is cut into. -/
def Regex.tokens : Regex → List Token
  | done => []
  | bar rest => .bar :: rest.tokens
  | symbol s quantifier rest => .symbol s :: quantifier.tokens ++ rest.tokens
  | group inner quantifier rest =>
      .opening :: inner.tokens ++ .closing :: quantifier.tokens ++ rest.tokens

namespace Token

/-- The characters of a bracket class are read up to its closing bracket. -/
theorem scan_bracket {content : List Char} (hvalid : Bracket.valid content = true)
    (more : List Char) :
    scan (.bracket []) (content ++ ']' :: more) =
      (scan .plain more).map (.symbol (.bracket content) :: ·) := by
  have hclosing : ']' ∉ content := by
    simp only [Bracket.valid, Bool.and_eq_true, decide_eq_true_eq] at hvalid
    exact hvalid.1.1.2
  have hseen : ∀ seen rest, ']' ∉ rest → Bracket.valid (seen.reverse ++ rest) = true →
      scan (.bracket seen) (rest ++ ']' :: more) =
        (scan .plain more).map (.symbol (.bracket (seen.reverse ++ rest)) :: ·) := by
    intro seen rest hrest hvalid
    induction rest generalizing seen with
    | nil =>
        rw [List.append_nil] at hvalid ⊢
        simp [scan, hvalid]
    | cons c rest ih =>
        have hc : c ≠ ']' := fun h => hrest (h ▸ List.mem_cons_self)
        rw [List.cons_append, scan, if_neg hc,
          ih _ (fun h => hrest (List.mem_cons_of_mem _ h)) (by simpa using hvalid)]
        simp
  simpa using hseen [] content hclosing (by simpa using hvalid)

/-- The counts of a quantifier are read up to the closing brace. -/
theorem scan_braces {quantifier : Quantifier} {text : List Char} (hbrace : '}' ∉ text)
    (h : Quantifier.ofCounts? text = some quantifier) (more : List Char) :
    scan (.braces []) (text ++ '}' :: more) =
      (scan .plain more).map (.quantifier quantifier :: ·) := by
  have hseen : ∀ seen rest, '}' ∉ rest → Quantifier.ofCounts? (seen.reverse ++ rest) =
      some quantifier → scan (.braces seen) (rest ++ '}' :: more) =
        (scan .plain more).map (.quantifier quantifier :: ·) := by
    intro seen rest hrest h
    induction rest generalizing seen with
    | nil =>
        rw [List.append_nil] at h
        simp [scan, h]
    | cons c rest ih =>
        have hc : c ≠ '}' := fun h => hrest (h ▸ List.mem_cons_self)
        rw [List.cons_append, scan, if_neg hc]
        exact ih _ (fun h => hrest (List.mem_cons_of_mem _ h)) (by simpa using h)
  exact hseen [] text hbrace (by simpa using h)

end Token

/-- The counts of a quantifier are read back. -/
theorem Quantifier.ofCounts?_counts {quantifier : Quantifier} (hvalid : quantifier.valid = true)
    (hcounts : quantifier.counts ≠ []) :
    ofCounts? quantifier.counts = some quantifier := by
  have hcomma : ∀ n, ',' ∉ Numeral.decimal n := fun n => Numeral.not_mem_decimal (by decide)
  have hsplit : ∀ n, (Numeral.decimal n).splitOn ',' = [Numeral.decimal n] :=
    fun n => List.splitOn_eq_singleton (hcomma n)
  cases quantifier with
  | exactly count =>
      simp [ofCounts?, counts, hsplit, Numeral.decimal?_decimal, valid]
  | atLeast least =>
      have h : (Numeral.decimal least ++ [',']).splitOn ',' = [Numeral.decimal least, []] := by
        rw [List.splitOn_append_cons_self_of_not_mem (hcomma least)]
        simp
      simp [ofCounts?, counts, h, Numeral.decimal?_decimal, valid]
  | between least most =>
      have h : (Numeral.decimal least ++ ',' :: Numeral.decimal most).splitOn ',' =
          [Numeral.decimal least, Numeral.decimal most] := by
        rw [List.splitOn_append_cons_self_of_not_mem (hcomma least), hsplit]
      obtain ⟨c, digits, hdigits⟩ := List.exists_cons_of_ne_nil (Numeral.decimal_ne_nil most)
      simp only [ofCounts?, counts, h]
      rw [hdigits]
      simp only [← hdigits, Numeral.decimal?_decimal]
      simp [hvalid]
  | _ => simp [counts] at hcounts

namespace Token

/-- The text of a valid quantifier is cut into its tokens. -/
theorem scan_quantifier {quantifier : Quantifier} (hvalid : quantifier.valid = true)
    (more : List Char) :
    scan .plain (quantifier.render ++ more) =
      (scan .plain more).map (quantifier.tokens ++ ·) := by
  have hbraces : quantifier.counts ≠ [] →
      scan .plain ('{' :: quantifier.counts ++ '}' :: more) =
        (scan .plain more).map (.quantifier quantifier :: ·) := by
    intro hcounts
    have hbrace : '}' ∉ quantifier.counts := by
      have h : ∀ n, '}' ∉ Numeral.decimal n := fun n => Numeral.not_mem_decimal (by decide)
      cases quantifier <;> simp [Quantifier.counts, h]
    have := scan_braces hbrace (Quantifier.ofCounts?_counts hvalid hcounts) more
    simpa [scan] using this
  cases quantifier with
  | once => simp [Quantifier.render, Quantifier.tokens]
  | optional => simp [Quantifier.render, Quantifier.tokens, scan, ofChar?]
  | star => simp [Quantifier.render, Quantifier.tokens, scan, ofChar?]
  | plus => simp [Quantifier.render, Quantifier.tokens, scan, ofChar?]
  | exactly count =>
      simpa [Quantifier.render, Quantifier.tokens] using
        hbraces (by simp [Quantifier.counts, Numeral.decimal_ne_nil])
  | atLeast least =>
      simpa [Quantifier.render, Quantifier.tokens] using
        hbraces (by simp [Quantifier.counts, Numeral.decimal_ne_nil])
  | between least most =>
      simpa [Quantifier.render, Quantifier.tokens] using
        hbraces (by simp [Quantifier.counts, Numeral.decimal_ne_nil])

/-- The text of a valid symbol is one token. -/
theorem scan_symbol {s : Symbol} (hvalid : s.valid = true) (more : List Char) :
    scan .plain (s.render ++ more) = (scan .plain more).map (.symbol s :: ·) := by
  cases s with
  | literal c =>
      have hmeta : isMeta c = false := by simpa [Symbol.valid] using hvalid
      have hne : ∀ d, isMeta d = true → c ≠ d := by
        rintro d hd rfl
        rw [hmeta] at hd
        exact Bool.noConfusion hd
      simp [Symbol.render, scan, ofChar?, hmeta, hne '\\' (by decide), hne '(' (by decide),
        hne '[' (by decide), hne '{' (by decide), hne ')' (by decide), hne '|' (by decide),
        hne '?' (by decide), hne '*' (by decide), hne '+' (by decide)]
  | escaped c =>
      have hc : c.isAlphanum = false := by simpa [Symbol.valid] using hvalid
      simp [Symbol.render, scan, hc]
  | bracket content =>
      have := scan_bracket hvalid more
      simpa [Symbol.render, scan] using this

/-- The text of a valid expression is cut into its tokens. -/
theorem scan_render {regex : Regex} (hvalid : regex.valid = true) (more : List Char) :
    scan .plain (regex.render ++ more) = (scan .plain more).map (regex.tokens ++ ·) := by
  induction regex generalizing more with
  | done => simp [Regex.render, Regex.tokens]
  | bar rest ih =>
      simp [Regex.render, Regex.tokens, scan, ofChar?, ih hvalid]
      rfl
  | symbol s quantifier rest ih =>
      simp only [Regex.valid, Bool.and_eq_true] at hvalid
      simp only [Regex.render, Regex.tokens, List.append_assoc, List.cons_append]
      rw [scan_symbol hvalid.1.1, scan_quantifier hvalid.1.2, ih hvalid.2]
      simp [Function.comp_def]
  | group inner quantifier rest ihinner ihrest =>
      simp only [Regex.valid, Bool.and_eq_true] at hvalid
      simp only [Regex.render, Regex.tokens, List.append_assoc, List.cons_append, scan, reduceIte,
        Char.reduceEq]
      rw [ihinner hvalid.1.1]
      simp only [scan, ofChar?, reduceIte, Char.reduceEq, Option.bind_some]
      rw [scan_quantifier hvalid.1.2, ihrest hvalid.2]
      simp [Function.comp_def]

end Token

namespace Regex

/-- The tokens of an expression are assembled into it, in front of what stands behind them. -/
theorem foldrM_tokens (regex current : Regex) (outer : List (Quantifier × Regex)) :
    regex.tokens.foldrM Assembly.add ⟨none, current, outer⟩ =
      some ⟨none, regex ++ current, outer⟩ := by
  induction regex generalizing current outer with
  | done => rfl
  | bar rest ih => simp [tokens, List.foldrM_cons, ih, Assembly.add]
  | symbol s quantifier rest ih =>
      simp only [tokens, List.cons_append, List.foldrM_cons, List.foldrM_append, ih]
      cases quantifier <;> simp [Quantifier.tokens, Assembly.add]
  | group inner quantifier rest ihinner ihrest =>
      simp only [tokens, List.cons_append, List.append_assoc, List.foldrM_cons,
        List.foldrM_append, ihrest]
      cases quantifier <;> simp [Quantifier.tokens, Assembly.add, ihinner]

/-- The text of a valid expression is read back as it. -/
theorem read?_render {regex : Regex} (hvalid : regex.valid = true) :
    read? regex.render = some regex := by
  have hscan := Token.scan_render hvalid []
  rw [List.append_nil] at hscan
  have hfold := foldrM_tokens regex done []
  rw [append_done] at hfold
  rw [read?, hscan]
  simp [Token.scan, ofTokens?, Assembly.start, hfold, Assembly.finish?]

/-- Valid expressions of one text are the same. -/
theorem render_injective {first second : Regex} (hfirst : first.valid = true)
    (hsecond : second.valid = true) (h : first.render = second.render) : first = second :=
  Option.some.inj ((read?_render hfirst).symm.trans (h ▸ read?_render hsecond))

end Regex

end NetPattern
