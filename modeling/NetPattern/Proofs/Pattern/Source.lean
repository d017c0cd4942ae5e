import NetPattern.Proofs.Cidr.Classification
import NetPattern.Proofs.Fragment.Phrase
import NetPattern.Proofs.Pattern
import NetPattern.Proofs.Runs

/-!
# The sources of patterns

The rows of a range are made of phrases of the grammar, merged or not, and so is their
alternation. Between anchors or without them its text is read as a regular expression. So nothing
fails once a block is parsed, and every source is a sentence of the grammar.
-/

namespace NetPattern

open Grammar

/-! ### Rows -/

theorem Family.isPhrase_separator (family : Family) : family.separator.IsPhrase := by
  have hvalid : Quantifier.once.valid = true := rfl
  cases family with
  | v4 => exact .symbol (s := .escaped '.') rfl .dot hvalid .once
  | v6 => exact .symbol (s := .literal ':') rfl .colon hvalid .once

/-- Rows and their alternations are made of phrases. -/
theorem PatternSet.keptByRows_isPhrase : KeptByRows Fragment.IsPhrase where
  nil := .nil
  union := .union
  fragment form low high _ _ := form.isPhrase_fragment low high
  separator := Family.isPhrase_separator
  append := .append
  group _ h := .group h

/-! ### Sources -/

/-- Whether a source is written in the grammar: a phrase, between anchors exactly if it is to be
anchored, and no character besides. -/
structure IsSentence (anchored : Bool) (source : List Char) : Prop where
  exists_phrase : ∃ body, Phrase false body ∧
    source = if anchored then '^' :: body ++ ['$'] else body
  mem_alphabet : ∀ c ∈ source, c ∈ alphabet ∨ anchored = true ∧ (c = '^' ∨ c = '$')

/-- A phrase is a sentence, with anchors put around it or as it stands. -/
theorem Fragment.IsPhrase.isSentence {body : Fragment} (h : body.IsPhrase) (anchored : Bool) :
    IsSentence anchored (if anchored then '^' :: body ++ ['$'] else body) := by
  refine ⟨⟨body, h.phrase, rfl⟩, ?_⟩
  intro c hc
  split at hc
  next hanchored =>
    rw [List.mem_append, List.mem_cons, List.mem_singleton] at hc
    rcases hc with (rfl | hc) | rfl
    · exact .inr ⟨hanchored, .inl rfl⟩
    · exact .inl (h.phrase.subset_alphabet hc)
    · exact .inr ⟨hanchored, .inr rfl⟩
  next => exact .inl (h.phrase.subset_alphabet hc)

namespace Pattern

theorem sourceOf_injective {body other : Fragment} {options : Options}
    (h : sourceOf body options = sourceOf other options) : body = other := by
  unfold sourceOf at h
  split at h
  · exact List.append_cancel_right (List.cons.inj h).2
  · exact h

end Pattern

namespace Cidr

theorem isPhrase_alternation (cidr : Cidr) (options : Options) :
    (cidr.patternSet options).alternation.IsPhrase :=
  PatternSet.keptByRows_isPhrase.alternation cidr.range options

/-- A block has a pattern whatever the options. -/
theorem exists_compile (cidr : Cidr) (options : Options) :
    ∃ pattern, cidr.compile options = .ok pattern ∧ pattern.source =
      String.ofList (Pattern.sourceOf (cidr.patternSet options).alternation options) := by
  obtain ⟨pattern, hcompile, hsource, -⟩ := cidr.exists_compile_occurs options
  exact ⟨pattern, hcompile, hsource⟩

/-- The one pattern of a block is also its only pattern for a row, and its source is a sentence. -/
theorem exists_compile_isSentence (cidr : Cidr) (options : Options) :
    ∃ pattern, cidr.compile options = .ok pattern ∧
      Pattern.eachRow (cidr.patternSet options) options = .ok [pattern] ∧
        IsSentence options.anchored pattern.source.toList := by
  obtain ⟨pattern, hcompile, hsource⟩ := cidr.exists_compile options
  refine ⟨pattern, hcompile, ?_, ?_⟩
  · rw [Pattern.eachRow_singleton (cidr.rows_patternSet options) options]
    exact congrArg (Except.map fun pattern => [pattern]) hcompile
  · rw [hsource, String.toList_ofList]
    exact (cidr.isPhrase_alternation options).isSentence options.anchored

end Cidr

theorem compile_eq_of_parse {text : String} {cidr : Cidr} (hparse : Cidr.parse text = .ok cidr)
    (options : Options) : compile text options = cidr.compile options := by
  rw [compile_eq_bind, hparse]
  rfl

/-- Only parsing fails, and never as a refused regular expression. Every source is a sentence of
the grammar, also that of a block of any two numbers. -/
theorem only_parse_fails :
    (∀ (text : String) (options : Options) (e : CidrError),
      (compile text options = .error e ↔ Cidr.parse text = .error e) ∧
        (compileEach text options = .error e ↔ Cidr.parse text = .error e) ∧
          (patternSet text options = .error e ↔ Cidr.parse text = .error e)) ∧
      (∀ text message : String, Cidr.parse text ≠ .error (.regexRefused message)) ∧
      (∀ (cidr : Cidr) (options : Options), ∃ pattern, cidr.compile options = .ok pattern ∧
        IsSentence options.anchored pattern.source.toList) ∧
      ∀ (text : String) (options : Options),
        (∀ pattern, compile text options = .ok pattern →
          IsSentence options.anchored pattern.source.toList) ∧
          (∀ patterns, compileEach text options = .ok patterns →
            ∀ pattern ∈ patterns, IsSentence options.anchored pattern.source.toList) ∧
          ∀ set, patternSet text options = .ok set → IsSentence false set.alternation := by
  refine ⟨?_, Cidr.parse_ne_regexRefused, ?_, ?_⟩
  · intro text options e
    rw [compile_eq_bind, compileEach_eq_bind, patternSet_eq_bind]
    refine ⟨bind_eq_error_iff ?_, bind_eq_error_iff ?_, bind_eq_error_iff ?_⟩
    · intro cidr
      obtain ⟨pattern, hcompile, -⟩ := cidr.exists_compile_isSentence options
      exact ⟨pattern, hcompile⟩
    · intro cidr
      obtain ⟨pattern, -, hrows, -⟩ := cidr.exists_compile_isSentence options
      exact ⟨[pattern], hrows⟩
    · exact fun cidr => ⟨cidr.patternSet options, rfl⟩
  · intro cidr options
    obtain ⟨pattern, hcompile, -, hsentence⟩ := cidr.exists_compile_isSentence options
    exact ⟨pattern, hcompile, hsentence⟩
  · intro text options
    refine ⟨?_, ?_, ?_⟩
    · intro pattern h
      rw [compile_eq_bind] at h
      obtain ⟨cidr, -, hpattern⟩ := exists_of_bind_eq_ok h
      obtain ⟨only, hcompile, -, hsentence⟩ := cidr.exists_compile_isSentence options
      rw [hcompile] at hpattern
      exact Except.ok.inj hpattern ▸ hsentence
    · intro patterns h pattern hmem
      rw [compileEach_eq_bind] at h
      obtain ⟨cidr, -, hpatterns⟩ := exists_of_bind_eq_ok h
      obtain ⟨only, -, hrows, hsentence⟩ := cidr.exists_compile_isSentence options
      rw [hrows] at hpatterns
      rw [← Except.ok.inj hpatterns, List.mem_singleton] at hmem
      exact hmem ▸ hsentence
    · intro set h
      rw [patternSet_eq_bind] at h
      obtain ⟨cidr, -, hset⟩ := exists_of_bind_eq_ok h
      obtain rfl := Except.ok.inj hset
      exact (cidr.isPhrase_alternation options).isSentence false

/-- A prefix length that is too large, and a block whose prefix ends within a digit. -/
theorem only_parse_fails_prefix :
    Cidr.parse "10.0.0.0/33" = .error (.prefixOutOfRange "33" 32) ∧
      compile "10.0.0.0/33" {} = .error (.prefixOutOfRange "33" 32) ∧
        ∃ pattern, compile "2001:DB8::/30" {} = .ok pattern ∧
          IsSentence true pattern.source.toList := by
  have hfails : Cidr.parse "10.0.0.0/33" = .error (.prefixOutOfRange "33" 32) := by decide
  have hparse : Cidr.parse "2001:DB8::/30" = .ok ⟨.v6, 0x20010db8 <<< 96, 30⟩ := by decide
  refine ⟨hfails, (only_parse_fails.1 _ {} _).1.mpr hfails, ?_⟩
  obtain ⟨pattern, hcompile, hsentence⟩ :=
    only_parse_fails.2.2.1 ⟨.v6, 0x20010db8 <<< 96, 30⟩ {}
  exact ⟨pattern, (compile_eq_of_parse hparse {}).trans hcompile, hsentence⟩

end NetPattern
