import NetPattern.Pattern
import NetPattern.Proofs.PatternSet
import NetPattern.Proofs.Row.Aligned

/-!
# Patterns of blocks

An anchored pattern matches the written forms of the addresses of its block and nothing else. The
rows of a block collapse into one, so one pattern for all rows and a pattern for each are the same.
-/

namespace NetPattern

open Fragment

namespace Cidr

theorem exact_patternSet (cidr : Cidr) (options : Options) :
    (cidr.patternSet options).Exact cidr.range options.leadingZeros :=
  (PatternSet.exact_ofRange cidr.range options).collapse

section Tree

variable (cidr : Cidr) (options : Options) {tree : Regex} (hvalid : tree.valid = true)
  (hrender : tree.render = (cidr.patternSet options).alternation)

include hvalid hrender

/-- The pattern of a block runs the tree of its alternation, left factored. -/
theorem compile_eq_ok (hsingle : tree.isSingle = true) :
    cidr.compile options = .ok
      ⟨String.ofList (Pattern.sourceOf (cidr.patternSet options).alternation options),
        cidr.family, options.global,
        ⟨options.ignoreCase || cidr.family == .v6, options.anchored, tree.leftFactor⟩⟩ := by
  rw [PatternSet.alternation] at hrender
  have hread := read?_sourceOf hvalid hsingle hrender (options.ignoreCase || cidr.family == .v6)
    options
  rw [← PatternSet.alternation] at hread
  have hfamily : (cidr.patternSet options).family = cidr.family :=
    (cidr.exact_patternSet options).family_eq
  rw [compile_eq, Pattern.ofSet, Pattern.ofBody, hfamily]
  simp only [hread]

/-- The tree takes the written forms of the addresses of the block. -/
theorem takes_iff_written (text : List Char) :
    tree.Takes (options.ignoreCase || cidr.family == .v6) text ↔
      cidr.range.Written options.leadingZeros text := by
  have hexact := cidr.exact_patternSet options
  have hcase : (cidr.patternSet options).family = .v6 →
      (options.ignoreCase || cidr.family == .v6) = true := by
    intro hv6
    have hfamily : cidr.family = .v6 := hexact.family_eq.symm.trans hv6
    rw [hfamily]
    exact Bool.or_true _
  rw [← matchesWhole_render _ hvalid, hrender, (hexact.denotes_alternation hcase).matches_iff]

end Tree

/-- A block has a pattern, which matches where a written form of an address of the block occurs. -/
theorem exists_compile_occurs (cidr : Cidr) (options : Options) :
    ∃ pattern, cidr.compile options = .ok pattern ∧
      pattern.source =
        String.ofList (Pattern.sourceOf (cidr.patternSet options).alternation options) ∧
      ∀ input, pattern.isMatch input = true ↔
        Occurs options.anchored (cidr.range.Written options.leadingZeros) input.toList := by
  obtain ⟨tree, hvalid, hsingle, hrender⟩ :=
    ((cidr.exact_patternSet options).denotes_alternation fun _ => rfl).isSingle
  refine ⟨_, cidr.compile_eq_ok options hvalid hrender hsingle, rfl, fun input => ?_⟩
  rw [Pattern.isMatch, Program.isMatch_iff (Regex.leftFactor_valid hvalid)]
  refine Occurs.congr (fun text => ?_) input.toList
  rw [Regex.leftFactor_takes, cidr.takes_iff_written options hvalid hrender]

/-- The anchored pattern of a block matches the written forms of its addresses. -/
theorem exists_compile_anchored (cidr : Cidr) {options : Options}
    (hanchored : options.anchored = true) :
    ∃ pattern, cidr.compile options = .ok pattern ∧
      ∀ input, pattern.isMatch input = true ↔
        cidr.range.Written options.leadingZeros input.toList := by
  obtain ⟨pattern, hcompile, -, hmatch⟩ := cidr.exists_compile_occurs options
  rw [hanchored] at hmatch
  exact ⟨pattern, hcompile, hmatch⟩

end Cidr

/-- The anchored pattern of a block matches a text if the text is a written form of an address
between the bounds of the block, and no other text. -/
theorem compile_matches_written_addresses {text : String} {cidr : Cidr} {options : Options}
    (hparse : Cidr.parse text = .ok cidr) (hanchored : options.anchored = true) :
    ∃ pattern, compile text options = .ok pattern ∧
      ∀ input : String, pattern.isMatch input = true ↔
        ∃ address, cidr.range.first ≤ address ∧ address ≤ cidr.range.last ∧
          cidr.family.Writes options.leadingZeros address input.toList := by
  obtain ⟨pattern, hcompile, hmatch⟩ := cidr.exists_compile_anchored hanchored
  refine ⟨pattern, ?_, ?_⟩
  · rw [compile_eq_bind, hparse]
    exact hcompile
  · intro input
    rw [hmatch]
    simp only [Range.Written, Range.contains_iff, and_assoc]
    rfl

/-- A block whose range is not that of its own address. -/
theorem compile_matches_written_addresses_host_bits :
    Cidr.parse "10.1.2.3/9" = .ok ⟨.v4, 167838211, 9⟩ ∧
      ∃ pattern, compile "10.1.2.3/9" {} = .ok pattern ∧
        ∀ input : String, pattern.isMatch input = true ↔
          ∃ address, 167772160 ≤ address ∧ address ≤ 176160767 ∧
            Family.v4.Writes false address input.toList := by
  have hparse : Cidr.parse "10.1.2.3/9" = .ok ⟨.v4, 167838211, 9⟩ := by decide
  exact ⟨hparse, compile_matches_written_addresses hparse rfl⟩

namespace Cidr

theorem aligned_top (cidr : Cidr) (options : Options) :
    Aligned (SegmentForm.of cidr.family options.leadingZeros).top cidr.range.firstSegments
      cidr.range.lastSegments := by
  rw [← Family.segmentMax_eq_top]
  exact cidr.aligned

theorem rows_patternSet (cidr : Cidr) (options : Options) :
    (cidr.patternSet options).rows =
      [Row.closedForm (.of cidr.family options.leadingZeros)
        (fun l h => Fragment.union
          (Row.splitFragments (.of cidr.family options.leadingZeros) l h))
        cidr.range.firstSegments cidr.range.lastSegments] :=
  Row.collapse_aligned (cidr.range.segmentBounds options.leadingZeros) (cidr.aligned_top options)

theorem rows_patternSet_v4 (cidr : Cidr) (options : Options) (hv4 : cidr.family = .v4) :
    (cidr.patternSet options).rows =
      [Row.closedForm (.of cidr.family options.leadingZeros)
        (Fragment.octetRange options.leadingZeros)
        cidr.range.firstSegments cidr.range.lastSegments] := by
  have hbounds : SegmentBounds (SegmentForm.of cidr.family options.leadingZeros).top
      cidr.family.segmentCount cidr.range.firstSegments cidr.range.lastSegments :=
    cidr.range.segmentBounds options.leadingZeros
  have haligned := cidr.aligned_top options
  have hform : SegmentForm.of cidr.family options.leadingZeros = .octet options.leadingZeros := by
    rw [hv4]
    rfl
  rw [rows_patternSet]
  rw [hform] at hbounds haligned ⊢
  rw [Row.closedForm_octets hbounds haligned]

end Cidr

theorem Pattern.eachRow_singleton {set : PatternSet} {row : Row} (hrows : set.rows = [row])
    (options : Options) :
    eachRow set options = (ofSet set options).map fun pattern => [pattern] := by
  rw [eachRow, ofSet, PatternSet.alternation, hrows]
  simp only [List.mapM_cons, List.mapM_nil, List.map_cons, List.map_nil]
  cases ofBody (Fragment.group [row.render set.family]) set.family options <;> rfl

/-- The rows of a block collapse into one that is read off the segments of its bounds: these agree
up to one segment, behind which they leave nothing out, and for IPv4 this segment has the fragment
of its whole range. So a text has a pattern for each row exactly if it has one for all rows, and
it is the same one. -/
theorem block_collapses_to_closed_form :
    (∀ (cidr : Cidr) (options : Options),
      Aligned (SegmentForm.of cidr.family options.leadingZeros).top cidr.range.firstSegments
          cidr.range.lastSegments ∧
        (cidr.patternSet options).rows =
          [Row.closedForm (.of cidr.family options.leadingZeros)
            (fun l h => Fragment.union
              (Row.splitFragments (.of cidr.family options.leadingZeros) l h))
            cidr.range.firstSegments cidr.range.lastSegments] ∧
        (cidr.family = .v4 →
          (cidr.patternSet options).rows =
            [Row.closedForm (.of cidr.family options.leadingZeros)
              (Fragment.octetRange options.leadingZeros)
              cidr.range.firstSegments cidr.range.lastSegments])) ∧
      ∀ (text : String) (options : Options),
        compileEach text options = (compile text options).map fun pattern => [pattern] := by
  refine ⟨?_, ?_⟩
  · intro cidr options
    exact ⟨cidr.aligned_top options, cidr.rows_patternSet options, cidr.rows_patternSet_v4 options⟩
  · intro text options
    rw [compileEach_eq_bind, compile_eq_bind]
    cases hparse : Cidr.parse text with
    | error e => rfl
    | ok cidr => exact Pattern.eachRow_singleton (cidr.rows_patternSet options) options

end NetPattern
