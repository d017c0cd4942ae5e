import NetPattern.Proofs.Pattern.Canonical
import NetPattern.Proofs.Pattern.Case
import NetPattern.Proofs.Search

/-!
# Searching for addresses

Without anchors a pattern reports written forms of addresses of its block only, and overlaps every
one that occurs. Written IPv6 addresses are all of one length, so one that stands apart is reported
as it is or not at all.
-/

namespace NetPattern

namespace Family

/-- Whether a character may stand in a written address of the family. -/
def isAddressChar (family : Family) (c : Char) : Bool :=
  c == family.joiner ||
    match family with
    | v4 => c.isDigit
    | v6 => (Numeral.hexDigit? c).isSome

variable {family : Family} {leadingZeros : Bool} {address : Nat} {text : List Char}

theorem isAddressChar_of_writes (h : family.Writes leadingZeros address text) :
    ∀ c ∈ text, family.isAddressChar c = true := by
  intro c hc
  cases family with
  | v4 =>
      obtain ⟨parts, rfl, hparts⟩ := h
      rcases mem_of_mem_intercalate hc with rfl | ⟨part, hpart, hmem⟩
      · rfl
      · have hdigits : ∀ part ∈ parts, ∀ c ∈ part, c.isDigit = true := by
          refine forall_mem_of_forall₂ hparts.flip fun part segment hwrites c hc => ?_
          obtain ⟨ds, hds, -, rfl⟩ := SegmentForm.writes_octet_iff.mp hwrites
          obtain ⟨d, hd, rfl⟩ := List.mem_map.mp hc
          exact Numeral.isDigit_digitChar (hds.lt_ten d hd)
        rw [isAddressChar, hdigits part hpart c hmem, Bool.or_true]
  | v6 =>
      rcases mem_of_writes h hc with rfl | hread
      · rfl
      · rw [isAddressChar, Option.isSome_iff_ne_none.mpr hread, Bool.or_true]

theorem ne_nil_of_writes (h : family.Writes leadingZeros address text) : text ≠ [] :=
  List.ne_nil_of_mem (joiner_mem_of_writes h)

/-- Written addresses are ASCII texts. -/
theorem byteLength_of_writes (h : family.Writes leadingZeros address text) :
    byteLength text = text.length := by
  apply byteLength_eq_length
  intro c hc
  have hsmall : c.toNat < 128 := by
    rcases mem_of_writes h hc with rfl | hread
    · cases family <;> decide
    · obtain ⟨d, hd⟩ := Option.ne_none_iff_exists'.mp hread
      have := Numeral.hexDigit?_eq_some_iff.mp hd
      omega
  exact Char.utf8Size_eq_one_iff.mpr (UInt32.le_iff_toNat_le.mpr (Nat.le_of_lt_succ hsmall))

/-- An IPv6 address has a single length, so no part of a written form is another one. -/
theorem eq_of_writes_part {address' : Nat} {front inner back : List Char}
    (h : v6.Writes leadingZeros address (front ++ (inner ++ back)))
    (hinner : v6.Writes leadingZeros address' inner) : front = [] ∧ back = [] := by
  have hlength := length_of_writes h
  simp only [List.length_append, length_of_writes hinner] at hlength
  exact ⟨List.length_eq_zero_iff.mp (by omega), List.length_eq_zero_iff.mp (by omega)⟩

end Family

namespace Range

variable {range : Range} {leadingZeros : Bool} {text : List Char}

theorem Written.isAddressChar (h : range.Written leadingZeros text) :
    ∀ c ∈ text, range.family.isAddressChar c = true := by
  obtain ⟨address, -, hwrites⟩ := h
  exact Family.isAddressChar_of_writes hwrites

theorem Written.ne_nil (h : range.Written leadingZeros text) : text ≠ [] := by
  obtain ⟨address, -, hwrites⟩ := h
  exact Family.ne_nil_of_writes hwrites

/-- A written form of an address is one of a range exactly if the address is in the range. -/
theorem written_iff_contains {address : Nat} (haddress : address < range.family.size)
    (hwrites : range.family.Writes leadingZeros address text) :
    range.Written leadingZeros text ↔ range.contains address = true := by
  constructor
  · intro h
    obtain ⟨other, hcontains, hother⟩ := h
    rwa [Family.address_eq_of_writes haddress (lt_size_of_contains hcontains) hwrites hother]
  · intro h
    exact ⟨address, h, hwrites⟩

end Range

/-- Without anchors the source of a block, as it is written, searches for the written forms of its
addresses. -/
theorem Cidr.exists_compile_searches (cidr : Cidr) {options : Options}
    (hanchored : options.anchored = false) :
    ∃ pattern written, cidr.compile options = .ok pattern ∧
      Program.readWritten? pattern.program.ignoreCase pattern.source.toList = some written ∧
      pattern.program = written.leftFactor ∧
      written.Searches (cidr.range.Written options.leadingZeros) := by
  obtain ⟨tree, hvalid, hsingle, hrender⟩ :=
    ((cidr.exact_patternSet options).denotes_alternation fun _ => rfl).isSingle
  refine ⟨_, ⟨options.ignoreCase || cidr.family == .v6, options.anchored, tree⟩,
    cidr.compile_eq_ok options hvalid hrender hsingle, ?_, rfl, ?_⟩
  · rw [String.toList_ofList]
    exact Fragment.readWritten?_sourceOf hvalid hsingle hrender _ options
  · exact {
      valid := hvalid
      anchored_eq := hanchored
      takes_iff := cidr.takes_iff_written options hvalid hrender
      ne_nil := Range.Written.ne_nil }

/-- What a search for the addresses of a range finds in a text, whichever match is preferred. -/
structure Program.Finds (program : Program) (range : Range) (leadingZeros : Bool)
    (text : List Char) : Prop where
  pairwise_precedes : (program.spans text).Pairwise Span.Precedes
  /-- What is reported is a written form of an address of the range. -/
  written_of_mem : ∀ span ∈ program.spans text, ∃ before piece after,
    text = before ++ (piece ++ after) ∧ span = .behind before piece ∧
      range.Written leadingZeros piece
  /-- Every written form of an address of the range is overlapped. -/
  exists_overlaps : ∀ before piece after, text = before ++ (piece ++ after) →
    range.Written leadingZeros piece →
      ∃ span ∈ program.spans text, span.Overlaps (.behind before piece)
  isMatch_iff : program.isMatch text = true ↔
    ∃ piece, piece <:+: text ∧ range.Written leadingZeros piece
  stop_eq : range.family = .v6 → ∀ span ∈ program.spans text, span.stop = span.start + 39
  /-- A written IPv6 address that stands apart is reported as it is or not at all. -/
  mem_iff_contains : range.family = .v6 → ∀ address < Family.v6.size, ∀ before piece after,
    text = before ++ (piece ++ after) → Family.v6.Writes leadingZeros address piece →
      StandsApart Family.v6.isAddressChar before after →
        (Span.behind before piece ∈ program.spans text ↔ range.contains address = true) ∧
        (range.contains address = false →
          ∀ span ∈ program.spans text, ¬ span.Overlaps (.behind before piece))

/-- Whatever searches for the written forms of the addresses of a range finds them. -/
theorem Program.Searches.finds {program : Program} {range : Range} {leadingZeros : Bool}
    (h : program.Searches (range.Written leadingZeros)) (text : List Char) :
    program.Finds range leadingZeros text where
  pairwise_precedes := h.pairwise_precedes text
  written_of_mem := by
    intro span hspan
    obtain ⟨before, piece, after, htext, hprefers, rfl⟩ := h.exists_of_mem_spans hspan
    exact ⟨before, piece, after, htext, rfl, h.language_of_prefers hprefers⟩
  exists_overlaps := by
    intro before piece after htext hwritten
    rw [htext]
    exact h.exists_overlaps hwritten before after
  isMatch_iff := h.isMatch_iff text
  stop_eq := by
    intro hv6 span hspan
    obtain ⟨before, piece, after, -, hprefers, rfl⟩ := h.exists_of_mem_spans hspan
    obtain ⟨address, -, hwrites⟩ := h.language_of_prefers hprefers
    rw [Span.behind, byteLength_append, Family.byteLength_of_writes hwrites,
      Family.length_of_writes (hv6 ▸ hwrites)]
  mem_iff_contains := by
    intro hv6 address haddress before piece after htext hwrites hapart
    have hwhole : ∀ front inner back, piece = front ++ (inner ++ back) →
        range.Written leadingZeros inner → front = [] ∧ back = [] := by
      intro front inner back heq hinner
      obtain ⟨other, -, hother⟩ := hinner
      exact Family.eq_of_writes_part (heq ▸ hwrites) (hv6 ▸ hother)
    have hcontains : range.Written leadingZeros piece ↔ range.contains address = true :=
      Range.written_iff_contains (hv6.symm ▸ haddress) (hv6.symm ▸ hwrites)
    rw [htext, ← hcontains, ← Bool.not_eq_true, ← hcontains]
    exact h.behind_mem_spans_iff (fun text htext => hv6 ▸ htext.isAddressChar) hapart hwhole

/-- Without anchors a pattern reports, from left to right and without overlaps, written forms of
addresses of its block, it overlaps each of them that occurs, and it matches where there is one. For
IPv6 every report is 39 bytes long, and a written address that stands apart from digits and colons
is reported exactly if it is in the block, and otherwise nothing that overlaps it is. Where several
written forms start at one place, the left-factored body decides which one is reported. The same is
found where alternatives are tried in the order in which the source has them. -/
theorem compile_reports_written_addresses {text : String} {cidr : Cidr} {options : Options}
    (hparse : Cidr.parse text = .ok cidr) (hanchored : options.anchored = false) :
    ∃ pattern, compile text options = .ok pattern ∧
      (∀ input : String,
        (pattern.spans input).Pairwise Span.Precedes ∧
        (∀ span ∈ pattern.spans input, ∃ before piece after,
          input.toList = before ++ (piece ++ after) ∧ span = .behind before piece ∧
            cidr.range.Written options.leadingZeros piece) ∧
        (∀ before piece after, input.toList = before ++ (piece ++ after) →
          cidr.range.Written options.leadingZeros piece →
            ∃ span ∈ pattern.spans input, span.Overlaps (.behind before piece)) ∧
        (pattern.isMatch input = true ↔
          ∃ piece, piece <:+: input.toList ∧ cidr.range.Written options.leadingZeros piece) ∧
        (cidr.family = .v6 →
          (∀ span ∈ pattern.spans input, span.stop = span.start + 39) ∧
          ∀ address < Family.v6.size, ∀ before piece after,
            input.toList = before ++ (piece ++ after) →
            Family.v6.Writes options.leadingZeros address piece →
            StandsApart Family.v6.isAddressChar before after →
              (Span.behind before piece ∈ pattern.spans input ↔
                cidr.range.contains address = true) ∧
              (cidr.range.contains address = false →
                ∀ span ∈ pattern.spans input, ¬ span.Overlaps (.behind before piece)))) ∧
      ∃ written,
        Program.readWritten? pattern.program.ignoreCase pattern.source.toList = some written ∧
        ∀ input : String, written.Finds cidr.range options.leadingZeros input.toList := by
  obtain ⟨pattern, written, hcompile, hread, hprogram, hsearches⟩ :=
    cidr.exists_compile_searches hanchored
  refine ⟨pattern, (compile_eq_of_parse hparse options).trans hcompile, fun input => ?_,
    written, hread, fun input => hsearches.finds input.toList⟩
  have hfinds : pattern.program.Finds cidr.range options.leadingZeros input.toList :=
    hprogram ▸ hsearches.leftFactor.finds input.toList
  exact ⟨hfinds.pairwise_precedes, hfinds.written_of_mem, hfinds.exists_overlaps,
    hfinds.isMatch_iff, fun hv6 => ⟨hfinds.stop_eq hv6, hfinds.mem_iff_contains hv6⟩⟩

/-- An address in upper case, with a word on one side and the end of a sentence on the other. -/
theorem compile_reports_written_addresses_upper_case :
    Cidr.parse "2001:db8::/127" = .ok ⟨.v6, 0x20010db8000000000000000000000000, 127⟩ ∧
      ∃ pattern, compile "2001:db8::/127" { anchored := false } = .ok pattern ∧
        Span.behind "at ".toList "2001:0DB8:0000:0000:0000:0000:0000:0001".toList ∈
          pattern.spans "at 2001:0DB8:0000:0000:0000:0000:0000:0001." := by
  have hparse : Cidr.parse "2001:db8::/127" =
      .ok ⟨.v6, 0x20010db8000000000000000000000000, 127⟩ := by decide
  have hanchored : Options.anchored { anchored := false } = false := rfl
  obtain ⟨pattern, hcompile, hsearch, -⟩ := compile_reports_written_addresses hparse hanchored
  refine ⟨hparse, pattern, hcompile, ?_⟩
  obtain ⟨-, -, -, -, hv6⟩ := hsearch "at 2001:0DB8:0000:0000:0000:0000:0000:0001."
  obtain ⟨hwrites, haddress⟩ : Family.v6.Writes false 0x20010db8000000000000000000000001
      "2001:0DB8:0000:0000:0000:0000:0000:0001".toList ∧
        0x20010db8000000000000000000000001 < Family.v6.size :=
    Family.writes_iff_readAddress.mpr ⟨by decide, by decide⟩
  obtain ⟨hreported, -⟩ := (hv6 rfl).2 _ haddress "at ".toList _ ".".toList (by decide) hwrites
    (by decide)
  exact hreported.mpr (by decide)

/-- Which matches a search finds may still depend on the order. -/
example : (Program.readWritten? false "(?:0?0|0?1)".toList).map (·.spans "01".toList) =
      some [⟨0, 1⟩, ⟨1, 2⟩] ∧
    (Program.read? false "(?:0?0|0?1)".toList).map (·.spans "01".toList) = some [⟨0, 2⟩] := by
  decide

end NetPattern
