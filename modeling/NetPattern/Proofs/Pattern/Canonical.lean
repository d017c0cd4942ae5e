import NetPattern.Proofs.Cidr
import NetPattern.Proofs.Pattern.Parsed
import NetPattern.Proofs.Pattern.Source

/-!
# The source of a pattern is a normal form

The source of a pattern is built from the range of a block alone, and it takes the written forms
of the addresses of this range and no others. So it stands for the range, and with the prefix
length within the width of the family the range stands for the network.
-/

namespace NetPattern

/-! ### Ranges -/

namespace Family

variable {family other : Family} {leadingZeros : Bool} {address address' : Nat}
  {text : List Char}

/-- A text without a joiner is a single part, and a written address has a part for each segment. -/
theorem joiner_mem_of_writes (h : family.Writes leadingZeros address text) :
    family.joiner ∈ text := by
  obtain ⟨parts, rfl, hparts⟩ := h
  by_contra hjoiner
  have hsplit := splitOn_intercalate_of_writes (family.segments_ne_nil address) hparts
  have hlength := hparts.length_eq
  rw [List.splitOn_eq_singleton hjoiner] at hsplit
  rw [length_segments, ← hsplit, List.length_singleton] at hlength
  cases family <;> exact absurd hlength (by decide)

theorem mem_of_writes (h : family.Writes leadingZeros address text) {c : Char} (hc : c ∈ text) :
    c = family.joiner ∨ Numeral.hexDigit? c ≠ none := by
  obtain ⟨parts, rfl, hparts⟩ := h
  refine (mem_of_mem_intercalate hc).imp_right fun hmem => ?_
  obtain ⟨part, hpart, hc⟩ := hmem
  have hdigits := forall_mem_of_forall₂ hparts.flip fun part segment hwrites =>
    SegmentForm.Writes.hexDigit?_ne_none hwrites
  exact hdigits part hpart c hc

/-- The two families have no written address in common. -/
theorem eq_of_writes (h : family.Writes leadingZeros address text)
    (h' : other.Writes leadingZeros address' text) : family = other := by
  have hjoiner : family.joiner = other.joiner :=
    (mem_of_writes h' (joiner_mem_of_writes h)).resolve_right fun hdigit =>
      hdigit family.hexDigit?_joiner
  cases family <;> cases other <;> first | rfl | exact absurd hjoiner (by decide)

/-- A text is a written form of one address of a family at most. -/
theorem address_eq_of_writes (haddress : address < family.size) (haddress' : address' < family.size)
    (h : family.Writes leadingZeros address text)
    (h' : family.Writes leadingZeros address' text) : address = address' := by
  have hread := (writes_iff_readAddress.mp ⟨h, haddress⟩).2
  rw [(writes_iff_readAddress.mp ⟨h', haddress'⟩).2] at hread
  exact (Except.ok.inj hread).symm

end Family

namespace Range

variable {range other : Range} {leadingZeros : Bool}

theorem contains_of_written
    (h : ∀ text, range.Written leadingZeros text → other.Written leadingZeros text)
    {address : Nat} (hcontains : range.contains address = true) :
    range.family = other.family ∧ other.contains address = true := by
  obtain ⟨text, hwrites⟩ := range.family.exists_writes leadingZeros address
  obtain ⟨address', hcontains', hwrites'⟩ := h text ⟨address, hcontains, hwrites⟩
  have hfamily := Family.eq_of_writes hwrites hwrites'
  have haddress := lt_size_of_contains hcontains
  rw [hfamily] at hwrites haddress
  rw [Family.address_eq_of_writes haddress (lt_size_of_contains hcontains') hwrites hwrites']
  exact ⟨hfamily, hcontains'⟩

/-- A range whose addresses all have a written form in another range lies in it. -/
theorem le_of_written
    (h : ∀ text, range.Written leadingZeros text → other.Written leadingZeros text) :
    range.family = other.family ∧ other.first ≤ range.first ∧ range.last ≤ other.last := by
  have hfirst := (range.contains_iff range.first).mpr ⟨Nat.le_refl _, range.first_le_last⟩
  have hlast := (range.contains_iff range.last).mpr ⟨range.first_le_last, Nat.le_refl _⟩
  exact ⟨(contains_of_written h hfirst).1,
    ((other.contains_iff _).mp (contains_of_written h hfirst).2).1,
    ((other.contains_iff _).mp (contains_of_written h hlast).2).2⟩

/-- The written forms of its addresses tell a range from all others. -/
theorem eq_of_written_iff
    (h : ∀ text, range.Written leadingZeros text ↔ other.Written leadingZeros text) :
    range = other := by
  obtain ⟨hfamily, hfirst, hlast⟩ := le_of_written fun text => (h text).mp
  obtain ⟨-, hfirst', hlast'⟩ := le_of_written fun text => (h text).mpr
  cases range
  cases other
  cases hfamily
  cases Nat.le_antisymm hfirst' hfirst
  cases Nat.le_antisymm hlast hlast'
  rfl

end Range

/-! ### Networks -/

namespace Cidr

variable {cidr other : Cidr}

/-- Clearing the host bits does not change the range. -/
theorem network_range (cidr : Cidr) : cidr.network.range = cidr.range := by
  have hsize : cidr.firstAddress < cidr.family.size :=
    Nat.lt_of_lt_of_le (Nat.lt_add_of_pos_right cidr.blockSize_pos) cidr.firstAddress_add_le
  have hfirst : cidr.network.firstAddress = cidr.firstAddress := by
    show cidr.firstAddress % cidr.family.size / cidr.blockSize * cidr.blockSize = cidr.firstAddress
    rw [Nat.mod_eq_of_lt hsize, firstAddress, Nat.mul_div_cancel _ cidr.blockSize_pos]
  have hblock : cidr.network.blockSize = cidr.blockSize := rfl
  have hfamily : cidr.network.family = cidr.family := rfl
  simp only [range, hfirst, hblock, hfamily]

/-- Blocks with prefixes that fit their families have one network if they have one range. -/
theorem network_eq_iff (hlength : cidr.prefixLength ≤ cidr.family.bits)
    (hlength' : other.prefixLength ≤ other.family.bits) :
    cidr.network = other.network ↔ cidr.range = other.range := by
  constructor
  · intro h
    rw [← network_range cidr, h, network_range]
  · intro h
    have hfamily : cidr.family = other.family := congrArg Range.family h
    have hfirst : cidr.firstAddress = other.firstAddress := congrArg Range.first h
    have hlast : cidr.firstAddress + (cidr.blockSize - 1) =
        other.firstAddress + (other.blockSize - 1) := congrArg Range.last h
    -- Ranges of one size leave as many bits free.
    have hblock : cidr.blockSize = other.blockSize := by
      have := cidr.blockSize_pos
      have := other.blockSize_pos
      omega
    have hbits : cidr.hostBits = other.hostBits := by
      rw [blockSize, blockSize, Nat.one_shiftLeft, Nat.one_shiftLeft] at hblock
      exact Nat.pow_right_injective (Nat.le_refl 2) hblock
    have hprefix : cidr.prefixLength = other.prefixLength := by
      rw [hostBits, hostBits, hfamily] at hbits
      rw [hfamily] at hlength
      omega
    rw [network, network, h, hfamily, hprefix]

theorem compile_eq_of_range_eq (h : cidr.range = other.range) (options : Options) :
    cidr.compile options = other.compile options := by
  rw [compile_eq, compile_eq, patternSet_eq, patternSet_eq, h]

/-- The alternation of the rows of a block tells its range. -/
theorem range_eq_of_alternation_eq {options : Options}
    (h : (cidr.patternSet options).alternation = (other.patternSet options).alternation) :
    cidr.range = other.range := by
  have hdenotes : Fragment.Denotes true (cidr.patternSet options).alternation
      (cidr.range.Written options.leadingZeros) :=
    (cidr.exact_patternSet options).denotes_alternation fun _ => rfl
  have hdenotes' : Fragment.Denotes true (other.patternSet options).alternation
      (other.range.Written options.leadingZeros) :=
    (other.exact_patternSet options).denotes_alternation fun _ => rfl
  rw [h] at hdenotes
  exact Range.eq_of_written_iff fun text =>
    (hdenotes.matches_iff text).symm.trans (hdenotes'.matches_iff text)

/-- A network is parsed back from its text. -/
theorem parse_display_network (hlength : cidr.prefixLength ≤ cidr.family.bits) :
    parse cidr.network.display = .ok cidr.network := by
  have hsize : cidr.firstAddress < cidr.family.size :=
    Nat.lt_of_le_of_lt cidr.range.first_le_last cidr.range.last_lt
  have hparse := @parse_display cidr.network hsize hlength "" "" nofun nofun
  rwa [String.empty_append, String.append_empty] at hparse

end Cidr

/-- Under the same options the patterns of two texts have the same source exactly if the texts
denote the same network, and a text has the pattern that its network has. -/
theorem compile_source_eq_iff_network_eq {text text' : String} {cidr cidr' : Cidr}
    (options : Options) (hparse : Cidr.parse text = .ok cidr)
    (hparse' : Cidr.parse text' = .ok cidr') :
    (∃ pattern pattern', compile text options = .ok pattern ∧
      compile text' options = .ok pattern' ∧
        (pattern.source = pattern'.source ↔ cidr.network = cidr'.network)) ∧
      compile cidr.network.display options = compile text options := by
  have hlength := Cidr.prefixLength_le_of_parse hparse
  have hlength' := Cidr.prefixLength_le_of_parse hparse'
  obtain ⟨pattern, hcompile, hsource⟩ := cidr.exists_compile options
  obtain ⟨pattern', hcompile', hsource'⟩ := cidr'.exists_compile options
  rw [compile_eq_of_parse hparse, compile_eq_of_parse hparse',
    compile_eq_of_parse (Cidr.parse_display_network hlength)]
  refine ⟨⟨pattern, pattern', hcompile, hcompile', ?_⟩,
    Cidr.compile_eq_of_range_eq cidr.network_range options⟩
  rw [Cidr.network_eq_iff hlength hlength', hsource, hsource', String.ofList_inj]
  constructor
  · exact fun h => Cidr.range_eq_of_alternation_eq (Pattern.sourceOf_injective h)
  · intro h
    rw [Cidr.patternSet_eq, Cidr.patternSet_eq, h]

/-- Two spellings of one network, with other host bits and a dotted quad in one of them. -/
theorem compile_source_eq_iff_network_eq_spellings :
    Cidr.parse " 0:0:0:0:0:FFFF:A01:203/104 " = .ok ⟨.v6, 0xffff0a010203, 104⟩ ∧
      Cidr.parse "::ffff:10.9.8.7/104" = .ok ⟨.v6, 0xffff0a090807, 104⟩ ∧
        (∃ pattern pattern', compile " 0:0:0:0:0:FFFF:A01:203/104 " {} = .ok pattern ∧
          compile "::ffff:10.9.8.7/104" {} = .ok pattern' ∧
            (pattern.source = pattern'.source ↔
              (⟨.v6, 0xffff0a010203, 104⟩ : Cidr).network =
                (⟨.v6, 0xffff0a090807, 104⟩ : Cidr).network)) ∧
          compile (⟨.v6, 0xffff0a010203, 104⟩ : Cidr).network.display {} =
            compile " 0:0:0:0:0:FFFF:A01:203/104 " {} := by
  have hparse : Cidr.parse " 0:0:0:0:0:FFFF:A01:203/104 " = .ok ⟨.v6, 0xffff0a010203, 104⟩ := by
    decide
  have hparse' : Cidr.parse "::ffff:10.9.8.7/104" = .ok ⟨.v6, 0xffff0a090807, 104⟩ := by decide
  exact ⟨hparse, hparse', compile_source_eq_iff_network_eq {} hparse hparse'⟩

end NetPattern
