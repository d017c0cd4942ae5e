import Mathlib.Tactic.IntervalCases
import NetPattern.Proofs.Pattern.Search
import NetPattern.Proofs.Prefix
import NetPattern.Proofs.Row.Preference

/-!
# Dotted quads that stand apart

A search does not know where an address ends. It reports the dotted quad of an address of its block
as a whole, unless the block lists its octets from zero on, where single digits come first. Of any
other dotted quad it reports what is left without some digits at the front and at the back, where
this is a written form of an address of the block.
-/

namespace NetPattern

/-- Two texts that are cut at their last separator are the same if their parts are. -/
theorem eq_of_append_cons_eq {α : Type} {c : α} {first second before after : List α}
    (hsecond : c ∉ second) (hafter : c ∉ after)
    (h : first ++ c :: second = before ++ c :: after) : first = before ∧ second = after := by
  rcases List.append_eq_append_iff.mp h with ⟨more, rfl, heq⟩ | ⟨more, rfl, heq⟩
  · cases more with
    | nil => exact ⟨(List.append_nil first).symm, (List.cons.inj heq).2⟩
    | cons d more =>
        rw [(List.cons.inj heq).2] at hsecond
        exact absurd (List.mem_append_right more List.mem_cons_self) hsecond
  · cases more with
    | nil => exact ⟨List.append_nil before, (List.cons.inj heq).2.symm⟩
    | cons d more =>
        rw [(List.cons.inj heq).2] at hafter
        exact absurd (List.mem_append_right more List.mem_cons_self) hafter

/-- Between parts there is one separator fewer than there are parts. -/
theorem count_intercalate {c : Char} {parts : List (List Char)} (hne : parts ≠ [])
    (h : ∀ part ∈ parts, c ∉ part) : ([c].intercalate parts).count c + 1 = parts.length := by
  induction parts with
  | nil => exact absurd rfl hne
  | cons part parts ih =>
      obtain ⟨hpart, hparts⟩ := List.forall_mem_cons.mp h
      have hnone : part.count c = 0 := List.count_eq_zero.mpr hpart
      by_cases hnil : parts = []
      · subst hnil
        rw [List.intercalate_singleton, hnone, List.length_singleton]
      · rw [List.intercalate_cons_of_ne_nil hnil, List.count_append, List.count_append, hnone,
          List.count_singleton_self, List.length_cons, ← ih hnil hparts]
        omega

/-- Written IPv4 addresses have three dots. -/
theorem Family.count_dot_of_writes {leadingZeros : Bool} {address : Nat} {text : List Char}
    (h : v4.Writes leadingZeros address text) : text.count '.' = 3 := by
  obtain ⟨parts, rfl, hparts⟩ := h
  have hdot : ∀ part ∈ parts, '.' ∉ part := by
    refine forall_mem_of_forall₂ hparts.flip fun part segment hwrites hmem => ?_
    exact SegmentForm.Writes.hexDigit?_ne_none hwrites '.' hmem v4.hexDigit?_joiner
  have hlength : parts.length = 4 := hparts.length_eq.symm.trans (v4.length_segments address)
  have hcount := count_intercalate (List.ne_nil_of_length_pos (hlength ▸ Nat.zero_lt_succ 3)) hdot
  exact Nat.succ.inj (hcount.trans hlength)

namespace DottedQuad

/-- The first three octets of an address, joined by dots. -/
def front (address : Nat) : List Char :=
  ['.'].intercalate ((Positional.digits 256 3 (address / 256)).map Numeral.decimal)

/-- The dotted quad of an address with the first digit only of its last octet. -/
def cutShort (address : Nat) : List Char :=
  front address ++ '.' :: (Numeral.decimal (address % 256)).take 1

theorem write_eq (address : Nat) :
    write address = front address ++ '.' :: Numeral.decimal (address % 256) := by
  have hne : (Positional.digits 256 3 (address / 256)).map Numeral.decimal ≠ [] :=
    List.ne_nil_of_length_pos (by simp)
  rw [write, Positional.digits, List.map_append, List.map_singleton, intercalate_concat hne]
  rfl

theorem writes_write (leadingZeros : Bool) (address : Nat) :
    Family.v4.Writes leadingZeros address (write address) := by
  have hsegments : Family.v4.segments address = Positional.digits 256 4 address := rfl
  refine ⟨_, rfl, ?_⟩
  rw [List.forall₂_map_right_iff, hsegments, List.forall₂_same]
  exact fun octet hoctet => SegmentForm.writes_decimal leadingZeros
    (Nat.le_of_lt_succ (Positional.digits_lt (by decide) hoctet))

/-- Whether a piece is what is left of a text without some digits at its front and at its back. -/
structure Trims (text front piece back : List Char) : Prop where
  eq : text = front ++ (piece ++ back)
  front_digits : ∀ c ∈ front, c.isDigit = true
  back_digits : ∀ c ∈ back, c.isDigit = true

/-- A written address inside a dotted quad has all its dots. -/
theorem trims_of_writes {leadingZeros : Bool} {address other : Nat} {front piece back : List Char}
    (heq : write address = front ++ (piece ++ back))
    (hpiece : Family.v4.Writes leadingZeros other piece) :
    Trims (write address) front piece back := by
  have hall := Family.count_dot_of_writes (writes_write leadingZeros address)
  have hthree := Family.count_dot_of_writes hpiece
  rw [heq, List.count_append, List.count_append] at hall
  have hdigit : ∀ c ∈ write address, c ≠ '.' → c.isDigit = true :=
    fun c hc hne => (mem_write hc).resolve_left hne
  refine ⟨heq, fun c hc => hdigit c ?_ ?_, fun c hc => hdigit c ?_ ?_⟩
  · rw [heq]
    exact List.mem_append_left _ hc
  · rintro rfl
    have := List.count_pos_iff.mpr hc
    omega
  · rw [heq]
    exact List.mem_append_right _ (List.mem_append_right _ hc)
  · rintro rfl
    have := List.count_pos_iff.mpr hc
    omega

end DottedQuad

namespace Cidr

variable (cidr : Cidr)

/-- Whether a search for the block cuts the dotted quad of an address short: the block is part of a
last octet from zero on, and the last octet of the address has more than one digit. -/
def CutsShort (address : Nat) : Prop :=
  24 < cidr.prefixLength ∧ cidr.range.first % 256 = 0 ∧ 10 ≤ address % 256

instance (address : Nat) : Decidable (cidr.CutsShort address) :=
  inferInstanceAs (Decidable (_ ∧ _))

section LastOctet

variable (hv4 : cidr.family = .v4)

include hv4

/-- The bounds of a block of 256 addresses and more have all last octets between them. -/
theorem lastOctets_of_le (h : cidr.prefixLength ≤ 24) :
    cidr.range.first % 256 = 0 ∧ cidr.range.last % 256 = 255 := by
  have hbits : cidr.hostBits = 8 + (24 - cidr.prefixLength) := by
    rw [hostBits, hv4, Family.bits]
    omega
  have hsize : cidr.blockSize = 256 * 2 ^ (24 - cidr.prefixLength) := by
    rw [blockSize_eq_two_pow, hbits, Nat.pow_add]
  have hpos := Nat.two_pow_pos (24 - cidr.prefixLength)
  have hdvd : 256 ∣ cidr.range.first :=
    (Dvd.intro _ hsize.symm).trans (Nat.dvd_mul_left _ _)
  have hlast : cidr.range.last = cidr.range.first + (cidr.blockSize - 1) := rfl
  omega

/-- A smaller block lies within one value of the first three octets. It starts from zero or ends
before twice its start. -/
theorem lastOctets_of_lt (h : 24 < cidr.prefixLength) :
    cidr.range.first / 256 = cidr.range.last / 256 ∧
      cidr.range.last % 256 < cidr.range.first % 256 + 128 ∧
      (cidr.range.first % 256 ≠ 0 → cidr.range.last % 256 < 2 * (cidr.range.first % 256)) := by
  have hbits : cidr.hostBits < 8 := by
    rw [hostBits, hv4, Family.bits]
    omega
  have hfirst : cidr.range.first = cidr.address % cidr.family.size / cidr.blockSize *
      cidr.blockSize := rfl
  have hlast : cidr.range.last = cidr.range.first + (cidr.blockSize - 1) := rfl
  generalize cidr.address % cidr.family.size / cidr.blockSize = block at hfirst
  rw [cidr.blockSize_eq_two_pow] at hfirst hlast
  generalize cidr.hostBits = bits at hbits hfirst hlast
  interval_cases bits <;> omega

theorem lastOctet_lt_two_mul (h : cidr.range.first % 256 ≠ 0) :
    cidr.range.last % 256 < 2 * (cidr.range.first % 256) := by
  have hsmall := Nat.lt_of_not_le fun hwide => h (cidr.lastOctets_of_le hv4 hwide).1
  exact (cidr.lastOctets_of_lt hv4 hsmall).2.2 h

theorem cutsShort_iff {address : Nat} :
    cidr.CutsShort address ↔
      cidr.range.first % 256 = 0 ∧ cidr.range.last % 256 < 255 ∧ 10 ≤ address % 256 := by
  rw [CutsShort]
  by_cases hwide : cidr.prefixLength ≤ 24
  · have := cidr.lastOctets_of_le hv4 hwide
    omega
  · have := cidr.lastOctets_of_lt hv4 (Nat.lt_of_not_le hwide)
    omega

/-- The row of a block ends with the fragment of its last octets. -/
theorem exists_rows_v4 (options : Options) :
    ∃ before : Row, before ≠ [] ∧ (cidr.patternSet options).rows =
      [before ++ [Fragment.octetRange options.leadingZeros (cidr.range.first % 256)
        (cidr.range.last % 256)]] := by
  have hfamily : cidr.range.family = .v4 := hv4
  have hsegments : ∀ address, cidr.range.family.segments address =
      Positional.digits 256 3 (address / 256) ++ [address % 256] := by
    intro address
    rw [hfamily]
    rfl
  have hform : SegmentForm.of cidr.family options.leadingZeros = .octet options.leadingZeros := by
    rw [hv4]
    rfl
  obtain ⟨before, hlength, hclosed⟩ := @Row.exists_closedForm_concat (.octet options.leadingZeros)
    (Positional.digits 256 3 (cidr.range.first / 256))
    (Positional.digits 256 3 (cidr.range.last / 256)) (by simp) (cidr.range.first % 256)
    (cidr.range.last % 256)
  refine ⟨before, List.ne_nil_of_length_pos (by simp [hlength]), ?_⟩
  rw [cidr.rows_patternSet_v4 options hv4, hform, Range.firstSegments, Range.lastSegments,
    hsegments, hsegments]
  exact congrArg (fun row => [row]) hclosed

/-- Where a search for a block takes something, the fragment of its last octets does so behind a
dot, and leaves as much. -/
theorem exists_leavesFirst_of_prefers {options : Options} {pattern : Pattern}
    (hcompile : cidr.compile options = .ok pattern) {piece after : List Char}
    (hprefers : pattern.program.Prefers piece after) :
    ∃ ahead middle, piece ++ after = ahead ++ '.' :: middle ∧
      (Fragment.octetRange options.leadingZeros (cidr.range.first % 256)
        (cidr.range.last % 256)).LeavesFirst pattern.program.ignoreCase middle after := by
  obtain ⟨before, hne, hrows⟩ := cidr.exists_rows_v4 hv4 options
  have hexact := cidr.exact_patternSet options
  have hfragments := hexact.allSingle _ (hrows ▸ List.mem_singleton_self _)
  obtain ⟨hbefore, hlast⟩ := List.forall_mem_append.mp hfragments
  obtain ⟨tree, hvalid, hsingle, hrender⟩ := (hexact.denotes_alternation fun _ => rfl).isSingle
  have hpattern := cidr.compile_eq_ok options hvalid hrender hsingle
  rw [hcompile] at hpattern
  obtain rfl := Except.ok.inj hpattern
  have hfamily : (cidr.patternSet options).family = .v4 := hexact.family_eq.trans hv4
  rw [PatternSet.alternation, hfamily, hrows] at hrender
  exact Row.exists_leavesFirst hne hbefore (hlast _ (List.mem_singleton_self _)) hvalid hrender
    hprefers.head?_eq

/-- The last octets of the bounds have that of an address of the block between them. -/
theorem lastOctet_between {address : Nat} (hcontains : cidr.range.contains address = true) :
    cidr.range.first % 256 ≤ address % 256 ∧ address % 256 ≤ cidr.range.last % 256 := by
  obtain ⟨hfirst, hlast⟩ := (cidr.range.contains_iff address).mp hcontains
  by_cases hwide : cidr.prefixLength ≤ 24
  · have := cidr.lastOctets_of_le hv4 hwide
    omega
  · have := cidr.lastOctets_of_lt hv4 (Nat.lt_of_not_le hwide)
    omega

/-- What a search takes of the dotted quad of an address of the block, where no digit follows. -/
theorem eq_of_prefers_write {options : Options} {pattern : Pattern}
    (hcompile : cidr.compile options = .ok pattern) {address : Nat}
    (hcontains : cidr.range.contains address = true) {taken back after : List Char}
    (hwrite : DottedQuad.write address = taken ++ back) (hback : ∀ c ∈ back, c.isDigit = true)
    (hafter : ∀ c ∈ after.head?, c.isDigit = false)
    (hprefers : pattern.program.Prefers taken (back ++ after)) :
    taken = if cidr.CutsShort address then DottedQuad.cutShort address
      else DottedQuad.write address := by
  obtain ⟨hlow, hhigh⟩ := cidr.lastOctet_between hv4 hcontains
  have hmax : cidr.range.last % 256 ≤ 255 := Nat.le_of_lt_succ (Nat.mod_lt _ (by decide))
  obtain ⟨ahead, middle, htext, hleaves⟩ := cidr.exists_leavesFirst_of_prefers hv4 hcompile hprefers
  obtain ⟨digits, rfl, octet, -, -, hwrites⟩ := hleaves.exists_language
    (Fragment.denotes_octetRange _ options.leadingZeros (Nat.le_trans hlow hhigh) hmax)
  -- The dot is the last one of the quad, as only digits are behind it.
  obtain rfl : taken = ahead ++ '.' :: digits :=
    List.append_cancel_right (htext.trans (by simp) : _ = ahead ++ '.' :: digits ++ (back ++ after))
  have hdigits : '.' ∉ digits ++ back := by
    intro hdot
    rcases List.mem_append.mp hdot with hdot | hdot
    · exact SegmentForm.Writes.hexDigit?_ne_none hwrites '.' hdot rfl
    · exact absurd (hback '.' hdot) (by decide)
  rw [DottedQuad.write_eq, List.append_assoc, List.cons_append] at hwrite
  obtain ⟨rfl, hlast⟩ :=
    eq_of_append_cons_eq (Numeral.not_mem_decimal rfl) hdigits hwrite
  rw [← List.append_assoc, ← hlast] at hleaves
  have hrest := hleaves.octetRange_eq hlow hhigh hmax (cidr.lastOctet_lt_two_mul hv4) hafter
  simp only [← cidr.cutsShort_iff hv4] at hrest
  split at hrest
  next hcut =>
    have htake := List.take_append_drop 1 (Numeral.decimal (address % 256))
    rw [List.drop_one, ← hrest, hlast] at htake
    rw [if_pos hcut, DottedQuad.cutShort, hlast, List.append_cancel_right htake]
  next hwhole =>
    rw [if_neg hwhole, DottedQuad.write_eq, hlast, hrest, List.append_nil]

end LastOctet

end Cidr

/-- A dotted quad that stands apart from digits and dots is reported from its start on if its
address is in the block: as a whole, or with a single digit in its last octet where the block cuts
it short. If the address is not in the block, all that is reported of the quad is written forms of
addresses of the block that are left of it without some digits at the front and at the back, and
there is such a report exactly if there is such a form. -/
theorem compile_reports_quads_apart {text : String} {cidr : Cidr} {options : Options}
    (hparse : Cidr.parse text = .ok cidr) (hv4 : cidr.family = .v4)
    (hanchored : options.anchored = false) :
    ∃ pattern, compile text options = .ok pattern ∧
      ∀ (input : String) (address : Nat) (before after : List Char),
        input.toList = before ++ (DottedQuad.write address ++ after) →
        StandsApart Family.v4.isAddressChar before after →
          (cidr.range.contains address = true →
            Span.behind before (if cidr.CutsShort address then DottedQuad.cutShort address
              else DottedQuad.write address) ∈ pattern.spans input) ∧
          (cidr.range.contains address = false →
            (∀ span ∈ pattern.spans input,
              span.Overlaps (.behind before (DottedQuad.write address)) →
                ∃ front piece back, DottedQuad.Trims (DottedQuad.write address) front piece back ∧
                  cidr.range.Written options.leadingZeros piece ∧
                  span = .behind (before ++ front) piece) ∧
            ((∃ span ∈ pattern.spans input,
                span.Overlaps (.behind before (DottedQuad.write address))) ↔
              ∃ front piece back, DottedQuad.Trims (DottedQuad.write address) front piece back ∧
                cidr.range.Written options.leadingZeros piece)) := by
  obtain ⟨pattern, written, hcompile, -, hprogram, hwritten⟩ :=
    cidr.exists_compile_searches hanchored
  have hsearches : pattern.program.Searches (cidr.range.Written options.leadingZeros) :=
    hprogram ▸ hwritten.leftFactor
  have hfamily : cidr.range.family = .v4 := hv4
  have hkind : ∀ text, cidr.range.Written options.leadingZeros text →
      ∀ c ∈ text, Family.v4.isAddressChar c = true :=
    fun text htext => hfamily ▸ htext.isAddressChar
  have htrims : ∀ {address front piece back}, DottedQuad.write address = front ++ (piece ++ back) →
      cidr.range.Written options.leadingZeros piece →
        DottedQuad.Trims (DottedQuad.write address) front piece back := by
    intro address front piece back heq hwritten
    obtain ⟨other, -, hwrites⟩ := hwritten
    rw [hfamily] at hwrites
    exact DottedQuad.trims_of_writes heq hwrites
  refine ⟨pattern, (compile_eq_of_parse hparse options).trans hcompile, ?_⟩
  intro input address before after htext hapart
  rw [Pattern.spans, htext]
  refine ⟨fun hcontains => ?_, fun _ => ⟨fun span hspan hoverlaps => ?_, ?_⟩⟩
  · have hwritten : cidr.range.Written options.leadingZeros (DottedQuad.write address) :=
      ⟨address, hcontains, hfamily ▸ DottedQuad.writes_write options.leadingZeros address⟩
    obtain ⟨taken, back, heq, hprefers, hspan⟩ :=
      hsearches.exists_prefix_mem_spans hkind hapart hwritten
    have hback :=
      (@htrims address [] taken back heq (hsearches.language_of_prefers hprefers)).back_digits
    have hafter : ∀ c ∈ after.head?, c.isDigit = false := by
      intro c hc
      exact (Bool.or_eq_false_iff.mp (hapart.head?_not c hc)).2
    rwa [← cidr.eq_of_prefers_write hv4 hcompile hcontains heq hback hafter hprefers]
  · obtain ⟨front, piece, back, heq, hprefers, rfl⟩ :=
      hsearches.exists_part hkind hapart hspan hoverlaps
    have hwritten := hsearches.language_of_prefers hprefers
    exact ⟨front, piece, back, htrims heq hwritten, hwritten, rfl⟩
  · rw [hsearches.exists_overlaps_iff hkind hapart]
    constructor
    · intro h
      obtain ⟨front, piece, back, heq, hwritten⟩ := h
      exact ⟨front, piece, back, htrims heq hwritten, hwritten⟩
    · intro h
      obtain ⟨front, piece, back, ⟨heq, -, -⟩, hwritten⟩ := h
      exact ⟨front, piece, back, heq, hwritten⟩

/-- A quad that is reported as a whole in front of a port, and one that is cut short. -/
theorem compile_reports_quads_apart_port :
    Cidr.parse "10.0.0.0/28" = .ok ⟨.v4, 0x0a000000, 28⟩ ∧
      ∃ pattern, compile "10.0.0.0/28" { anchored := false } = .ok pattern ∧
        Span.behind "to ".toList "10.0.0.7".toList ∈ pattern.spans "to 10.0.0.7:80" ∧
        Span.behind [] "10.0.0.1".toList ∈ pattern.spans "10.0.0.12" := by
  have hparse : Cidr.parse "10.0.0.0/28" = .ok ⟨.v4, 0x0a000000, 28⟩ := by decide
  have hanchored : Options.anchored { anchored := false } = false := rfl
  obtain ⟨pattern, hcompile, hsearch⟩ := compile_reports_quads_apart hparse rfl hanchored
  refine ⟨hparse, pattern, hcompile, ?_, ?_⟩
  · exact (hsearch "to 10.0.0.7:80" 0x0a000007 "to ".toList ":80".toList (by decide)
      (by decide)).1 (by decide)
  · exact (hsearch "10.0.0.12" 0x0a00000c [] [] (by decide) (by decide)).1 (by decide)

/-- A quad of an address of its block that is not reported as a whole, and one of an address outside
its block with a report inside. Both make up all of a text. -/
theorem compile_reports_quads_apart_in_part :
    StandsApart Family.v4.isAddressChar [] [] ∧
      (Cidr.parse "10.0.0.0/28" = .ok ⟨.v4, 0x0a000000, 28⟩ ∧
      Range.contains (Cidr.range ⟨.v4, 0x0a000000, 28⟩) 0x0a00000c = true ∧
      DottedQuad.write 0x0a00000c = "10.0.0.12".toList ∧
      Span.behind [] "10.0.0.12".toList = ⟨0, 9⟩ ∧
      (compile "10.0.0.0/28" { anchored := false }).map (fun pattern => pattern.spans "10.0.0.12") =
        .ok [⟨0, 8⟩]) ∧
      Cidr.parse "10.0.0.1/32" = .ok ⟨.v4, 0x0a000001, 32⟩ ∧
      Range.contains (Cidr.range ⟨.v4, 0x0a000001, 32⟩) 0x6e000001 = false ∧
      DottedQuad.write 0x6e000001 = "110.0.0.1".toList ∧
      Span.behind [] "110.0.0.1".toList = ⟨0, 9⟩ ∧
      (compile "10.0.0.1/32" { anchored := false }).map (fun pattern => pattern.spans "110.0.0.1") =
        .ok [⟨1, 9⟩] := by
  decide +kernel

end NetPattern
