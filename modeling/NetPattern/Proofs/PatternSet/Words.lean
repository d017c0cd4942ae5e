import NetPattern.PatternSet.Words
import NetPattern.Proofs.Fragment.Words
import NetPattern.Proofs.PatternSet
import NetPattern.Proofs.Row.Grouping
import NetPattern.Proofs.SegmentOrder

/-!
# No step of building patterns fails

Bounds in words stand for numbers. Where these bound a range, so do the bounds of each part that the
range is split into, and each fragment is asked for with segments in order. The rows that come out
have one fragment for each segment, before and after any are merged, so merging meets the end of
none. All checks are passed, and the rows are those of the range.
-/

namespace NetPattern

namespace SegmentForm

theorem toNat_topWord (form : SegmentForm) : form.topWord.toNat = form.top := by
  cases form <;> rfl

theorem fragment?_eq (form : SegmentForm) {low high : BitVec 16} (hle : low.toNat ≤ high.toNat)
    (hhigh : high.toNat ≤ form.top) :
    form.fragment? low high = some (form.fragment low.toNat high.toNat) := by
  cases form with
  | octet padded => exact Fragment.octetRange?_eq padded hle hhigh
  | hextet => exact Fragment.hextetRange?_eq hle

end SegmentForm

namespace Row

variable {form : SegmentForm}

theorem middleRow?_eq {l h : BitVec 16} (hlt : l.toNat < h.toNat) (hh : h.toNat ≤ form.top)
    (width : Nat) :
    middleRow? form width l h =
      some (if l.toNat + 1 < h.toNat then
        [form.fragment (l.toNat + 1) (h.toNat - 1) :: anything form width] else []) := by
  have hroom : l.toNat + (1 : BitVec 16).toNat < 2 ^ 16 := Nat.lt_of_le_of_lt hlt h.isLt
  have hnext : (l + 1).toNat = l.toNat + 1 := BitVec.toNat_add_of_lt hroom
  have hone : (1 : BitVec 16) ≤ h := Nat.zero_lt_of_lt hlt
  have hlast : (h - 1).toNat = h.toNat - 1 := BitVec.toNat_sub_of_le hone
  have hgap : l + 1 < h ↔ l.toNat + 1 < h.toNat := by
    rw [BitVec.lt_def, hnext]
  simp only [middleRow?, sum?_eq_some hroom, difference?_eq_some hone, Option.bind_eq_bind,
    Option.bind_some, hgap]
  split
  next h =>
    rw [form.fragment?_eq (by omega) (by omega), hnext, hlast]
    rfl
  next => rfl

section Equations

variable {l h : BitVec 16} {low high : List (BitVec 16)}

theorem decompose?_full (hbounds : WordBounds (l :: low) (h :: high))
    (hfull : (l :: low).all (· = 0) = true ∧ (h :: high).all (· = form.topWord) = true) :
    decompose? form (l :: low) (h :: high) = some [anything form (low.length + 1)] := by
  rw [decompose?, if_neg (not_not.mpr hbounds), if_pos hfull]

theorem decompose?_same (hbounds : WordBounds (l :: low) (l :: high))
    (hfull : ¬ ((l :: low).all (· = 0) = true ∧ (l :: high).all (· = form.topWord) = true)) :
    decompose? form (l :: low) (l :: high) = (do
      let only ← form.fragment? l l
      let rows ← decompose? form low high
      return rows.map (only :: ·)) := by
  rw [decompose?, if_neg (not_not.mpr hbounds), if_neg hfull, if_pos rfl]

theorem decompose?_split (hbounds : WordBounds (l :: low) (h :: high))
    (hfull : ¬ ((l :: low).all (· = 0) = true ∧ (h :: high).all (· = form.topWord) = true))
    (hne : l ≠ h) :
    decompose? form (l :: low) (h :: high) = (do
      let lowest ← form.fragment? l l
      let below ← decompose? form low (List.replicate low.length form.topWord)
      let middle ← middleRow? form low.length l h
      let highest ← form.fragment? h h
      let above ← decompose? form (List.replicate low.length 0) high
      return (below.map (lowest :: ·) ++ middle ++ above.map (highest :: ·)).eraseDups) := by
  rw [decompose?, if_neg (not_not.mpr hbounds), if_neg hfull, if_neg hne]

end Equations

theorem full_map_toNat_iff {low high : List (BitVec 16)} :
    SegmentBounds.Full form.top (low.map BitVec.toNat) (high.map BitVec.toNat) ↔
      low.all (· = 0) = true ∧ high.all (· = form.topWord) = true := by
  have hlow : (low.map BitVec.toNat).all (· = 0) = low.all (· = 0) := all_map_toNat low 0
  rw [SegmentBounds.Full, hlow, ← all_map_toNat high, form.toNat_topWord]

/-- The lists of segments between two bounds have rows, whatever the bounds are: no check fails, and
the rows are those of the numbers that the segments stand for. -/
theorem decompose?_eq {width : Nat} {low high : List (BitVec 16)}
    (hbounds : SegmentBounds form.top width (low.map BitVec.toNat) (high.map BitVec.toNat)) :
    decompose? form low high =
      some (ofBounds form width (low.map BitVec.toNat) (high.map BitVec.toNat)) := by
  -- Behind a boundary segment one bound gives way to the end of the space, so both are general.
  induction width generalizing low high with
  | zero =>
      obtain rfl := List.map_eq_nil_iff.mp (List.length_eq_zero_iff.mp hbounds.length_low)
      obtain rfl := List.map_eq_nil_iff.mp (List.length_eq_zero_iff.mp hbounds.length_high)
      rw [decompose?.eq_def]
      rfl
  | succ width ih =>
      have hwords := hbounds.wordBounds
      obtain ⟨l, low, rfl⟩ : ∃ l rest, low = l :: rest :=
        List.exists_cons_of_length_eq_add_one (by simpa using hbounds.length_low)
      obtain ⟨h, high, rfl⟩ : ∃ h rest, high = h :: rest :=
        List.exists_cons_of_length_eq_add_one (by simpa using hbounds.length_high)
      have hfull := @full_map_toNat_iff form (l :: low) (h :: high)
      rw [List.map_cons, List.map_cons] at hbounds hfull ⊢
      have hlength : low.length = width := by simpa using hbounds.length_low
      have hl := hbounds.first_low_le_top
      have hh := hbounds.first_high_le_top
      rw [ofBounds_cons]
      by_cases hall : SegmentBounds.Full form.top (l.toNat :: low.map BitVec.toNat)
          (h.toNat :: high.map BitVec.toNat)
      · rw [decompose?_full hwords (hfull.mp hall), if_pos hall, hlength]
      rw [if_neg hall]
      rcases cons_le_cons_iff.mp hbounds.low_le_high with hlt | ⟨heq, -⟩
      · have hbelow := @ih low (List.replicate width form.topWord)
        have habove := @ih (List.replicate width 0) high
        rw [List.map_replicate, form.toNat_topWord] at hbelow
        rw [List.map_replicate] at habove
        have hne : l ≠ h := fun heq => Nat.ne_of_lt hlt (congrArg BitVec.toNat heq)
        rw [decompose?_split hwords (mt hfull.mpr hall) hne, hlength, hbelow hbounds.below,
          habove hbounds.above, middleRow?_eq hlt hh, form.fragment?_eq (Nat.le_refl _) hl,
          form.fragment?_eq (Nat.le_refl _) hh, if_neg (Nat.ne_of_lt hlt)]
        rfl
      · obtain rfl := BitVec.eq_of_toNat_eq heq
        rw [decompose?_same hwords (mt hfull.mpr hall), form.fragment?_eq (Nat.le_refl _) hl,
          ih hbounds.tail, if_pos rfl]
        rfl

/-- There are rows exactly where the bounds are of one length and in order. -/
theorem isSome_decompose?_iff {low high : List (BitVec 16)}
    (htop : ∀ segment ∈ low ++ high, segment ≤ form.topWord) :
    (decompose? form low high).isSome = true ↔ WordBounds low high := by
  apply isSome_iff_of_eq_none
  · intro hnot
    rw [decompose?.eq_def, if_pos hnot]
  · intro hbounds
    have htop : ∀ segment ∈ low ++ high, segment.toNat ≤ form.top := by
      intro segment hsegment
      rw [← form.toNat_topWord]
      exact htop segment hsegment
    exact ⟨_, decompose?_eq (hbounds.segmentBounds htop)⟩

end Row

namespace PatternSet

theorem ofWords?_eq {range : Range} {first last : Word} (hfirst : first.toNat = range.first)
    (hlast : last.toNat = range.last) (options : Options) :
    ofWords? range.family first last options = some (ofRange range options) := by
  obtain ⟨low, hlow, hlow'⟩ := Word.segments?_eq range.family first
  obtain ⟨high, hhigh, hhigh'⟩ := Word.segments?_eq range.family last
  have hbounds := range.segmentBounds options.leadingZeros
  have hwords : SegmentBounds (SegmentForm.of range.family options.leadingZeros).top
      range.family.segmentCount (low.map BitVec.toNat) (high.map BitVec.toNat) := by
    rw [hlow', hhigh', hfirst, hlast]
    exact hbounds
  have hrows : Row.decompose? (.of range.family options.leadingZeros) low high =
      some (Row.decompose (.of range.family options.leadingZeros) range.firstSegments
        range.lastSegments) := by
    rw [Row.decompose?_eq hwords, hlow', hhigh', hfirst, hlast, Row.decompose, hbounds.length_low]
    rfl
  rw [ofWords?, hlow, hhigh]
  simp only [Option.bind_eq_bind, Option.bind_some, hrows]
  rfl

theorem collapseByIndex?_ofRange (range : Range) (options : Options) :
    (ofRange range options).collapseByIndex? = some (ofRange range options).collapse := by
  have hwidth := Row.width_decompose (range.segmentBounds options.leadingZeros)
  rw [collapseByIndex?, ofRange_eq, Row.collapseByIndex?_eq hwidth]
  rfl

/-- What each step asks for. It gives a result exactly where its bounds are as long as each other, in
order and not too large, where there is a digit or a place for what is looked up, and where a sum or a
difference is that of the numbers. -/
structure Checked : Prop where
  rows : ∀ (form : SegmentForm) (low high : List (BitVec 16)),
    (∀ segment ∈ low ++ high, segment ≤ form.topWord) →
      ((Row.decompose? form low high).isSome = true ↔ low.length = high.length ∧ low ≤ high)
  octets : ∀ (padded : Bool) (low high : BitVec 16),
    (Fragment.octetRange? padded low high).isSome = true ↔ low ≤ high ∧ high ≤ 255
  hextets : ∀ low high : BitVec 16,
    (Fragment.hextetRange? low high).isSome = true ↔ low ≤ high
  digitRows : ∀ low high : List (BitVec 8),
    (Fragment.digitRange? low high).isSome = true ↔
      (low.length = high.length ∧ low ≤ high) ∧ ∀ digit ∈ low ++ high, digit ≤ 15
  digits : ∀ low high : BitVec 8,
    (Fragment.digitClass? low high).isSome = true ↔ low ≤ high ∧ high ≤ 15
  digit : ∀ digit : BitVec 8, (Fragment.digitChar? digit).isSome = true ↔ digit ≤ 15
  sum : ∀ (width : Nat) (first second total : BitVec width),
    sum? first second = some total ↔ first.toNat + second.toNat = total.toNat
  difference : ∀ (width : Nat) (first second rest : BitVec width),
    difference? first second = some rest ↔ rest.toNat + second.toNat = first.toNat
  position : ∀ (row : Row) (position : Nat) (fragment : Fragment),
    (Row.withFragment? row position fragment).isSome = true ↔ position < row.length

theorem checked : Checked where
  rows _ _ _ := Row.isSome_decompose?_iff
  octets _ _ _ := Fragment.isSome_octetRange?_iff
  hextets _ _ := Fragment.isSome_hextetRange?_iff
  digitRows _ _ := Fragment.isSome_digitRange?_iff
  digits _ _ := Fragment.isSome_digitClass?_iff
  digit _ := Fragment.isSome_digitChar?_iff
  sum _ _ _ _ := sum?_eq_some_iff
  difference _ _ _ _ := difference?_eq_some_iff
  position _ _ _ := by simp [Row.withFragment?]

/-- Whether the rows of a range are built from two words, and then collapsed, with every check
passed on the way. -/
structure Passes (range : Range) (first last : Word) (options : Options) : Prop where
  ofWords?_eq : ofWords? range.family first last options = some (ofRange range options)
  collapseByIndex?_eq :
    (ofRange range options).collapseByIndex? = some (ofRange range options).collapse

theorem passes {range : Range} {first last : Word} (hfirst : first.toNat = range.first)
    (hlast : last.toNat = range.last) (options : Options) : Passes range first last options :=
  ⟨ofWords?_eq hfirst hlast options, collapseByIndex?_ofRange range options⟩

/-- Steps give results only for what they ask for, and none of them fails where the rows of a range
are built and collapsed, be it a range between two words or that of a block. -/
theorem no_step_fails : Checked ∧ ∀ options : Options,
    (∀ (family : Family) (first last : Word) (range : Range),
        Range.make? family first.toNat last.toNat = some range →
          Passes range first last options) ∧
      ∀ (family : Family) (address : Word) (prefixLength : Nat), ∃ first last,
        Word.bounds? family address prefixLength = some (first, last) ∧
          Passes (⟨family, address.toNat, prefixLength⟩ : Cidr).range first last options := by
  refine ⟨checked, fun options => ⟨?_, ?_⟩⟩
  · intro family first last range hrange
    rw [Range.make?, Option.dite_none_right_eq_some] at hrange
    obtain ⟨_, hrange⟩ := hrange
    obtain rfl := Option.some.inj hrange
    exact passes rfl rfl options
  · intro family address prefixLength
    obtain ⟨first, last, hbounds, hfirst, hlast⟩ := Word.bounds?_eq family address prefixLength
    exact ⟨first, last, hbounds, passes hfirst hlast options⟩

/-- Two neighbours, of which the upper one begins another hextet. -/
theorem no_step_fails_carry :
    Range.make? .v6 (0xffff : Word).toNat (0x10000 : Word).toNat =
        some ⟨.v6, 0xffff, 0x10000, by decide, by decide⟩ ∧
      Passes ⟨.v6, 0xffff, 0x10000, by decide, by decide⟩ 0xffff 0x10000 {} := by
  have hrange : Range.make? .v6 (0xffff : Word).toNat (0x10000 : Word).toNat =
      some ⟨.v6, 0xffff, 0x10000, by decide, by decide⟩ := by decide
  obtain ⟨-, hruns⟩ := no_step_fails
  exact ⟨hrange, (hruns {}).1 .v6 0xffff 0x10000 _ hrange⟩

end PatternSet

end NetPattern
