import NetPattern.PatternSet
import NetPattern.Proofs.Program
import NetPattern.Proofs.Row.Decomposition
import NetPattern.Proofs.Row.Merge
import NetPattern.Proofs.Segments

/-!
# What the rows of a range match

The rows of a range match the written forms of its addresses, each with one row, and they still do
so after they are merged. So the alternation of the rows, held together by anchors, matches these
texts and no others.
-/

namespace NetPattern

open Fragment

namespace PatternSet

/-- The alternation of some rows takes what some row does. -/
theorem denotes_alternation {set : PatternSet} (hne : set.rows ≠ [])
    (hsingle : Row.AllSingle set.rows) (ignoreCase : Bool) :
    Denotes ignoreCase set.alternation
      fun text => 0 < Row.matchCount set.family ignoreCase set.rows text := by
  have hrows : ∀ part ∈ set.rows.map (Row.render set.family), part.IsSingle := by
    intro part hpart
    obtain ⟨row, hrow, rfl⟩ := List.mem_map.mp hpart
    exact (Row.denotes_render set.family ignoreCase (hsingle row hrow)).isSingle
  refine ⟨group_isSingle hrows, ?_⟩
  intro text
  rw [alternation, matchesWhole_group ignoreCase (by simpa using hne) hrows, Row.matchCount,
    List.countP_pos_iff]
  simp

/-- Whether the rows of a set match the written forms of the addresses of a range, each text with
one row, and nothing else, however case is handled where there are no letters. -/
structure Exact (set : PatternSet) (range : Range) (leadingZeros : Bool) : Prop where
  family_eq : set.family = range.family
  allSingle : Row.AllSingle set.rows
  matchCount_eq_one : ∀ ignoreCase, (set.family = .v6 → ignoreCase = true) →
    ∀ text, range.Written leadingZeros text →
      Row.matchCount set.family ignoreCase set.rows text = 1
  matchCount_eq_zero : ∀ ignoreCase, (set.family = .v6 → ignoreCase = true) →
    ∀ text, ¬ range.Written leadingZeros text →
      Row.matchCount set.family ignoreCase set.rows text = 0

/-- What holds of the fragments of all ranges of segments holds of those in the rows of a range of
addresses. -/
theorem forall_mem_ofRange {P : Fragment → Prop}
    (hfragment : ∀ (form : SegmentForm) {low high : Nat}, low ≤ high → high ≤ form.top →
      P (form.fragment low high)) (range : Range) (options : Options) :
    ∀ row ∈ (ofRange range options).rows, ∀ fragment ∈ row, P fragment := by
  have hbounds := range.segmentBounds options.leadingZeros
  intro row hrow fragment hmem
  rw [ofRange_eq, Row.decompose_eq_map hbounds] at hrow
  obtain ⟨box, hbox, rfl⟩ := List.mem_map.mp hrow
  obtain ⟨bounds, hbounds', rfl⟩ := List.mem_map.mp hmem
  obtain ⟨hle, hhigh⟩ := (Box.of_mem_ofRange hbounds hbox).2 bounds hbounds'
  exact hfragment _ hle hhigh

theorem allSingle_ofRange (range : Range) (options : Options) :
    Row.AllSingle (ofRange range options).rows :=
  forall_mem_ofRange (fun form _ _ hle hhigh =>
    (form.denotes_fragment (fun _ => rfl) hle hhigh).isSingle) range options

theorem exact_ofRange (range : Range) (options : Options) :
    (ofRange range options).Exact range options.leadingZeros where
  family_eq := rfl
  allSingle := allSingle_ofRange range options
  matchCount_eq_one := by
    intro ignoreCase hcase text hwritten
    obtain ⟨address, hcontains, hwrites⟩ := hwritten
    have hbounds := range.segmentBounds options.leadingZeros
    have hfits : Row.Fits (SegmentForm.of range.family options.leadingZeros).top
        range.family.segmentCount (range.family.segments address) := by
      rw [← Family.segmentMax_eq_top]
      exact range.family.fits_segments address
    have hbetween :=
      (Range.contains_iff_segments (Range.lt_size_of_contains hcontains)).mp hcontains
    exact (Row.matchCount_decompose_of_writes hcase hbounds hfits hwrites).trans (if_pos hbetween)
  matchCount_eq_zero := by
    intro ignoreCase hcase text hnot
    have hbounds := range.segmentBounds options.leadingZeros
    by_cases hsegments : ∃ segments, Row.Fits
        (SegmentForm.of range.family options.leadingZeros).top range.family.segmentCount segments ∧
          range.family.WritesSegments options.leadingZeros segments text
    · obtain ⟨segments, hfits, hwrites⟩ := hsegments
      refine (Row.matchCount_decompose_of_writes hcase hbounds hfits hwrites).trans (if_neg ?_)
      intro hbetween
      rw [← Family.segmentMax_eq_top] at hfits
      rw [← Family.segments_recombine hfits] at hbetween hwrites
      exact hnot
        ⟨_, (Range.contains_iff_segments (Family.recombine_lt hfits)).mpr hbetween, hwrites⟩
    · apply Row.matchCount_decompose_eq_zero hcase hbounds
      intro segments hfits hwrites
      exact hsegments ⟨segments, hfits, hwrites⟩

/-- Merging rows keeps a set exact: every text still has a row if it had one, and no more. -/
theorem Exact.collapse {set : PatternSet} {range : Range} {leadingZeros : Bool}
    (h : set.Exact range leadingZeros) : set.collapse.Exact range leadingZeros := by
  have hreplaces := Row.collapse_replaces h.allSingle
  refine ⟨h.family_eq, hreplaces.allSingle, ?_, ?_⟩
  · intro ignoreCase hcase text hwritten
    have hone := h.matchCount_eq_one ignoreCase hcase text hwritten
    have hle := hreplaces.matchCount_le set.family ignoreCase text
    have hpos := (hreplaces.matchCount_pos_iff set.family ignoreCase text).mpr (by omega)
    rw [hone] at hle
    exact Nat.le_antisymm hle hpos
  · intro ignoreCase hcase text hnot
    have hzero := h.matchCount_eq_zero ignoreCase hcase text hnot
    have hle := hreplaces.matchCount_le set.family ignoreCase text
    rw [hzero] at hle
    exact Nat.le_zero.mp hle

theorem Exact.rows_ne_nil {set : PatternSet} {range : Range} {leadingZeros : Bool}
    (h : set.Exact range leadingZeros) : set.rows ≠ [] := by
  intro hnil
  obtain ⟨text, hwritten⟩ := range.exists_written leadingZeros
  have hone := h.matchCount_eq_one true (fun _ => rfl) text hwritten
  rw [hnil] at hone
  exact nomatch hone

/-- The alternation of an exact set takes the written forms of the addresses of the range. -/
theorem Exact.denotes_alternation {set : PatternSet} {range : Range} {leadingZeros : Bool}
    (h : set.Exact range leadingZeros) {ignoreCase : Bool}
    (hcase : set.family = .v6 → ignoreCase = true) :
    Denotes ignoreCase set.alternation (range.Written leadingZeros) := by
  apply (PatternSet.denotes_alternation h.rows_ne_nil h.allSingle ignoreCase).congr
  intro text
  by_cases hwritten : range.Written leadingZeros text
  · simp [h.matchCount_eq_one ignoreCase hcase text hwritten, hwritten]
  · simp [h.matchCount_eq_zero ignoreCase hcase text hwritten, hwritten]

/-- The number of rows of a set whose patterns take a whole text. Only IPv6 ignores case. -/
def matchCount (set : PatternSet) (text : List Char) : Nat :=
  Row.matchCount set.family (set.family == .v6) set.rows text

/-- Every written form of an address in a range is taken by one row of a set and every other text
by no row. Held together by anchors, the alternation of the rows matches the written forms and no
other text. -/
structure CoversOnce (set : PatternSet) (range : Range) (leadingZeros : Bool) : Prop where
  matchCount_eq_one : ∀ text, range.Written leadingZeros text → set.matchCount text = 1
  matchCount_eq_zero : ∀ text, ¬ range.Written leadingZeros text → set.matchCount text = 0
  exists_program : ∃ program,
    Program.read? (range.family == .v6) ('^' :: set.alternation ++ ['$']) = some program ∧
      ∀ text, program.isMatch text = true ↔ range.Written leadingZeros text

theorem Exact.coversOnce {set : PatternSet} {range : Range} {leadingZeros : Bool}
    (h : set.Exact range leadingZeros) : set.CoversOnce range leadingZeros := by
  have hcase : set.family = .v6 → (set.family == .v6) = true := by
    intro hv6
    rw [hv6]
    rfl
  refine ⟨h.matchCount_eq_one _ hcase, h.matchCount_eq_zero _ hcase, ?_⟩
  rw [← h.family_eq]
  exact (h.denotes_alternation hcase).exists_program {}

/-- The rows of a range cover the written forms of its addresses once, before and after they are
merged. -/
theorem rows_cover_range_once (range : Range) (options : Options) :
    (ofRange range options).CoversOnce range options.leadingZeros ∧
      (ofRange range options).collapse.CoversOnce range options.leadingZeros := by
  have hexact := exact_ofRange range options
  exact ⟨hexact.coversOnce, hexact.collapse.coversOnce⟩

/-- Whether a property holds of the fragments of segments and is kept by all that makes rows and
alternations of them. -/
structure KeptByRows (P : Fragment → Prop) : Prop extends Row.KeptByUnion P where
  fragment : ∀ (form : SegmentForm) {low high : Nat}, low ≤ high → high ≤ form.top →
    P (form.fragment low high)
  separator : ∀ family : Family, P family.separator
  append : ∀ {first second : Fragment}, P first → P second → P (first ++ second)
  group : ∀ {parts : List Fragment}, parts ≠ [] → (∀ part ∈ parts, P part) →
    P (Fragment.group parts)

theorem KeptByRows.render {P : Fragment → Prop} (hP : KeptByRows P) (family : Family) {row : Row}
    (h : ∀ fragment ∈ row, P fragment) : P (row.render family) := by
  induction row with
  | nil => exact hP.nil
  | cons fragment others ih =>
      obtain ⟨hfragment, hothers⟩ := List.forall_mem_cons.mp h
      cases others with
      | nil =>
          rw [Row.render, List.intercalate_singleton]
          exact hfragment
      | cons second more =>
          rw [Row.render, List.intercalate_cons_cons]
          exact hP.append (hP.append hfragment (hP.separator family)) (ih hothers)

/-- Such a property holds of the alternation of the merged rows of a range. -/
theorem KeptByRows.alternation {P : Fragment → Prop} (hP : KeptByRows P) (range : Range)
    (options : Options) : P (ofRange range options).collapse.alternation := by
  have hrows := Row.collapse_of_forall hP.toKeptByUnion
    (forall_mem_ofRange (fun form _ _ => hP.fragment form) range options)
  have hne := (exact_ofRange range options).collapse.rows_ne_nil
  refine hP.group (List.map_eq_nil_iff.not.mpr hne) fun piece hpiece => ?_
  obtain ⟨row, hrow, rfl⟩ := List.mem_map.mp hpiece
  exact hP.render _ (hrows row hrow)

end PatternSet

end NetPattern
