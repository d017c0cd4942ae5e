import NetPattern.Proofs.Row.Grouping

/-!
# One row for each class

Rows that agree everywhere but at a position form a class. Merging at the position leaves one row
for each class of distinct rows, where the first row of the class stood, and it merges rows exactly
where this leaves fewer of them.
-/

namespace NetPattern.Row

/-- The rows that agree with a row everywhere but perhaps at a position. -/
def classOf (position : Nat) (rows : List Row) (row : Row) : List Row :=
  rows.filter fun other => AgreeOff position row other

/-- The rows that are the first of their class. -/
def leaders (position : Nat) (rows : List Row) : List Row :=
  rows.filter fun row => rows.find? (fun other => AgreeOff position row other) = some row

/-- The classes of rows, in the order of their first rows. -/
def classes (position : Nat) (rows : List Row) : List (List Row) :=
  (leaders position rows).map (classOf position rows)

/-- What a row that replaces others has to be: they agree with it everywhere else, a single one is
it, and the union of the fragments of several is found at the position. -/
structure Represents (position : Nat) (replaced : List Row) (merged : Row) : Prop where
  agreeOff : ∀ row ∈ replaced, AgreeOff position row merged
  single : ∀ row, replaced = [row] → merged = row
  several : 1 < replaced.length →
    merged[position]? = some (Fragment.union (replaced.map (·.fragmentAt position)))

section Classes

variable {position : Nat} {rows : List Row}

theorem mem_classOf {row other : Row} :
    other ∈ classOf position rows row ↔ other ∈ rows ∧ AgreeOff position row other := by
  rw [classOf, List.mem_filter, decide_eq_true_iff]

theorem self_mem_classOf {row : Row} (hrow : row ∈ rows) : row ∈ classOf position rows row :=
  mem_classOf.mpr ⟨hrow, agreeOff_iff_blankAt_eq.mpr rfl⟩

/-- A class is the same for each of its rows. -/
theorem classOf_congr {row other : Row} (h : AgreeOff position row other) :
    classOf position rows row = classOf position rows other := by
  unfold classOf
  simp only [agreeOff_iff_blankAt_eq] at h ⊢
  rw [h]

theorem find?_mem_leaders {row first : Row}
    (h : rows.find? (fun other => AgreeOff position row other) = some first) :
    first ∈ leaders position rows := by
  have hagree : AgreeOff position row first := by simpa using List.find?_some h
  rw [leaders, List.mem_filter, decide_eq_true_iff, ← h]
  refine ⟨List.mem_of_find?_eq_some h, ?_⟩
  simp only [agreeOff_iff_blankAt_eq] at hagree ⊢
  rw [hagree]

/-- No class is listed twice, as only one of its rows is the first. -/
theorem nodup_classes (hnodup : rows.Nodup) : (classes position rows).Nodup := by
  apply List.Nodup.map_on _ (hnodup.filter _)
  intro first hfirst second hsecond heq
  obtain ⟨hmem, hleads⟩ := List.mem_filter.mp hfirst
  have hleads' := (List.mem_filter.mp hsecond).2
  have hagree : AgreeOff position second first :=
    (mem_classOf.mp (heq ▸ self_mem_classOf hmem)).2
  simp only [agreeOff_iff_blankAt_eq, decide_eq_true_eq] at hagree hleads hleads'
  rw [hagree, hleads] at hleads'
  exact Option.some.inj hleads'

/-- Each row is in one class, and in no other. -/
theorem existsUnique_mem_classes {row : Row} (hrow : row ∈ rows) :
    ∃! replaced, replaced ∈ classes position rows ∧ row ∈ replaced := by
  refine ⟨classOf position rows row, ⟨?_, self_mem_classOf hrow⟩, ?_⟩
  · have hsome : (rows.find? fun other => AgreeOff position row other).isSome :=
      List.find?_isSome.mpr ⟨row, hrow, by simp [agreeOff_iff_blankAt_eq]⟩
    obtain ⟨first, hfirst⟩ := Option.isSome_iff_exists.mp hsome
    have hagree : AgreeOff position row first := by simpa using List.find?_some hfirst
    rw [classOf_congr hagree]
    exact List.mem_map_of_mem (find?_mem_leaders hfirst)
  · rintro replaced ⟨hreplaced, hmem⟩
    obtain ⟨leader, -, rfl⟩ := List.mem_map.mp hreplaced
    exact classOf_congr (mem_classOf.mp hmem).2

/-- The first rows of the classes show what the rows have elsewhere, each of it once. -/
theorem map_blankAt_leaders (hnodup : rows.Nodup) :
    (leaders position rows).map (·.blankAt position) = blanks position rows := by
  rw [blanks, ← map_filter_find_eq _ hnodup, leaders]
  simp only [agreeOff_iff_blankAt_eq]

theorem unite_eq_union {fragments : List Fragment} (h : 1 < fragments.length) :
    unite fragments = Fragment.union fragments := by
  unfold unite
  split
  next single => exact absurd h (Nat.lt_irrefl 1)
  next => rfl

/-- The fragments of distinct rows that agree elsewhere are distinct already. -/
theorem variants_eq_map_classOf (hnodup : rows.Nodup) (row : Row) :
    variants position rows (row.blankAt position) =
      (classOf position rows row).map (·.fragmentAt position) := by
  have hclass : (rows.filter fun other => other.blankAt position = row.blankAt position) =
      classOf position rows row := by
    simp only [classOf, agreeOff_iff_blankAt_eq, eq_comm]
  rw [variants, hclass]
  apply eraseDups_eq_self
  apply List.Nodup.map_on _ (hnodup.filter _)
  intro first hfirst second hsecond heq
  have hblank := (agreeOff_iff_blankAt_eq.mp (mem_classOf.mp hfirst).2).symm.trans
    (agreeOff_iff_blankAt_eq.mp (mem_classOf.mp hsecond).2)
  exact eq_of_blankAt_of_fragmentAt hblank heq

/-- The row that replaces those which agree with a row elsewhere represents its class. -/
theorem represents_mergedRow (hnodup : rows.Nodup) {row : Row} (hrow : row ∈ rows)
    (hposition : position < row.length) :
    Represents position (classOf position rows row)
      (mergedRow position rows (row.blankAt position)) where
  agreeOff := by
    intro other hother
    rw [agreeOff_iff_blankAt_eq, blankAt_mergedRow (List.mem_map_of_mem hrow)]
    exact (agreeOff_iff_blankAt_eq.mp (mem_classOf.mp hother).2).symm
  single := by
    intro other hsingle
    have heq : row = other := List.mem_singleton.mp (hsingle ▸ self_mem_classOf hrow)
    rw [mergedRow, variants_eq_map_classOf hnodup, hsingle, List.map_singleton, unite, heq,
      blankAt_set_fragmentAt]
  several := by
    intro hseveral
    rw [mergedRow_blankAt, variants_eq_map_classOf hnodup,
      unite_eq_union (by rwa [List.length_map]), List.getElem?_set_self hposition]

theorem forall₂_represents_mergeAt (hnodup : rows.Nodup)
    (hposition : ∀ row ∈ rows, position < row.length) :
    List.Forall₂ (Represents position) (classes position rows) (mergeAt position rows).1 := by
  have hrows : (mergeAt position rows).1 =
      (leaders position rows).map fun row => mergedRow position rows (row.blankAt position) := by
    rw [mergeAt_eq_map, ← blanks, ← map_blankAt_leaders hnodup, List.map_map]
    rfl
  rw [hrows, classes, List.forall₂_map_left_iff, List.forall₂_map_right_iff, List.forall₂_same]
  intro leader hleader
  have hmem := List.mem_of_mem_filter hleader
  exact represents_mergedRow hnodup hmem (hposition leader hmem)

/-- Distinct rows are merged exactly where this leaves fewer of them. -/
theorem mergeAt_snd_iff_length_lt (hnodup : rows.Nodup) :
    (mergeAt position rows).2 = true ↔ (mergeAt position rows).1.length < rows.length := by
  refine ⟨length_mergeAt_lt position rows, fun hlt => ?_⟩
  by_contra hunmerged
  have hsame := mergeAt_of_nodup
    (nodup_blankAt_of_unmerged hnodup (Bool.eq_false_iff.mpr hunmerged))
  rw [hsame] at hlt
  exact Nat.lt_irrefl _ hlt

/-- Merging distinct rows at a position that all of them have leaves distinct rows, one for each
class of rows that agree elsewhere, and reports whether it leaves fewer. One sweep over the rows
with an index of their groups does the same. -/
theorem mergeAt_accounts_for_classes (hnodup : rows.Nodup)
    (hposition : ∀ row ∈ rows, position < row.length) :
    (mergeAt position rows).1.Nodup ∧ (classes position rows).Nodup ∧
      (∀ row ∈ rows, ∃! replaced, replaced ∈ classes position rows ∧ row ∈ replaced) ∧
      List.Forall₂ (Represents position) (classes position rows) (mergeAt position rows).1 ∧
      ((mergeAt position rows).2 = true ↔
        (mergeAt position rows).1.length < rows.length) ∧
      mergeByIndex? position rows = some (mergeAt position rows) :=
  ⟨nodup_mergeAt position rows, nodup_classes hnodup, fun _ => existsUnique_mem_classes,
    forall₂_represents_mergeAt hnodup hposition, mergeAt_snd_iff_length_lt hnodup,
    mergeByIndex?_eq hposition⟩

/-- Two classes of which the first goes on behind the only row of the second. -/
theorem mergeAt_accounts_for_classes_interleaved :
    let rows : List Row :=
      [["1".toList, "3".toList], ["2".toList, "5".toList], ["1".toList, "4".toList]]
    rows.Nodup ∧ (∀ row ∈ rows, 1 < row.length) ∧
      classes 1 rows = [[["1".toList, "3".toList], ["1".toList, "4".toList]],
        [["2".toList, "5".toList]]] ∧
      List.Forall₂ (Represents 1) (classes 1 rows) (mergeAt 1 rows).1 ∧
      mergeByIndex? 1 rows =
        some ([["1".toList, "(?:3|4)".toList], ["2".toList, "5".toList]], true) := by
  have hnodup : List.Nodup (α := Row)
      [["1".toList, "3".toList], ["2".toList, "5".toList], ["1".toList, "4".toList]] := by decide
  have hposition : ∀ row ∈ [["1".toList, "3".toList], ["2".toList, "5".toList],
      ["1".toList, "4".toList]], 1 < row.length := by decide
  obtain ⟨-, -, -, hrepresents, -, hindex⟩ := mergeAt_accounts_for_classes hnodup hposition
  exact ⟨hnodup, hposition, by decide, hrepresents, hindex.trans (by decide)⟩

end Classes

end NetPattern.Row
