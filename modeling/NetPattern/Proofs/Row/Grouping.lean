import NetPattern.Proofs.Row.Collapse
import NetPattern.Proofs.Runs
import NetPattern.Row.Grouping

/-!
# One sweep finds the groups

After any number of rows, the groups of the sweep are those of the rows seen so far, in the order in
which they first appear, and the index leads from what the rows of a group have elsewhere to the
place of the group. One more row keeps this, so the sweep merges as if for each group all rows were
looked through.
-/

namespace NetPattern.Row

theorem getElem?_concat_eq_some_iff {α : Type} {members : List α} {last a : α} {place : Nat} :
    (members ++ [last])[place]? = some a ↔
      members[place]? = some a ∨ place = members.length ∧ a = last := by
  rw [List.getElem?_append]
  split <;> grind

/-- What the rows have at every other position, as often as it first appears. -/
def blanks (position : Nat) (rows : List Row) : List Row :=
  (rows.map (·.blankAt position)).eraseDups

theorem mem_blanks {position : Nat} {rows : List Row} {blank : Row} :
    blank ∈ blanks position rows ↔ ∃ row ∈ rows, row.blankAt position = blank := by
  rw [blanks, List.mem_eraseDups, List.mem_map]

theorem blanks_concat (position : Nat) (rows : List Row) (row : Row) :
    blanks position (rows ++ [row]) =
      if row.blankAt position ∈ blanks position rows then blanks position rows
      else blanks position rows ++ [row.blankAt position] := by
  rw [blanks, List.map_append, List.map_singleton, eraseDups_concat]
  simp only [blanks, List.mem_eraseDups]

theorem variants_ne_nil_of_mem_blanks {position : Nat} {rows : List Row} {blank : Row}
    (h : blank ∈ blanks position rows) : variants position rows blank ≠ [] := by
  obtain ⟨row, hrow, rfl⟩ := mem_blanks.mp h
  exact variants_ne_nil hrow

theorem variants_eq_nil {position : Nat} {rows : List Row} {blank : Row}
    (h : blank ∉ blanks position rows) : variants position rows blank = [] := by
  apply List.eq_nil_iff_forall_not_mem.mpr
  intro fragment hfragment
  obtain ⟨row, hrow, hblank, -⟩ := mem_variants.mp hfragment
  exact h (mem_blanks.mpr ⟨row, hrow, hblank⟩)

theorem variants_concat_of_ne {position : Nat} {rows : List Row} {row blank : Row}
    (h : row.blankAt position ≠ blank) :
    variants position (rows ++ [row]) blank = variants position rows blank := by
  have hdrop : ([row].filter fun other => other.blankAt position = blank) = [] :=
    List.filter_cons_of_neg (by simpa using h)
  rw [variants, List.filter_append, hdrop, List.append_nil, variants]

theorem variants_concat (position : Nat) (rows : List Row) (row : Row) :
    variants position (rows ++ [row]) (row.blankAt position) =
      if row.fragmentAt position ∈ variants position rows (row.blankAt position) then
        variants position rows (row.blankAt position)
      else variants position rows (row.blankAt position) ++ [row.fragmentAt position] := by
  have hkeep : ([row].filter fun other => other.blankAt position = row.blankAt position) = [row] :=
    List.filter_cons_of_pos (by simp)
  rw [variants, List.filter_append, hkeep, List.map_append, List.map_singleton, eraseDups_concat]
  simp only [variants, List.mem_eraseDups]

theorem withFragment?_eq_some {row : Row} {position : Nat} (h : position < row.length)
    (fragment : Fragment) :
    withFragment? row position fragment = some (row.set position fragment) :=
  if_pos h

theorem getElem?_eq_some_fragmentAt {row : Row} {position : Nat} (h : position < row.length) :
    row[position]? = some (row.fragmentAt position) := by
  rw [fragmentAt, List.getElem?_eq_getElem h, Option.getD_some]

/-- The group of the rows that agree with `blank` elsewhere. -/
def groupOf (position : Nat) (rows : List Row) (blank : Row) : Group where
  first := blank.set position ((variants position rows blank).headD [])
  fragments := variants position rows blank

section Group

variable {position : Nat} {rows : List Row}

theorem groupOf_concat_of_ne {row blank : Row} (h : row.blankAt position ≠ blank) :
    groupOf position (rows ++ [row]) blank = groupOf position rows blank := by
  unfold groupOf
  rw [variants_concat_of_ne h]

/-- A row joins the group of the rows that it agrees with elsewhere. -/
theorem groupOf_concat_of_mem {row : Row} (h : row.blankAt position ∈ blanks position rows) :
    groupOf position (rows ++ [row]) (row.blankAt position) =
      (groupOf position rows (row.blankAt position)).insert (row.fragmentAt position) := by
  unfold groupOf Group.insert
  rw [variants_concat]
  obtain ⟨first, others, hvariants⟩ := List.exists_cons_of_ne_nil (variants_ne_nil_of_mem_blanks h)
  by_cases hmem : row.fragmentAt position ∈ variants position rows (row.blankAt position)
  · rw [if_pos hmem, if_pos (List.contains_iff_mem.mpr hmem)]
  · rw [if_neg hmem, if_neg (mt List.contains_iff_mem.mp hmem)]
    dsimp only
    rw [hvariants]
    rfl

/-- A row that agrees with no other elsewhere starts a group. -/
theorem groupOf_concat_of_not_mem {row : Row} (h : row.blankAt position ∉ blanks position rows) :
    groupOf position (rows ++ [row]) (row.blankAt position) =
      ⟨row, [row.fragmentAt position]⟩ := by
  have hvariants : variants position (rows ++ [row]) (row.blankAt position) =
      [row.fragmentAt position] := by
    rw [variants_concat, variants_eq_nil h, if_neg List.not_mem_nil, List.nil_append]
  unfold groupOf
  rw [hvariants, List.headD_cons, blankAt_set_fragmentAt]

theorem merged?_groupOf {blank : Row} (hlength : position < blank.length) :
    (groupOf position rows blank).merged? position = some (mergedRow position rows blank) := by
  have hseveral : ∀ fragment united : Fragment,
      withFragment? (blank.set position fragment) position united =
        some (blank.set position united) := by
    intro fragment united
    rw [withFragment?_eq_some (by rwa [List.length_set]), List.set_set]
  unfold groupOf Group.merged? mergedRow
  match variants position rows blank with
  | [] => exact hseveral _ _
  | [single] => rfl
  | _ :: _ :: _ => exact hseveral _ _

end Group

namespace Grouping

/-- Whether a grouping is that of some rows: it lists their groups, and its index leads to each. -/
structure Lists (position : Nat) (grouping : Grouping) (rows : List Row) : Prop where
  groups_eq : grouping.groups = (blanks position rows).map (groupOf position rows)
  lookup_eq_some_iff : ∀ blank place,
    grouping.index.lookup blank = some place ↔ (blanks position rows)[place]? = some blank

variable {position : Nat} {grouping : Grouping} {rows : List Row}

theorem lists_empty (position : Nat) : Lists position .empty [] where
  groups_eq := rfl
  lookup_eq_some_iff := fun _ _ => ⟨(nomatch ·), (nomatch ·)⟩

/-- Where the index has no place for a row, the row is the first of its group. -/
theorem Lists.lookup_eq_none_iff (h : Lists position grouping rows) (blank : Row) :
    grouping.index.lookup blank = none ↔ blank ∉ blanks position rows := by
  rw [List.mem_iff_getElem?, not_exists]
  simp only [← h.lookup_eq_some_iff, Option.eq_none_iff_forall_ne_some, ne_eq]

/-- A row whose group is there already changes this group and no other. -/
theorem Lists.set_insert (h : Lists position grouping rows) {row : Row} {place : Nat}
    (hplace : (blanks position rows)[place]? = some (row.blankAt position)) :
    Lists position
      { grouping with
        groups := grouping.groups.set place
          ((groupOf position rows (row.blankAt position)).insert (row.fragmentAt position)) }
      (rows ++ [row]) := by
  have hmem := List.mem_of_getElem? hplace
  have hlt := (List.getElem?_eq_some_iff.mp hplace).1
  have hblanks : blanks position (rows ++ [row]) = blanks position rows := by
    rw [blanks_concat, if_pos hmem]
  refine ⟨?_, by rw [hblanks]; exact h.lookup_eq_some_iff⟩
  apply List.ext_getElem?
  intro other
  rw [hblanks, h.groups_eq, List.getElem?_set, List.getElem?_map, List.length_map]
  by_cases heq : place = other
  · subst heq
    rw [if_pos rfl, if_pos hlt, List.getElem?_map, hplace, Option.map_some,
      groupOf_concat_of_mem hmem]
  · rw [if_neg heq, List.getElem?_map]
    cases hother : (blanks position rows)[other]? with
    | none => rfl
    | some blank =>
        -- No two groups have the same rows elsewhere, so only one place can be that of the row.
        have hne : row.blankAt position ≠ blank := by
          rintro rfl
          exact heq ((List.getElem?_inj hlt (nodup_eraseDups _)).mp (hplace.trans hother.symm))
        rw [Option.map_some, Option.map_some, groupOf_concat_of_ne hne]

/-- A row whose group is not there yet adds it behind the others. -/
theorem Lists.concat (h : Lists position grouping rows) {row : Row}
    (hnew : row.blankAt position ∉ blanks position rows) :
    Lists position
      { index := (row.blankAt position, grouping.groups.length) :: grouping.index
        groups := grouping.groups ++ [⟨row, [row.fragmentAt position]⟩] }
      (rows ++ [row]) := by
  have hblanks : blanks position (rows ++ [row]) =
      blanks position rows ++ [row.blankAt position] := by
    rw [blanks_concat, if_neg hnew]
  have hlength : grouping.groups.length = (blanks position rows).length := by
    rw [h.groups_eq, List.length_map]
  constructor
  · rw [hblanks, List.map_append, List.map_singleton, groupOf_concat_of_not_mem hnew, h.groups_eq]
    dsimp only
    congr 1
    apply List.map_congr_left
    rintro blank hblank
    exact (groupOf_concat_of_ne fun heq => hnew (heq ▸ hblank)).symm
  · intro blank place
    rw [hblanks, hlength, getElem?_concat_eq_some_iff, List.lookup_cons]
    by_cases heq : blank = row.blankAt position
    · subst heq
      have hnone : (blanks position rows)[place]? ≠ some (row.blankAt position) :=
        fun hsome => hnew (List.mem_of_getElem? hsome)
      simp [hnone, eq_comm]
    · simp [heq, beq_false_of_ne heq, h.lookup_eq_some_iff]

/-- Another row of sufficient length can always be swept, and keeps what a grouping lists. -/
theorem Lists.add (h : Lists position grouping rows) {row : Row}
    (hposition : position < row.length) :
    ∃ next, grouping.add? position row = some next ∧ Lists position next (rows ++ [row]) := by
  have hkey : withFragment? row position [] = some (row.blankAt position) :=
    withFragment?_eq_some hposition []
  simp only [add?, hkey, getElem?_eq_some_fragmentAt hposition, Option.bind_eq_bind,
    Option.bind_some]
  cases hlookup : grouping.index.lookup (row.blankAt position) with
  | some place =>
      have hplace := (h.lookup_eq_some_iff _ _).mp hlookup
      have hgroup : grouping.groups[place]? =
          some (groupOf position rows (row.blankAt position)) := by
        rw [h.groups_eq, List.getElem?_map, hplace, Option.map_some]
      simp only [hgroup, Option.bind_some]
      exact ⟨_, rfl, h.set_insert hplace⟩
  | none => exact ⟨_, rfl, h.concat ((h.lookup_eq_none_iff _).mp hlookup)⟩

/-- A sweep over rows of sufficient length ends, and lists their groups with those from before. -/
theorem Lists.sweep (h : Lists position grouping rows) {others : List Row}
    (hposition : ∀ row ∈ others, position < row.length) :
    ∃ last, others.foldlM (add? position) grouping = some last ∧
      Lists position last (rows ++ others) := by
  induction others generalizing grouping rows with
  | nil => exact ⟨grouping, rfl, by rwa [List.append_nil]⟩
  | cons row others ih =>
      obtain ⟨next, hnext, hlists⟩ := h.add (hposition row List.mem_cons_self)
      obtain ⟨last, hlast, hlists⟩ :=
        ih hlists fun other hother => hposition other (List.mem_cons_of_mem _ hother)
      refine ⟨last, ?_, by rwa [List.append_assoc] at hlists⟩
      rw [List.foldlM_cons, hnext]
      exact hlast

end Grouping

/-- Where no row ends before the position, one sweep merges the rows at it and meets the end of no
row and no list. -/
theorem mergeByIndex?_eq {position : Nat} {rows : List Row}
    (hposition : ∀ row ∈ rows, position < row.length) :
    mergeByIndex? position rows = some (mergeAt position rows) := by
  obtain ⟨grouping, hsweep, hlists⟩ := (Grouping.lists_empty position).sweep hposition
  rw [List.nil_append] at hlists
  have hmerged : grouping.groups.mapM (Group.merged? position) =
      some ((blanks position rows).map (mergedRow position rows)) := by
    rw [mapM_eq_some_iff, hlists.groups_eq, List.forall₂_map_left_iff, List.forall₂_map_right_iff,
      List.forall₂_same]
    intro blank hblank
    obtain ⟨row, hrow, rfl⟩ := mem_blanks.mp hblank
    apply merged?_groupOf
    rw [blankAt, List.length_set]
    exact hposition row hrow
  have hany : (grouping.groups.any fun group => group.fragments.length != 1) =
      (blanks position rows).any fun blank => 1 < (variants position rows blank).length := by
    rw [hlists.groups_eq, List.any_map, Bool.eq_iff_iff, List.any_eq_true, List.any_eq_true]
    refine exists_congr fun blank => and_congr_right fun hblank => ?_
    have hpos := List.length_pos_of_ne_nil (variants_ne_nil_of_mem_blanks hblank)
    rw [Function.comp_apply, bne_iff_ne, decide_eq_true_iff]
    dsimp only [groupOf]
    omega
  rw [mergeByIndex?, hsweep]
  simp only [Option.bind_eq_bind, Option.bind_some, hmerged, hany]
  rfl

section Loop

variable {width : Nat} {rows : List Row}

theorem width_mergePass (positions : Nat) (h : ∀ row ∈ rows, row.length = width) :
    ∀ row ∈ (mergePass positions rows).1, row.length = width :=
  mergePass_induction (motive := fun rows => ∀ row ∈ rows, row.length = width)
    (fun position _ => width_mergeAt position) positions h

/-- Where all rows have one width, a pass over its positions meets the end of no row. -/
theorem mergePassByIndex?_eq {positions : Nat} (hpositions : positions ≤ width)
    (hwidth : ∀ row ∈ rows, row.length = width) :
    mergePassByIndex? positions rows = some (mergePass positions rows) := by
  induction positions with
  | zero => rfl
  | succ positions ih =>
      have hbefore := ih (Nat.le_of_succ_le hpositions)
      have hposition : ∀ row ∈ (mergePass positions rows).1, positions < row.length := by
        intro row hrow
        rw [width_mergePass positions hwidth row hrow]
        exact hpositions
      rw [mergePassByIndex?] at hbefore
      rw [mergePassByIndex?, List.range_succ, List.foldlM_append, hbefore, mergePass_succ]
      simp [mergeByIndex?_eq hposition]

/-- The loop over passes ends, as each pass that merges leaves fewer rows. -/
theorem settleByIndex?_eq (hwidth : ∀ row ∈ rows, row.length = width) :
    settleByIndex? width rows = some (settle width rows) := by
  induction rows using settle.induct width with
  | case1 rows next hmerged hless ih =>
      have hnext := ih (width_mergePass width hwidth)
      rw [settleByIndex?, mergePassByIndex?_eq (Nat.le_refl width) hwidth, settle_eq,
        if_pos hmerged, ← hnext]
      exact (if_pos hmerged).trans (if_pos hless)
  | case2 rows next hmerged =>
      rw [settleByIndex?, mergePassByIndex?_eq (Nat.le_refl width) hwidth, settle_eq,
        if_neg hmerged]
      exact if_neg hmerged

/-- Rows of one width are collapsed by an index without meeting the end of any of them. -/
theorem collapseByIndex?_eq (hwidth : ∀ row ∈ rows, row.length = width) :
    collapseByIndex? rows = some (collapse rows) := by
  cases rows with
  | nil => exact settleByIndex?_eq fun _ hrow => nomatch hrow
  | cons first rows =>
      apply settleByIndex?_eq
      intro row hrow
      exact (hwidth row (List.mem_eraseDups.mp hrow)).trans (hwidth first List.mem_cons_self).symm

end Loop

end NetPattern.Row
