import NetPattern.Proofs.Aligned
import NetPattern.Proofs.Row.Collapse
import NetPattern.Proofs.Row.Decomposition

/-!
# Rows of aligned bounds

Aligned bounds are split once at most, so their rows differ at one position, and collapsing leaves
one row. Its fragments can be read off the segments of the bounds.
-/

namespace NetPattern.Row

/-- Rows that differ at one position. -/
def varied (before : Row) (fragments : List Fragment) (after : Row) : List Row :=
  fragments.map fun fragment => before ++ fragment :: after

section Varied

variable {before after : Row} {fragments : List Fragment}

theorem mergeAt_varied_of_ne {position : Nat} (hposition : position ≠ before.length)
    (hnodup : fragments.Nodup) :
    mergeAt position (varied before fragments after) =
      (varied before fragments after, false) := by
  -- The rows still differ where they did, as only another position is blanked.
  apply mergeAt_of_nodup
  rw [varied, List.map_map]
  apply List.Nodup.map_on _ hnodup
  intro first _ second _ heq
  have hget := congrArg (fun row : Row => row[before.length]?) heq
  simp only [Function.comp_apply, blankAt, List.getElem?_set_ne hposition] at hget
  simpa using hget

theorem blankAt_varied (fragment : Fragment) :
    blankAt (before ++ fragment :: after) before.length = before ++ [] :: after := by
  simp [blankAt]

theorem fragmentAt_varied (fragment : Fragment) :
    fragmentAt (before ++ fragment :: after) before.length = fragment := by
  simp [fragmentAt]

/-- At the position where they differ, the rows are merged into one. -/
theorem mergeAt_varied (hnodup : fragments.Nodup) (hne : fragments ≠ []) :
    mergeAt before.length (varied before fragments after) =
      ([before ++ unite fragments :: after], decide (1 < fragments.length)) := by
  have hblanks : ((varied before fragments after).map (·.blankAt before.length)).eraseDups =
      [before ++ [] :: after] := by
    rw [varied, List.map_map]
    simp only [Function.comp_def, blankAt_varied]
    obtain ⟨fragment, others, rfl⟩ := List.exists_cons_of_ne_nil hne
    rw [List.map_cons, List.eraseDups_cons, List.filter_eq_nil_iff.mpr]
    · rfl
    · intro blank hblank
      obtain ⟨_, -, rfl⟩ := List.mem_map.mp hblank
      simp
  have hvariants : variants before.length (varied before fragments after)
      (before ++ [] :: after) = fragments := by
    have hfilter : ((varied before fragments after).filter fun row =>
        row.blankAt before.length = before ++ [] :: after) = varied before fragments after := by
      apply List.filter_eq_self.mpr
      intro row hrow
      obtain ⟨fragment, -, rfl⟩ := List.mem_map.mp hrow
      rw [blankAt_varied]
      exact decide_eq_true rfl
    rw [variants, hfilter, varied, List.map_map]
    simp only [Function.comp_def, fragmentAt_varied, List.map_id']
    exact eraseDups_eq_self hnodup
  simp only [mergeAt, hblanks]
  simp [hvariants]

/-- A pass merges the rows when it comes to the position where they differ. -/
theorem mergePass_varied (hnodup : fragments.Nodup) (hne : fragments ≠ []) (width : Nat) :
    mergePass width (varied before fragments after) =
      if width ≤ before.length then (varied before fragments after, false)
      else ([before ++ unite fragments :: after], decide (1 < fragments.length)) := by
  induction width with
  | zero => rfl
  | succ width ih =>
      rw [mergePass_succ, ih]
      rcases Nat.lt_trichotomy width before.length with hlt | rfl | hgt
      · rw [if_pos (Nat.le_of_lt hlt), if_pos (Nat.succ_le_of_lt hlt),
          mergeAt_varied_of_ne (Nat.ne_of_lt hlt) hnodup]
        rfl
      · rw [if_pos (Nat.le_refl _), if_neg (Nat.not_succ_le_self _), mergeAt_varied hnodup hne]
        rfl
      · rw [if_neg (by omega), if_neg (by omega), mergeAt_singleton]
        simp

/-- Rows that differ at one position collapse into one row. -/
theorem collapse_varied (hnodup : fragments.Nodup) (hmany : 1 < fragments.length) :
    collapse (varied before fragments after) = [before ++ Fragment.union fragments :: after] := by
  have hne : fragments ≠ [] := List.ne_nil_of_length_pos (Nat.lt_trans Nat.one_pos hmany)
  have hrows : (varied before fragments after).Nodup := by
    apply List.Nodup.map_on _ hnodup
    intro first _ second _ heq
    simpa using heq
  have hwidth : (varied before fragments after).head?.elim 0 List.length =
      before.length + (after.length + 1) := by
    obtain ⟨fragment, others, rfl⟩ := List.exists_cons_of_ne_nil hne
    simp [varied]
  have hunite : unite fragments = Fragment.union fragments := by
    unfold unite
    split
    next single => exact absurd hmany (Nat.lt_irrefl 1)
    next => rfl
  have hbehind : ¬ before.length + (after.length + 1) ≤ before.length := by omega
  -- The first pass merges all rows into one, and the second finds nothing to merge.
  have hpass : mergePass (before.length + (after.length + 1)) (varied before fragments after) =
      ([before ++ Fragment.union fragments :: after], true) := by
    rw [mergePass_varied hnodup hne, if_neg hbehind, hunite, decide_eq_true hmany]
  rw [collapse, eraseDups_eq_self hrows, hwidth, settle_eq, hpass]
  exact (settled_singleton _ _).settle_eq

end Varied

/-- The segments from `low` to `high` as the least, those between and the largest. -/
def splitFragments (form : SegmentForm) (low high : Nat) : List Fragment :=
  [form.fragment low low] ++
    (if low + 1 < high then [form.fragment (low + 1) (high - 1)] else []) ++
    [form.fragment high high]

/-- The row that is read off aligned bounds: any segment from where on they leave nothing out, the
one segment where they agree, and `split` of both where they differ. -/
def closedForm (form : SegmentForm) (split : Nat → Nat → Fragment) :
    (low high : List Nat) → Row
  | l :: low, h :: high =>
      (if SegmentBounds.Full form.top (l :: low) (h :: high) then form.any
        else if l = h then form.fragment l l
        else split l h) :: closedForm form split low high
  | _, _ => []

section ClosedForm

variable {form : SegmentForm} {split : Nat → Nat → Fragment}

theorem closedForm_full (width : Nat) :
    closedForm form split (List.replicate width 0) (List.replicate width form.top) =
      anything form width := by
  induction width with
  | zero => rfl
  | succ width ih =>
      have hfull := SegmentBounds.full_replicate form.top (width + 1)
      rw [List.replicate_succ, List.replicate_succ] at hfull ⊢
      rw [closedForm, if_pos hfull, ih]
      rfl

theorem ofBounds_full (width : Nat) :
    ofBounds form width (List.replicate width 0) (List.replicate width form.top) =
      [anything form width] := by
  cases width with
  | zero => rfl
  | succ width =>
      have hfull := SegmentBounds.full_replicate form.top (width + 1)
      rw [List.replicate_succ, List.replicate_succ] at hfull ⊢
      rw [ofBounds_cons, if_pos hfull]

theorem not_full_of_same (form : SegmentForm) (segment : Nat) (low high : List Nat) :
    ¬ SegmentBounds.Full form.top (segment :: low) (segment :: high) := by
  intro hfull
  have htop : form.top ≠ 0 := by cases form <;> exact nofun
  simp only [SegmentBounds.Full, List.all_cons, Bool.and_eq_true, decide_eq_true_eq] at hfull
  exact htop (hfull.2.1 ▸ hfull.1.1)

theorem nodup_splitFragments {l h : Nat} (hlt : l < h) (hh : h ≤ form.top) :
    (splitFragments form l h).Nodup := by
  have hne : ∀ {low high low' high'}, low ≤ high → high ≤ form.top → low' ≤ high' →
      high' ≤ form.top → low ≠ low' → form.fragment low high ≠ form.fragment low' high' :=
    fun hle hhigh hle' hhigh' hlow heq =>
      hlow (SegmentForm.fragment_injective hle hhigh hle' hhigh' heq).1
  unfold splitFragments
  split
  next hgap =>
    have hmiddle : l + 1 ≤ h - 1 := by omega
    have hfirst := hne (Nat.le_refl l) (by omega) hmiddle (by omega) (by omega)
    have hends := hne (Nat.le_refl l) (by omega) (Nat.le_refl h) hh (by omega)
    have hlast := hne hmiddle (by omega) (Nat.le_refl h) hh (by omega)
    simp [hfirst, hends, hlast]
  next hgap =>
    have hends := hne (Nat.le_refl l) (by omega) (Nat.le_refl h) hh (by omega)
    simp [hends]

theorem one_lt_length_splitFragments (l h : Nat) : 1 < (splitFragments form l h).length := by
  unfold splitFragments
  split <;> simp

/-- The rows of aligned bounds are one row in its closed form, or differ at the one position where
the closed form has a split. -/
theorem ofBounds_aligned {width : Nat} {low high : List Nat}
    (hbounds : SegmentBounds form.top width low high) (haligned : Aligned form.top low high) :
    ofBounds form width low high =
        [closedForm form (fun l h => Fragment.union (splitFragments form l h)) low high] ∨
      ∃ before after fragments, fragments.Nodup ∧ 1 < fragments.length ∧
        ofBounds form width low high = varied before fragments after ∧
        closedForm form (fun l h => Fragment.union (splitFragments form l h)) low high =
          before ++ Fragment.union fragments :: after := by
  induction haligned generalizing width with
  | full count =>
      obtain rfl : count = width := by simpa using hbounds.length_low
      rw [ofBounds_full, closedForm_full]
      exact .inl rfl
  | @same segment low high haligned ih =>
      obtain ⟨width, rfl⟩ : ∃ more, width = more + 1 :=
        ⟨low.length, by simpa using hbounds.length_low.symm⟩
      have hfull := not_full_of_same form segment low high
      rw [ofBounds_cons, if_neg hfull, if_pos rfl, closedForm, if_neg hfull, if_pos rfl]
      rcases ih hbounds.tail with hone | ⟨before, after, fragments, hnodup, hmany, hrows, hclosed⟩
      · left
        rw [hone]
        rfl
      · right
        refine ⟨form.fragment segment segment :: before, after, fragments, hnodup, hmany, ?_, ?_⟩
        · rw [hrows, varied, varied, List.map_map]
          rfl
        · rw [hclosed]
          rfl
  | @split l h count hlt =>
      obtain rfl : width = count + 1 := by simpa using hbounds.length_low.symm
      have hh := hbounds.first_high_le_top
      by_cases hfull : SegmentBounds.Full form.top (l :: List.replicate count 0)
          (h :: List.replicate count form.top)
      · left
        rw [ofBounds_cons, if_pos hfull, closedForm, if_pos hfull, closedForm_full]
        rfl
      · right
        have hnodup := nodup_splitFragments hlt hh
        refine ⟨[], anything form count, splitFragments form l h, hnodup,
          one_lt_length_splitFragments l h, ?_, ?_⟩
        · -- Nothing is dropped as repeated, as the fragments of the parts are distinct.
          have hrows : (varied [] (splitFragments form l h) (anything form count)).Nodup := by
            apply List.Nodup.map_on _ hnodup
            intro first _ second _ heq
            simpa using heq
          rw [ofBounds_cons, if_neg hfull, if_neg (Nat.ne_of_lt hlt), ofBounds_full,
            ← eraseDups_eq_self hrows]
          congr 1
          unfold varied splitFragments
          rw [List.map_append, List.map_append, apply_ite (List.map _)]
          rfl
        · rw [closedForm, if_neg hfull, if_neg (Nat.ne_of_lt hlt), closedForm_full]
          rfl

/-- Collapsing the rows of aligned bounds leaves the row in its closed form. -/
theorem collapse_aligned {width : Nat} {low high : List Nat}
    (hbounds : SegmentBounds form.top width low high) (haligned : Aligned form.top low high) :
    collapse (decompose form low high) =
      [closedForm form (fun l h => Fragment.union (splitFragments form l h)) low high] := by
  have hrows : decompose form low high = ofBounds form width low high := by
    rw [← hbounds.length_low]
    rfl
  rw [hrows]
  rcases ofBounds_aligned hbounds haligned with hone |
    ⟨before, after, fragments, hnodup, hmany, hvaried, hclosed⟩
  · rw [hone, (settled_singleton _ _).collapse_eq]
  · rw [hvaried, collapse_varied hnodup hmany, hclosed]

/-- The last fragment of the closed form is that of the last segments. -/
theorem exists_closedForm_concat {low high : List Nat} (hlength : low.length = high.length)
    (l h : Nat) :
    ∃ before : Row, before.length = low.length ∧
      closedForm form form.fragment (low ++ [l]) (high ++ [h]) = before ++ [form.fragment l h] := by
  induction low generalizing high with
  | nil =>
      obtain rfl := List.length_eq_zero_iff.mp hlength.symm
      refine ⟨[], rfl, ?_⟩
      simp only [List.nil_append, closedForm, List.cons.injEq, and_true]
      split
      next hfull =>
        simp only [SegmentBounds.Full, List.all_cons, List.all_nil, Bool.and_true,
          decide_eq_true_eq] at hfull
        rw [hfull.1, hfull.2, form.any_eq_fragment]
      next hfull =>
        split
        next heq => rw [heq]
        next hne => rfl
  | cons segment low ih =>
      cases high with
      | nil => exact absurd hlength (Nat.succ_ne_zero _)
      | cons other high =>
          obtain ⟨before, hbefore, hclosed⟩ := ih (Nat.succ.inj hlength)
          rw [List.cons_append, List.cons_append, closedForm, hclosed]
          exact ⟨_ :: before, congrArg Nat.succ hbefore, rfl⟩

/-- In aligned bounds of octets the split is the fragment of the whole range there. -/
theorem closedForm_octets {padded : Bool} {width : Nat} {low high : List Nat}
    (hbounds : SegmentBounds (SegmentForm.octet padded).top width low high)
    (haligned : Aligned (SegmentForm.octet padded).top low high) :
    closedForm (.octet padded)
        (fun l h => Fragment.union (splitFragments (.octet padded) l h)) low high =
      closedForm (.octet padded) (Fragment.octetRange padded) low high := by
  induction haligned generalizing width with
  | full count => rw [closedForm_full, closedForm_full]
  | @same segment low high haligned ih =>
      obtain ⟨width, rfl⟩ : ∃ more, width = more + 1 :=
        ⟨low.length, by simpa using hbounds.length_low.symm⟩
      rw [closedForm, closedForm, ih hbounds.tail, if_pos rfl, if_pos rfl]
  | @split l h count hlt =>
      have hh := hbounds.first_high_le_top
      by_cases hfull : SegmentBounds.Full (SegmentForm.octet padded).top
          (l :: List.replicate count 0) (h :: List.replicate count (SegmentForm.octet padded).top)
      · rw [closedForm, closedForm, if_pos hfull, if_pos hfull, closedForm_full, closedForm_full]
      · have hopen : ¬ (l = 0 ∧ h = 255) := by
          intro hends
          obtain ⟨rfl, rfl⟩ := hends
          exact hfull (SegmentBounds.full_replicate _ (count + 1))
        rw [closedForm, closedForm, if_neg hfull, if_neg hfull, if_neg (Nat.ne_of_lt hlt),
          if_neg (Nat.ne_of_lt hlt), closedForm_full, closedForm_full]
        exact congrArg (· :: _) (Fragment.union_octetRange padded hlt hh hopen)

end ClosedForm

end NetPattern.Row
