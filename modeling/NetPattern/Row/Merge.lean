import NetPattern.Distinct
import NetPattern.Row.Basic

/-!
# Merging rows

Rows that agree everywhere but at one position match together what a single row does that has at
this position the union of theirs. Collapsing merges at each position in turn, again and again,
until a pass over all positions merges nothing. Each merge leaves fewer rows, so this comes to an
end.
-/

namespace NetPattern

namespace Row

/-- The distinct fragments at a position of the rows that agree with `blank` elsewhere. -/
def variants (position : Nat) (rows : List Row) (blank : Row) : List Fragment :=
  ((rows.filter fun row => row.blankAt position = blank).map (·.fragmentAt position)).eraseDups

/-- One fragment for the variants of a position: a single variant stays as it is. -/
def unite : List Fragment → Fragment
  | [single] => single
  | several => Fragment.union several

/-- The rows merged at one position, and whether any were. A merged row stands where the first of
its rows stood. -/
def mergeAt (position : Nat) (rows : List Row) : List Row × Bool :=
  let blanks := (rows.map (·.blankAt position)).eraseDups
  (blanks.map fun blank => blank.set position (unite (variants position rows blank)),
    blanks.any fun blank => 1 < (variants position rows blank).length)

/-- The rows merged at each of the first `width` positions in turn, and whether any were. -/
def mergePass (width : Nat) (rows : List Row) : List Row × Bool :=
  (List.range width).foldl
    (fun (rows, merged) position =>
      let (next, here) := mergeAt position rows
      (next, merged || here))
    (rows, false)

theorem mergePass_succ (width : Nat) (rows : List Row) :
    mergePass (width + 1) rows =
      ((mergeAt width (mergePass width rows).1).1,
        (mergePass width rows).2 || (mergeAt width (mergePass width rows).1).2) := by
  simp [mergePass, List.range_succ]

theorem length_mergeAt_le (position : Nat) (rows : List Row) :
    (mergeAt position rows).1.length ≤ rows.length := by
  have h := length_eraseDups_le (rows.map (·.blankAt position))
  simpa [mergeAt] using h

/-- Where rows are merged, there are fewer of them. -/
theorem length_mergeAt_lt (position : Nat) (rows : List Row)
    (h : (mergeAt position rows).2 = true) :
    (mergeAt position rows).1.length < rows.length := by
  simp only [mergeAt, List.any_eq_true, decide_eq_true_eq] at h
  obtain ⟨blank, -, hblank⟩ := h
  have hle := length_eraseDups_le
    ((rows.filter fun row => row.blankAt position = blank).map (·.fragmentAt position))
  have hcount : 1 < (rows.map (·.blankAt position)).count blank := by
    have heq : (rows.map (·.blankAt position)).count blank =
        (rows.filter fun row => row.blankAt position = blank).length := by
      rw [List.count, List.countP_map, List.countP_eq_length_filter]
      congr 2
      funext row
      exact Bool.beq_eq_decide_eq _ _
    rw [variants] at hblank
    rw [List.length_map] at hle
    omega
  simpa [mergeAt] using length_eraseDups_lt_of_one_lt_count _ hcount

/-- A pass never adds a row, and where it merges any it leaves fewer. -/
theorem length_mergePass (width : Nat) (rows : List Row) :
    (mergePass width rows).1.length ≤ rows.length ∧
      ((mergePass width rows).2 = true → (mergePass width rows).1.length < rows.length) := by
  induction width with
  | zero => simp [mergePass]
  | succ width ih =>
      have hle := length_mergeAt_le width (mergePass width rows).1
      have hlt := length_mergeAt_lt width (mergePass width rows).1
      rw [mergePass_succ]
      dsimp only
      refine ⟨by omega, fun hmerged => ?_⟩
      rcases Bool.or_eq_true _ _ ▸ hmerged with hbefore | hhere
      · have := ih.2 hbefore
        omega
      · have := hlt hhere
        omega

/-- Merges at the first `width` positions until nothing is left to merge. -/
def settle (width : Nat) (rows : List Row) : List Row :=
  let next := mergePass width rows
  if h : next.2 then
    have := (length_mergePass width rows).2 h
    settle width next.1
  else next.1
termination_by rows.length

theorem settle_eq (width : Nat) (rows : List Row) :
    settle width rows =
      if (mergePass width rows).2 then settle width (mergePass width rows).1
      else (mergePass width rows).1 := by
  rw [settle]
  split <;> rfl

/-- The distinct rows of a list, merged as far as the positions of its first row allow. -/
def collapse (rows : List Row) : List Row :=
  settle (rows.head?.elim 0 List.length) rows.eraseDups

end Row

end NetPattern
