import NetPattern.Proofs.Distinct
import NetPattern.Proofs.Fragment.Scan

/-!
# Balanced texts

A text is balanced if each of its groups, escapes and bracket classes ends in it, and nothing else
does. The texts of expressions are balanced, whatever their symbols and quantifiers mean. On
balanced texts the scanner undoes what a union does: it finds the pieces that were joined, and only
where a piece is itself a group would a later union take it apart. So parts without such pieces may
be united in groups first.
-/

namespace NetPattern.Fragment

/-- Whether a scan of a text ends where it began and meets no closing parenthesis outside groups. -/
def IsBalanced (text : Fragment) : Prop :=
  walk ')' .start text = some .start

instance (text : Fragment) : Decidable text.IsBalanced :=
  inferInstanceAs (Decidable (_ = _))

/-- Whether a text is balanced and has no bar outside its groups. -/
structure IsPiece (text : Fragment) : Prop where
  isBalanced : IsBalanced text
  walk_bar : walk '|' .start text = some .start

/-- The alternatives that a fragment brings to a union. -/
def members (fragment : Fragment) : List Fragment :=
  alternatives ((ungroup? fragment).getD fragment)

/-- Whether a union leaves the alternatives of a fragment as they are, in whatever union it stands:
none of them is a group of its own. -/
structure IsFlat (fragment : Fragment) : Prop where
  isBalanced : fragment.IsBalanced
  ungroup?_eq_none : ∀ member ∈ fragment.members, ungroup? member = none

theorem isFlat_iff {fragment : Fragment} : fragment.IsFlat ↔
    fragment.IsBalanced ∧ ∀ member ∈ fragment.members, ungroup? member = none :=
  ⟨fun h => ⟨h.isBalanced, h.ungroup?_eq_none⟩, fun h => ⟨h.1, h.2⟩⟩

instance (fragment : Fragment) : Decidable fragment.IsFlat :=
  decidable_of_iff _ isFlat_iff.symm

/-! ### Pieces -/

theorem alternatives_ne_nil (text : Fragment) : alternatives text ≠ [] :=
  alternativesFrom_ne_nil .start text

/-- The first piece of a balanced text goes on from the place where the text starts, and each other
piece starts anew. -/
theorem alternativesFrom_of_walk {place : Place} {text : List Char}
    (h : walk ')' place text = some .start) :
    ∃ first others, alternativesFrom place text = first :: others ∧
      walk ')' place first = some .start ∧ walk '|' place first = some .start ∧
      ∀ piece ∈ others, IsPiece piece := by
  induction text generalizing place with
  | nil => exact ⟨[], [], rfl, h, h, fun _ hpiece => absurd hpiece List.not_mem_nil⟩
  | cons c rest ih =>
      rw [walk] at h
      split at h
      · exact absurd h.symm (Option.some_ne_none _)
      next hclose =>
        obtain ⟨first, others, hrest, hfirst, hbar, hothers⟩ := ih h
        rw [alternativesFrom]
        by_cases hcut : place = .start ∧ c = '|'
        · obtain ⟨rfl, rfl⟩ := hcut
          have hstart : Place.start.next '|' = .start := by decide
          rw [hstart] at hrest hfirst hbar
          rw [if_pos ⟨rfl, rfl⟩, hrest]
          exact ⟨[], first :: others, rfl, rfl, rfl,
            List.forall_mem_cons.mpr ⟨⟨hfirst, hbar⟩, hothers⟩⟩
        · rw [if_neg hcut, hrest, List.modifyHead_cons]
          refine ⟨c :: first, others, rfl, ?_, ?_, hothers⟩
          · rwa [walk, if_neg hclose]
          · rwa [walk, if_neg hcut]

theorem IsBalanced.isPiece_of_mem {text : Fragment} (h : IsBalanced text) :
    ∀ piece ∈ alternatives text, IsPiece piece := by
  obtain ⟨first, others, htext, hfirst, hbar, hothers⟩ := alternativesFrom_of_walk h
  rw [alternatives, htext]
  exact List.forall_mem_cons.mpr ⟨⟨hfirst, hbar⟩, hothers⟩

theorem IsPiece.alternatives_eq {text : Fragment} (h : IsPiece text) :
    alternatives text = [text] := by
  have happend := alternativesFrom_append h.walk_bar []
  rw [List.append_nil] at happend
  rw [alternatives, happend, alternativesFrom, List.modifyHead_cons, List.append_nil]

section Join

variable {pieces : List Fragment} (hpieces : ∀ piece ∈ pieces, IsPiece piece)

include hpieces

/-- Pieces that were joined are found again. -/
theorem alternatives_intercalate (hne : pieces ≠ []) :
    alternatives (['|'].intercalate pieces) = pieces := by
  induction pieces with
  | nil => exact absurd rfl hne
  | cons first others ih =>
      obtain ⟨hfirst, hothers⟩ := List.forall_mem_cons.mp hpieces
      by_cases hlast : others = []
      · rw [hlast, List.intercalate_singleton, hfirst.alternatives_eq]
      · rw [List.intercalate_cons_of_ne_nil hlast, List.append_assoc, alternatives,
          alternativesFrom_append hfirst.walk_bar, List.singleton_append, alternativesFrom,
          if_pos ⟨rfl, rfl⟩, List.modifyHead_cons, List.append_nil]
        exact congrArg _ (ih hothers hlast)

theorem isBalanced_intercalate : IsBalanced (['|'].intercalate pieces) := by
  induction pieces with
  | nil => rfl
  | cons first others ih =>
      obtain ⟨hfirst, hothers⟩ := List.forall_mem_cons.mp hpieces
      by_cases hlast : others = []
      · rw [hlast, List.intercalate_singleton]
        exact hfirst.isBalanced
      · rw [List.intercalate_cons_of_ne_nil hlast, List.append_assoc, IsBalanced,
          walk_append hfirst.isBalanced]
        exact ih hothers

end Join

/-! ### Groups -/

theorem ungroup?_eq_some_iff {fragment inner : Fragment} :
    ungroup? fragment = some inner ↔
      fragment = "(?:".toList ++ inner ++ [')'] ∧ closesFrom .start inner = true := by
  constructor
  · intro h
    unfold ungroup? at h
    split at h
    next rest =>
      split at h
      next hgroup =>
        obtain rfl := Option.some.inj h
        obtain ⟨hlast, hcloses⟩ := hgroup
        refine ⟨?_, hcloses⟩
        rw [List.append_assoc, List.dropLast_append_getLast? _ hlast]
        rfl
      next => exact absurd h.symm (Option.some_ne_none _)
    next => exact absurd h.symm (Option.some_ne_none _)
  · rintro ⟨rfl, hcloses⟩
    have htext : "(?:".toList ++ inner ++ [')'] = '(' :: '?' :: ':' :: (inner ++ [')']) := rfl
    rw [htext, ungroup?, List.dropLast_concat, if_pos ⟨List.getLast?_concat .., hcloses⟩]

/-- Inside a group, the place behind a character is one level deeper than it is outside. -/
theorem Place.next_succ {context : Context} {depth : Nat} {c : Char}
    (h : ¬ ((⟨context, depth⟩ : Place) = .start ∧ c = ')')) :
    Place.next ⟨context, depth + 1⟩ c =
      ⟨(Place.next ⟨context, depth⟩ c).context, (Place.next ⟨context, depth⟩ c).depth + 1⟩ := by
  cases context with
  | escape => rfl
  | bracket => rfl
  | plain =>
      by_cases hclose : c = ')'
      · -- A parenthesis that closes a group of its own leaves a depth to count down from.
        have hdepth : depth ≠ 0 := by
          rintro rfl
          exact h ⟨rfl, hclose⟩
        subst hclose
        simp only [Place.next, Char.reduceEq, if_false, if_true]
        rw [Nat.add_sub_cancel, Nat.sub_add_cancel (Nat.pos_of_ne_zero hdepth)]
      · simp only [Place.next, hclose, if_false]
        split_ifs <;> rfl

/-- Inside a group, a text that closes no other group than its own ends in the context in which it
ends outside of it. -/
theorem walk_of_closesFrom {context : Context} {depth : Nat} {text : List Char}
    (h : closesFrom ⟨context, depth⟩ text = true) :
    ∃ last, walk ')' ⟨context, depth⟩ text = some ⟨last, 0⟩ ∧
      walk ')' ⟨context, depth + 1⟩ text = some ⟨last, 1⟩ := by
  induction text generalizing context depth with
  | nil =>
      obtain rfl : depth = 0 := by simpa [closesFrom] using h
      exact ⟨context, rfl, rfl⟩
  | cons c rest ih =>
      rw [closesFrom] at h
      split at h
      · exact absurd h Bool.false_ne_true
      next hclose =>
        have hinside : ¬ ((⟨context, depth + 1⟩ : Place) = .start ∧ c = ')') := by
          intro hstart
          exact absurd (congrArg Place.depth hstart.1) (Nat.succ_ne_zero depth)
        rw [walk, walk, if_neg hclose, if_neg hinside, Place.next_succ hclose]
        exact ih h

/-- A group is balanced where what is inside of it is. -/
theorem isBalanced_group_iff {inner : Fragment} (hcloses : closesFrom .start inner = true) :
    IsBalanced ("(?:".toList ++ inner ++ [')']) ↔ inner.IsBalanced := by
  obtain ⟨last, houtside, hinside⟩ := walk_of_closesFrom hcloses
  have hopen : walk ')' .start "(?:".toList = some ⟨.plain, 1⟩ := by decide
  have hstart : walk ')' .start inner = some ⟨last, 0⟩ := houtside
  rw [IsBalanced, IsBalanced, List.append_assoc, walk_append hopen, walk_append hinside, hstart]
  -- Behind an escape or in a bracket class the last parenthesis would close nothing.
  cases last <;> decide

theorem IsBalanced.of_ungroup? {fragment inner : Fragment} (h : fragment.IsBalanced)
    (hinner : ungroup? fragment = some inner) : inner.IsBalanced := by
  obtain ⟨rfl, hcloses⟩ := ungroup?_eq_some_iff.mp hinner
  exact (isBalanced_group_iff hcloses).mp h

theorem IsBalanced.isPiece_of_mem_members {fragment : Fragment} (h : fragment.IsBalanced) :
    ∀ member ∈ fragment.members, IsPiece member := by
  rw [members]
  cases hinner : ungroup? fragment with
  | none => exact h.isPiece_of_mem
  | some inner => exact (h.of_ungroup? hinner).isPiece_of_mem

theorem ungroup?_group_of_pieces {pieces : List Fragment}
    (hpieces : ∀ piece ∈ pieces, IsPiece piece) :
    ungroup? (group pieces) = some (['|'].intercalate pieces) := by
  rw [ungroup?_eq_some_iff]
  refine ⟨rfl, ?_⟩
  have hcloses := closesFrom_append (isBalanced_intercalate hpieces) []
  rwa [List.append_nil] at hcloses

theorem isBalanced_group {pieces : List Fragment} (hpieces : ∀ piece ∈ pieces, IsPiece piece) :
    IsBalanced (group pieces) := by
  obtain ⟨htext, hcloses⟩ := ungroup?_eq_some_iff.mp (ungroup?_group_of_pieces hpieces)
  rw [htext]
  exact (isBalanced_group_iff hcloses).mpr (isBalanced_intercalate hpieces)

/-! ### Unions -/

section Union

variable {parts : List Fragment}

theorem distinctAlternatives_eq (parts : List Fragment) :
    distinctAlternatives parts = (parts.flatMap members).eraseDups :=
  rfl

theorem mem_distinctAlternatives {piece : Fragment} :
    piece ∈ distinctAlternatives parts ↔ ∃ part ∈ parts, piece ∈ part.members := by
  rw [distinctAlternatives_eq, List.mem_eraseDups, List.mem_flatMap]

theorem distinctAlternatives_ne_nil (hne : parts ≠ []) : distinctAlternatives parts ≠ [] := by
  obtain ⟨part, hpart⟩ := List.exists_mem_of_ne_nil parts hne
  obtain ⟨piece, hpiece⟩ := List.exists_mem_of_ne_nil part.members (alternatives_ne_nil _)
  exact List.ne_nil_of_mem (mem_distinctAlternatives.mpr ⟨part, hpart, hpiece⟩)

variable (hflat : ∀ part ∈ parts, part.IsFlat)

include hflat

theorem isPiece_of_mem_distinctAlternatives :
    ∀ piece ∈ distinctAlternatives parts, IsPiece piece := by
  intro piece hpiece
  obtain ⟨part, hpart, hmem⟩ := mem_distinctAlternatives.mp hpiece
  exact (hflat part hpart).isBalanced.isPiece_of_mem_members piece hmem

/-- A union brings to another union what its parts have between them. -/
theorem members_union (hne : parts ≠ []) : members (union parts) = distinctAlternatives parts := by
  have hpieces := isPiece_of_mem_distinctAlternatives hflat
  unfold union
  split
  next hnil => exact absurd hnil (distinctAlternatives_ne_nil hne)
  next single hsingle =>
    have hmem : single ∈ distinctAlternatives parts := hsingle ▸ List.mem_cons_self
    obtain ⟨part, hpart, hmember⟩ := mem_distinctAlternatives.mp hmem
    rw [members, (hflat part hpart).ungroup?_eq_none single hmember, Option.getD_none,
      (hpieces single hmem).alternatives_eq, hsingle]
  next =>
    rw [members, ungroup?_group_of_pieces hpieces, Option.getD_some,
      alternatives_intercalate hpieces (distinctAlternatives_ne_nil hne)]

/-- A union of flat parts is flat, as each of its alternatives is one of a part. -/
theorem IsFlat.union : (union parts).IsFlat := by
  have hpieces := isPiece_of_mem_distinctAlternatives hflat
  by_cases hnil : parts = []
  · subst hnil
    decide
  constructor
  · unfold Fragment.union
    split
    next => decide
    next single hsingle => exact (hpieces single (hsingle ▸ List.mem_cons_self)).isBalanced
    next => exact isBalanced_group hpieces
  · intro member hmember
    rw [members_union hflat hnil] at hmember
    obtain ⟨part, hpart, hmem⟩ := mem_distinctAlternatives.mp hmember
    exact (hflat part hpart).ungroup?_eq_none member hmem

end Union

/-- Flat parts may be united in groups first. -/
theorem union_map_union {groups : List (List Fragment)} (hne : ∀ parts ∈ groups, parts ≠ [])
    (hflat : ∀ parts ∈ groups, ∀ part ∈ parts, part.IsFlat) :
    union (groups.map union) = union groups.flatten := by
  have hmembers :
      distinctAlternatives (groups.map union) = distinctAlternatives groups.flatten := by
    have hgroups : groups.flatMap (fun parts => (union parts).members) =
        groups.flatMap distinctAlternatives :=
      List.flatMap_congr fun parts hparts => members_union (hflat parts hparts) (hne parts hparts)
    rw [distinctAlternatives_eq, List.flatMap_map, hgroups]
    unfold distinctAlternatives
    rw [eraseDups_flatMap_eraseDups, ← List.flatMap_id, List.flatMap_assoc]
    rfl
  rw [union, hmembers, union]

end NetPattern.Fragment
