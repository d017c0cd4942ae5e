import Mathlib.Data.List.Induction
import Mathlib.Data.List.Perm.Subperm
import NetPattern.Distinct

/-!
# Lists without repeated members

Dropping repeated members leaves none behind, changes nothing where there were none, and commutes
with any map that keeps members apart.
-/

namespace NetPattern

theorem nodup_eraseDups {α : Type} [BEq α] [LawfulBEq α] (members : List α) :
    members.eraseDups.Nodup := by
  induction members using distinct_induction with
  | nil => simp
  | cons a rest ih =>
      rw [List.eraseDups_cons, List.nodup_cons]
      refine ⟨?_, ih⟩
      intro hmem
      simpa using List.mem_eraseDups.mp hmem

theorem eraseDups_eq_self {α : Type} [BEq α] [LawfulBEq α] {members : List α}
    (h : members.Nodup) : members.eraseDups = members := by
  induction members with
  | nil => rfl
  | cons a rest ih =>
      obtain ⟨ha, hrest⟩ := List.nodup_cons.mp h
      have hfilter : (rest.filter fun b => !b == a) = rest := by
        apply List.filter_eq_self.mpr
        intro b hb
        have hne : b ≠ a := fun heq => ha (heq ▸ hb)
        simpa using hne
      rw [List.eraseDups_cons, hfilter, ih hrest]

/-- A last member is kept unless it is one of those before it. -/
theorem eraseDups_concat {α : Type} [BEq α] [LawfulBEq α] (members : List α) (last : α) :
    (members ++ [last]).eraseDups =
      if last ∈ members then members.eraseDups else members.eraseDups ++ [last] := by
  rw [List.eraseDups_append, List.removeAll, List.filter_cons, List.filter_nil]
  by_cases h : last ∈ members
  · rw [if_pos h, if_neg (by simpa using h), List.eraseDups_nil, List.append_nil]
  · rw [if_neg h, if_pos (by simpa using h), List.eraseDups_cons, List.filter_nil,
      List.eraseDups_nil]

/-- The distinct images of distinct members are those of the members that are the first with their
image. -/
theorem map_filter_find_eq {α β : Type} [DecidableEq α] [DecidableEq β] [BEq β] [LawfulBEq β]
    (f : α → β) {members : List α} (h : members.Nodup) :
    (members.filter fun a => members.find? (fun b => f a = f b) = some a).map f =
      (members.map f).eraseDups := by
  induction members using List.reverseRecOn with
  | nil => rfl
  | append_singleton members last ih =>
      obtain ⟨hnodup, -, hdisjoint⟩ := List.nodup_append.mp h
      have hbefore : members.filter (fun a =>
          (members ++ [last]).find? (fun b => f a = f b) = some a) =
            members.filter fun a => members.find? (fun b => f a = f b) = some a := by
        apply List.filter_congr
        intro a ha
        have hsome : (members.find? fun b => f a = f b).isSome :=
          List.find?_isSome.mpr ⟨a, ha, by simp⟩
        rw [List.find?_append, Option.or_of_isSome hsome]
      have hlast : (members ++ [last]).find? (fun b => f last = f b) = some last ↔
          f last ∉ members.map f := by
        rw [List.find?_append]
        cases hfind : members.find? fun b => f last = f b with
        | none =>
            rw [List.find?_eq_none] at hfind
            simpa [eq_comm] using hfind
        | some b =>
            have hb := List.mem_of_find?_eq_some hfind
            have himage : f last = f b := by simpa using List.find?_some hfind
            have hne : b ≠ last := hdisjoint b hb last List.mem_cons_self
            simp [hne, himage, List.mem_map_of_mem hb]
      rw [List.filter_append, hbefore, List.map_append, ih hnodup, List.map_append,
        List.map_singleton, eraseDups_concat]
      by_cases hmem : f last ∈ members.map f
      · rw [if_pos hmem, List.filter_cons_of_neg, List.filter_nil, List.map_nil, List.append_nil]
        rwa [decide_eq_true_iff, hlast, not_not]
      · rw [if_neg hmem, List.filter_cons_of_pos, List.filter_nil, List.map_singleton]
        rwa [decide_eq_true_iff, hlast]

theorem eraseDups_map {α β : Type} [BEq α] [LawfulBEq α] [BEq β] [LawfulBEq β] {f : α → β}
    (members : List α) (hf : ∀ a ∈ members, ∀ b ∈ members, f a = f b → a = b) :
    (members.map f).eraseDups = members.eraseDups.map f := by
  induction members using distinct_induction with
  | nil => rfl
  | cons a rest ih =>
      have hfilter : ((rest.map f).filter fun b => !b == f a) =
          (rest.filter fun b => !b == a).map f := by
        rw [List.filter_map]
        congr 1
        apply List.filter_congr
        intro b hb
        by_cases hba : b = a
        · simp [hba]
        · have hne : f b ≠ f a := fun heq =>
            hba (hf b (List.mem_cons_of_mem _ hb) a List.mem_cons_self heq)
          simp [hba, hne]
      have ih := ih fun x hx y hy =>
        hf x (List.mem_cons_of_mem _ (List.mem_of_mem_filter hx))
          y (List.mem_cons_of_mem _ (List.mem_of_mem_filter hy))
      rw [List.map_cons, List.eraseDups_cons, List.eraseDups_cons, List.map_cons, hfilter, ih]

theorem eraseDups_filter {α : Type} [BEq α] [LawfulBEq α] (p : α → Bool) (members : List α) :
    (members.filter p).eraseDups = members.eraseDups.filter p := by
  induction members using distinct_induction with
  | nil => rfl
  | cons a rest ih =>
      rw [List.eraseDups_cons, List.filter_cons, List.filter_cons]
      by_cases ha : p a = true
      · rw [if_pos ha, if_pos ha, List.eraseDups_cons, ← ih, List.filter_filter, List.filter_filter]
        simp only [Bool.and_comm]
      · rw [if_neg ha, if_neg ha, ← ih, List.filter_filter]
        congr 1
        apply List.filter_congr
        intro b _
        by_cases hba : b = a
        · rw [hba, Bool.eq_false_iff.mpr ha]
          rfl
        · simp [hba]

/-- Members may be dropped as repeated in each part of a list before they are in the whole. -/
theorem eraseDups_flatMap_eraseDups {α β : Type} [BEq β] [LawfulBEq β] (f : α → List β)
    (parts : List α) :
    (parts.flatMap fun part => (f part).eraseDups).eraseDups = (parts.flatMap f).eraseDups := by
  induction parts with
  | nil => rfl
  | cons part parts ih =>
      have hremove : ∀ members : List β,
          members.removeAll (f part).eraseDups = members.removeAll (f part) := by
        intro members
        unfold List.removeAll
        apply List.filter_congr
        intro b _
        simp [List.elem_eq_contains, List.mem_eraseDups]
      rw [List.flatMap_cons, List.flatMap_cons, List.eraseDups_append, List.eraseDups_append,
        eraseDups_eq_self (nodup_eraseDups (f part)), hremove]
      unfold List.removeAll
      rw [eraseDups_filter, eraseDups_filter, ih]

/-- Distinct members of one list that each come from a member of another are no more than these. -/
theorem countP_le_of_exists_preimage {α β : Type} {f : α → β} {images : List β} {members : List α}
    {p : β → Bool} {q : α → Bool} (hnodup : images.Nodup)
    (h : ∀ b ∈ images, p b = true → ∃ a ∈ members, q a = true ∧ f a = b) :
    images.countP p ≤ members.countP q := by
  have hsubset : images.filter p ⊆ (members.filter q).map f := by
    intro b hb
    obtain ⟨hmem, hp⟩ := List.mem_filter.mp hb
    obtain ⟨a, ha, hq, rfl⟩ := h b hmem hp
    exact List.mem_map_of_mem (List.mem_filter.mpr ⟨ha, hq⟩)
  have hfilter : (images.filter p).Nodup := hnodup.filter p
  have hle := (List.Nodup.subperm hfilter hsubset).length_le
  rwa [List.length_map, ← List.countP_eq_length_filter, ← List.countP_eq_length_filter] at hle

end NetPattern
