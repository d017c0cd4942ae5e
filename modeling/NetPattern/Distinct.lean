/-!
# Distinct members

The distinct members of a list, in the order in which they first appear, are never more than the
members, and fewer as soon as one of them is repeated.
-/

namespace NetPattern

/-- Distinct members are found head first: behind the head, only what differs from it is left. -/
theorem distinct_induction {α : Type} [BEq α] {motive : List α → Prop} (nil : motive [])
    (cons : ∀ a rest, motive (rest.filter fun b => !b == a) → motive (a :: rest))
    (members : List α) : motive members :=
  match members with
  | [] => nil
  | a :: rest => cons a rest (distinct_induction nil cons (rest.filter fun b => !b == a))
termination_by members.length
decreasing_by
  have hfilter := List.length_filter_le (fun b => !b == a) rest
  rw [List.length_cons]
  omega

/-- A list has no more distinct members than members. -/
theorem length_eraseDups_le {α : Type} [BEq α] (members : List α) :
    members.eraseDups.length ≤ members.length := by
  induction members using distinct_induction with
  | nil => simp
  | cons a rest ih =>
      have hfilter := List.length_filter_le (fun b => !b == a) rest
      rw [List.eraseDups_cons, List.length_cons, List.length_cons]
      omega

/-- A list with a repeated member has fewer distinct members than members. -/
theorem length_eraseDups_lt_of_one_lt_count {α : Type} [BEq α] [LawfulBEq α] {repeated : α}
    (members : List α) (h : 1 < members.count repeated) :
    members.eraseDups.length < members.length := by
  induction members using distinct_induction with
  | nil => simp at h
  | cons a rest ih =>
      rw [List.eraseDups_cons, List.length_cons, List.length_cons]
      have hle := length_eraseDups_le (rest.filter fun b => !b == a)
      have hfilter := List.length_filter_le (fun b => !b == a) rest
      by_cases ha : repeated = a
      · subst ha
        rw [List.count_cons_self] at h
        have hmem : repeated ∈ rest := List.count_pos_iff.mp (by omega)
        have hlt : (rest.filter fun b => !b == repeated).length < rest.length := by
          rw [List.length_filter_lt_length_iff_exists]
          exact ⟨repeated, hmem, by simp⟩
        omega
      · have hcount : (rest.filter fun b => !b == a).count repeated = rest.count repeated :=
          List.count_filter (by simpa using ha)
        rw [List.count_cons_of_ne (Ne.symm ha)] at h
        have ih := ih (hcount ▸ h)
        omega

end NetPattern
