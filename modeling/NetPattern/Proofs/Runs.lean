import Mathlib.Data.List.Forall2

/-!
# Steps that may fail

A row of steps gives a result if each of them does, and two steps of which the second cannot fail
do so as the first does.
-/

namespace NetPattern

/-- What is written member by member is read back member by member. -/
theorem mapM_map_eq_pure {m : Type → Type} [Monad m] [LawfulMonad m] {α β : Type}
    {write : α → β} {read : β → m α} {members : List α}
    (h : ∀ a ∈ members, read (write a) = pure a) :
    (members.map write).mapM read = pure members := by
  induction members with
  | nil => rfl
  | cons a members ih =>
      obtain ⟨ha, hmembers⟩ := List.forall_mem_cons.mp h
      rw [List.map_cons, List.mapM_cons, ha, ih hmembers, pure_bind, pure_bind]

theorem exists_of_bind_eq_ok {ε α β : Type} {x : Except ε α} {f : α → Except ε β} {b : β}
    (h : x >>= f = .ok b) : ∃ a, x = .ok a ∧ f a = .ok b := by
  cases x with
  | error e => exact nomatch h
  | ok a => exact ⟨a, rfl, h⟩

/-- Where the second step cannot fail, both steps together fail as the first does. -/
theorem bind_eq_error_iff {ε α β : Type} {x : Except ε α} {f : α → Except ε β}
    (hf : ∀ a, ∃ b, f a = .ok b) {e : ε} : x >>= f = .error e ↔ x = .error e := by
  cases x with
  | error e' => exact Iff.rfl.trans (by simp [bind, Except.bind])
  | ok a =>
      obtain ⟨b, hb⟩ := hf a
      simp [bind, Except.bind, hb]

/-- A step that fails where something does not hold, and there only, gives a result where it does. -/
theorem isSome_iff_of_eq_none {α : Type} {result : Option α} {asked : Prop}
    (hnone : ¬ asked → result = none) (hsome : asked → ∃ a, result = some a) :
    result.isSome = true ↔ asked := by
  constructor
  · contrapose
    intro hnot
    rw [hnone hnot]
    exact Bool.false_ne_true
  · intro hasked
    exact Option.isSome_iff_exists.mpr (hsome hasked)

section MapM

variable {α β : Type} {members : List α} {values : List β}

/-- Where a run gives a value only if each of its steps does, a list is read member by member. -/
theorem mapM_eq_pure_iff {m : Type → Type} [Monad m] [LawfulMonad m]
    (hpure : ∀ {γ : Type} {c d : γ}, (pure c : m γ) = pure d → c = d)
    (hbind : ∀ {γ δ : Type} {x : m γ} {f : γ → m δ} {d : δ},
      x >>= f = pure d → ∃ c, x = pure c ∧ f c = pure d) {read : α → m β} :
    members.mapM read = pure values ↔
      List.Forall₂ (fun a b => read a = pure b) members values := by
  induction members generalizing values with
  | nil =>
      rw [List.mapM_nil, List.forall₂_nil_left_iff]
      exact ⟨fun h => (hpure h).symm, fun h => h ▸ rfl⟩
  | cons a members ih =>
      rw [List.mapM_cons, List.forall₂_cons_left_iff]
      constructor
      · intro h
        obtain ⟨b, hb, h⟩ := hbind h
        obtain ⟨rest, hrest, h⟩ := hbind h
        exact ⟨b, rest, hb, ih.mp hrest, (hpure h).symm⟩
      · intro h
        obtain ⟨b, rest, hb, hrest, rfl⟩ := h
        rw [hb, ih.mpr hrest, pure_bind, pure_bind]

theorem mapM_eq_some_iff {read : α → Option β} :
    members.mapM read = some values ↔
      List.Forall₂ (fun a b => read a = some b) members values :=
  mapM_eq_pure_iff Option.some.inj Option.bind_eq_some_iff.mp

theorem mapM_eq_ok_iff {ε : Type} {read : α → Except ε β} :
    members.mapM read = .ok values ↔
      List.Forall₂ (fun a b => read a = .ok b) members values := by
  exact mapM_eq_pure_iff Except.ok.inj exists_of_bind_eq_ok

end MapM

end NetPattern
