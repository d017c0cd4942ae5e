import Mathlib.Data.List.Induction
import Mathlib.Data.List.Lex
import Mathlib.Tactic.Ring
import NetPattern.Positional

/-!
# Numbers and their digits

The lists of `width` digits and the numbers below `base ^ width` are the same thing: each is read
back from the other, and the order of the numbers is that of the lists, compared from the most
significant digit on.
-/

namespace NetPattern

theorem cons_le_cons_iff {a b : Nat} {low high : List Nat} :
    a :: low ≤ b :: high ↔ a < b ∨ a = b ∧ low ≤ high := by
  rw [← not_lt, ← not_lt, List.cons_lt_cons_iff]
  constructor
  · intro h
    rcases Nat.lt_trichotomy a b with hab | hab | hab
    · exact .inl hab
    · exact .inr ⟨hab, fun hlt => h (.inr ⟨hab.symm, hlt⟩)⟩
    · exact absurd (.inl hab) h
  · intro h hlt
    rcases h with hab | ⟨hab, hle⟩
    · rcases hlt with hba | ⟨hba, -⟩ <;> omega
    · rcases hlt with hba | ⟨-, hba⟩
      · omega
      · exact hle hba

theorem nil_le_nil : ([] : List Nat) ≤ [] := le_refl _

theorem cons_le_cons_self_iff {a : Nat} {low high : List Nat} :
    a :: low ≤ a :: high ↔ low ≤ high := by
  rw [cons_le_cons_iff]
  simp

/-- Between lists with different heads lie the lists behind the lower one with its head, those
with a head between, and those before the upper one with its head. -/
theorem between_cons_iff {l h d : Nat} (hlt : l < h) {low high rest : List Nat} :
    l :: low ≤ d :: rest ∧ d :: rest ≤ h :: high ↔
      d = l ∧ low ≤ rest ∨ l < d ∧ d < h ∨ d = h ∧ rest ≤ high := by
  rw [cons_le_cons_iff, cons_le_cons_iff]
  constructor
  · intro hboth
    rcases hboth with ⟨hld | ⟨rfl, hlow⟩, hdh | ⟨rfl, hhigh⟩⟩
    · exact .inr (.inl ⟨hld, hdh⟩)
    · exact .inr (.inr ⟨rfl, hhigh⟩)
    · exact .inl ⟨rfl, hlow⟩
    · exact absurd hlt (Nat.lt_irrefl _)
  · intro hcases
    rcases hcases with ⟨rfl, hlow⟩ | ⟨hld, hdh⟩ | ⟨rfl, hhigh⟩
    · exact ⟨.inr ⟨rfl, hlow⟩, .inl hlt⟩
    · exact ⟨.inl hld, .inl hdh⟩
    · exact ⟨.inl hlt, .inr ⟨rfl, hhigh⟩⟩

theorem between_cons_self_iff {l d : Nat} {low high rest : List Nat} :
    l :: low ≤ d :: rest ∧ d :: rest ≤ l :: high ↔ d = l ∧ low ≤ rest ∧ rest ≤ high := by
  rw [cons_le_cons_iff, cons_le_cons_iff]
  constructor
  · intro hboth
    rcases hboth with ⟨hld | ⟨rfl, hlow⟩, hdl | ⟨hsame, hhigh⟩⟩
    · omega
    · omega
    · omega
    · exact ⟨rfl, hlow, hhigh⟩
  · intro hcases
    obtain ⟨rfl, hlow, hhigh⟩ := hcases
    exact ⟨.inr ⟨rfl, hlow⟩, .inr ⟨rfl, hhigh⟩⟩

theorem replicate_zero_le {ds : List Nat} {width : Nat} (h : ds.length = width) :
    List.replicate width 0 ≤ ds := by
  induction ds generalizing width with
  | nil =>
      subst h
      exact nil_le_nil
  | cons d ds ih =>
      subst h
      rw [List.length_cons, List.replicate_succ, cons_le_cons_iff]
      rcases Nat.eq_zero_or_pos d with rfl | hd
      · exact .inr ⟨rfl, ih rfl⟩
      · exact .inl hd

theorem le_replicate {ds : List Nat} {top width : Nat} (h : ds.length = width)
    (htop : ∀ d ∈ ds, d ≤ top) : ds ≤ List.replicate width top := by
  induction ds generalizing width with
  | nil =>
      subst h
      exact nil_le_nil
  | cons d ds ih =>
      subst h
      obtain ⟨hd, hds⟩ := List.forall_mem_cons.mp htop
      rw [List.length_cons, List.replicate_succ, cons_le_cons_iff]
      rcases Nat.lt_or_eq_of_le hd with hlt | rfl
      · exact .inl hlt
      · exact .inr ⟨rfl, ih rfl hds⟩

theorem all_eq_iff {ds : List Nat} {a width : Nat} (h : ds.length = width) :
    (ds.all (· = a)) = true ↔ ds = List.replicate width a := by
  rw [List.eq_replicate_iff]
  simp [h]

namespace Positional

variable {base : Nat}

theorem value_cons (base digit : Nat) (ds : List Nat) :
    value base (digit :: ds) = digit * base ^ ds.length + value base ds := by
  induction ds using List.reverseRecOn with
  | nil => simp [value]
  | append_singleton ds last ih =>
      rw [← List.cons_append, value_concat, value_concat, ih, List.length_append,
        List.length_singleton, Nat.pow_succ]
      ring

theorem value_replicate_zero_append (base count : Nat) (ds : List Nat) :
    value base (List.replicate count 0 ++ ds) = value base ds := by
  induction count with
  | zero => rfl
  | succ count ih => rw [List.replicate_succ, List.cons_append, value_cons, ih, Nat.zero_mul,
      Nat.zero_add]

/-- The digits behind others count as they do alone. -/
theorem value_append (base : Nat) (first second : List Nat) :
    value base (first ++ second) = value base first * base ^ second.length + value base second := by
  induction first with
  | nil => simp [value_nil]
  | cons d first ih =>
      rw [List.cons_append, value_cons, value_cons, ih, List.length_append, Nat.pow_add]
      ring

theorem value_lt {ds : List Nat} (h : ∀ d ∈ ds, d < base) : value base ds < base ^ ds.length := by
  induction ds with
  | nil => simp [value_nil]
  | cons d ds ih =>
      have hd := h d List.mem_cons_self
      have hds := ih fun e he => h e (List.mem_cons_of_mem _ he)
      rw [value_cons, List.length_cons, Nat.pow_succ]
      calc d * base ^ ds.length + value base ds
          < d * base ^ ds.length + base ^ ds.length := Nat.add_lt_add_left hds _
        _ = (d + 1) * base ^ ds.length := (Nat.succ_mul _ _).symm
        _ ≤ base * base ^ ds.length := Nat.mul_le_mul_right _ hd
        _ = base ^ ds.length * base := Nat.mul_comm _ _

theorem digits_lt (hbase : 0 < base) {width n d : Nat} (h : d ∈ digits base width n) :
    d < base := by
  induction width generalizing n with
  | zero => exact nomatch h
  | succ width ih =>
      rcases List.mem_append.mp h with h | h
      · exact ih h
      · rw [List.mem_singleton.mp h]
        exact Nat.mod_lt _ hbase

/-- The digits of a number are read back as it, as far as they are given. -/
theorem value_digits (base width n : Nat) :
    value base (digits base width n) = n % base ^ width := by
  induction width generalizing n with
  | zero => simp [digits, value_nil, Nat.mod_one]
  | succ width ih =>
      rw [digits, value_concat, ih, Nat.pow_succ, Nat.mul_comm (base ^ width) base, Nat.mod_mul]
      ring

theorem value_digits_of_lt {width n : Nat} (h : n < base ^ width) :
    value base (digits base width n) = n := by
  rw [value_digits, Nat.mod_eq_of_lt h]

/-- The last digit is what is left over, and the others are those of the quotient. -/
theorem digits_mul_add {digit : Nat} (h : digit < base) (width n : Nat) :
    digits base (width + 1) (n * base + digit) = digits base width n ++ [digit] := by
  rw [digits, Nat.mul_comm, Nat.mul_add_div (Nat.zero_lt_of_lt h), Nat.div_eq_of_lt h,
    Nat.add_zero, Nat.mul_add_mod, Nat.mod_eq_of_lt h]

/-- A list of digits is given back by the number that it stands for. -/
theorem digits_value {ds : List Nat} (h : ∀ d ∈ ds, d < base) :
    digits base ds.length (value base ds) = ds := by
  induction ds using List.reverseRecOn with
  | nil => rfl
  | append_singleton ds last ih =>
      have hlast : last < base := h last (by simp)
      have hds := ih fun d hd => h d (List.mem_append_left _ hd)
      rw [List.length_append, List.length_singleton, value_concat, digits_mul_add hlast, hds]

theorem value_le_value_iff {low high : List Nat} (hlength : low.length = high.length)
    (hlow : ∀ d ∈ low, d < base) (hhigh : ∀ d ∈ high, d < base) :
    value base low ≤ value base high ↔ low ≤ high := by
  induction low generalizing high with
  | nil =>
      obtain rfl := List.length_eq_zero_iff.mp hlength.symm
      simp
  | cons l low ih =>
      cases high with
      | nil => exact nomatch hlength
      | cons h high =>
          have hrests : low.length = high.length := Nat.succ.inj hlength
          have hl := value_lt fun d hd => hlow d (List.mem_cons_of_mem l hd)
          have hh := value_lt fun d hd => hhigh d (List.mem_cons_of_mem h hd)
          have ih := ih hrests (fun d hd => hlow d (List.mem_cons_of_mem l hd))
            fun d hd => hhigh d (List.mem_cons_of_mem h hd)
          rw [value_cons, value_cons, cons_le_cons_iff, ← ih, hrests]
          rw [hrests] at hl
          rcases Nat.lt_trichotomy l h with hlt | rfl | hlt
          · have := Nat.mul_le_mul_right (base ^ high.length) hlt
            rw [Nat.succ_mul] at this
            simp only [hlt, true_or, iff_true]
            omega
          · simp
          · have := Nat.mul_le_mul_right (base ^ high.length) hlt
            rw [Nat.succ_mul] at this
            simp only [Nat.lt_asymm hlt, Nat.ne_of_gt hlt, false_and, or_self, iff_false]
            omega

/-- Numbers are in the order of their lists of digits. -/
theorem digits_le_digits_iff {width m n : Nat} (hm : m < base ^ width) (hn : n < base ^ width) :
    digits base width m ≤ digits base width n ↔ m ≤ n := by
  cases width with
  | zero =>
      simp only [Nat.pow_zero, Nat.lt_one_iff] at hm hn
      simp [hm, hn]
  | succ width =>
      have hbase : 0 < base := by
        apply Nat.pos_of_ne_zero
        intro hzero
        simp [hzero] at hm
      rw [← value_le_value_iff (by simp) (fun d => digits_lt hbase) (fun d => digits_lt hbase),
        value_digits_of_lt hm, value_digits_of_lt hn]

end Positional

end NetPattern
