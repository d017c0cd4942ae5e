import Mathlib.Data.List.Basic
import NetPattern.Numeral
import NetPattern.Proofs.Positional

/-!
# Numerals as rows of digits

Digits are the characters that stand for numbers below sixteen. A numeral is the row of the digits
of its number, and a decimal text stands for a number exactly if it is its numeral behind some
zeros.
-/

namespace NetPattern.Numeral

theorem toNat_digitChar {d : Nat} (h : d < 16) :
    d.digitChar.toNat = if d < 10 then 48 + d else 87 + d := by
  have hall : ∀ d : Fin 16, d.val.digitChar.toNat = if d.val < 10 then 48 + d.val else 87 + d.val :=
    by decide
  exact hall ⟨d, h⟩

theorem char_le_iff {c d : Char} : c ≤ d ↔ c.toNat ≤ d.toNat :=
  Iff.rfl

/-- A digit in either case, by the numbers of the characters. -/
theorem hexDigit?_eq_some_iff {c : Char} {d : Nat} :
    hexDigit? c = some d ↔
      d < 10 ∧ c.toNat = 48 + d ∨ 10 ≤ d ∧ d < 16 ∧ (c.toNat = 87 + d ∨ c.toNat = 55 + d) := by
  have hzero : '0'.toNat = 48 := rfl
  have hnine : '9'.toNat = 57 := rfl
  have ha : 'a'.toNat = 97 := rfl
  have hf : 'f'.toNat = 102 := rfl
  have hA : 'A'.toNat = 65 := rfl
  have hF : 'F'.toNat = 70 := rfl
  simp only [hexDigit?, char_le_iff, hzero, hnine, ha, hf, hA, hF]
  split
  next h =>
    rw [Option.some_inj]
    omega
  next h =>
    split
    next h' =>
      rw [Option.some_inj]
      omega
    next h' =>
      split
      next h'' =>
        rw [Option.some_inj]
        omega
      next h'' =>
        simp only [reduceCtorEq, false_iff]
        omega

theorem lt_of_hexDigit? {c : Char} {d : Nat} (h : hexDigit? c = some d) : d < 16 := by
  have := hexDigit?_eq_some_iff.mp h
  omega

theorem hexDigit?_digitChar {d : Nat} (h : d < 16) : hexDigit? d.digitChar = some d := by
  rw [hexDigit?_eq_some_iff, toNat_digitChar h]
  split <;> omega

theorem hexDigit?_isSome_of_isDigit {c : Char} (h : c.isDigit = true) :
    (hexDigit? c).isSome = true := by
  have hbounds : 48 ≤ c.toNat ∧ c.toNat ≤ 57 := by
    simpa [Char.isDigit, UInt32.le_iff_toNat_le] using h
  have hread : hexDigit? c = some (c.toNat - 48) := by
    rw [hexDigit?_eq_some_iff]
    omega
  rw [hread]
  rfl

theorem map_digitChar_injective {first second : List Nat} (hfirst : ∀ d ∈ first, d < 16)
    (hsecond : ∀ d ∈ second, d < 16)
    (h : first.map Nat.digitChar = second.map Nat.digitChar) : first = second := by
  apply List.map_injective_iff.mpr (Option.some_injective Nat)
  have hread : ∀ ds : List Nat, (∀ d ∈ ds, d < 16) →
      (ds.map Nat.digitChar).map hexDigit? = ds.map some := by
    intro ds hds
    rw [List.map_map]
    exact List.map_congr_left fun d hd => hexDigit?_digitChar (hds d hd)
  rw [← hread first hfirst, ← hread second hsecond, h]

/-- A numeral in base two to sixteen is a nonempty row of digits with the value of its number, and
it starts with zero only if it is zero. -/
theorem exists_digits {base : Nat} (hbase : 1 < base) (n : Nat) :
    ∃ ds, ds ≠ [] ∧ (∀ d ∈ ds, d < base) ∧ Positional.value base ds = n ∧
      (ds.head? = some 0 → ds = [0]) ∧ Nat.toDigits base n = ds.map Nat.digitChar := by
  induction n using Nat.strongRecOn with
  | ind n ih =>
      by_cases hn : n < base
      · refine ⟨[n], by simp, by simpa using hn, by simp [Positional.value], by simp, ?_⟩
        simpa using Nat.toDigits_of_lt_base hn
      · have hquot : n / base < n := Nat.div_lt_self (by omega) hbase
        obtain ⟨ds, hne, hlt, hvalue, hhead, htext⟩ := ih (n / base) hquot
        refine ⟨ds ++ [n % base], by simp, ?_, ?_, ?_, ?_⟩
        · intro d hd
          rcases List.mem_append.mp hd with hd | hd
          · exact hlt d hd
          · rw [List.mem_singleton.mp hd]
            exact Nat.mod_lt _ (by omega)
        · rw [Positional.value_concat, hvalue, Nat.mul_comm]
          exact Nat.div_add_mod n base
        · -- The quotient is not zero, so its row does not start with one.
          intro hzero
          rw [List.head?_append_of_ne_nil _ hne] at hzero
          have hquotpos := Nat.div_pos (Nat.le_of_not_lt hn) (Nat.zero_lt_of_lt hbase)
          rw [← hvalue, hhead hzero] at hquotpos
          exact absurd hquotpos (by simp [Positional.value])
        · rw [Nat.toDigits_of_base_le hbase (Nat.le_of_not_lt hn), htext]
          simp

theorem ofDigitChars_map_digitChar {ds : List Nat} (h : ∀ d ∈ ds, d < 10) (start : Nat) :
    Nat.ofDigitChars 10 (ds.map Nat.digitChar) start =
      ds.foldl (fun total d => total * 10 + d) start := by
  induction ds generalizing start with
  | nil => simp
  | cons d ds ih =>
      rw [List.map_cons, Nat.ofDigitChars_cons_digitChar_of_lt_ten (h d List.mem_cons_self),
        ih fun e he => h e (List.mem_cons_of_mem _ he), List.foldl_cons, Nat.mul_comm]

theorem isDigit_digitChar {d : Nat} (h : d < 10) : d.digitChar.isDigit = true := by
  rw [Nat.isDigit_digitChar, decide_eq_true h]

/-- A nonempty row of decimal digits is read as its value. -/
theorem decimal?_map_digitChar {ds : List Nat} (hne : ds ≠ []) (h : ∀ d ∈ ds, d < 10) :
    decimal? (ds.map Nat.digitChar) = some (Positional.value 10 ds) := by
  have hall : (ds.map Nat.digitChar).all Char.isDigit = true := by
    simp only [List.all_map, List.all_eq_true, Function.comp_apply]
    exact fun d hd => isDigit_digitChar (h d hd)
  rw [decimal?, if_pos ⟨by simpa using hne, hall⟩, ofDigitChars_map_digitChar h]
  rfl

/-- Only rows of decimal digits are read as decimal numerals. -/
theorem exists_digits_of_decimal? {text : List Char} {n : Nat} (h : decimal? text = some n) :
    ∃ ds, ds ≠ [] ∧ (∀ d ∈ ds, d < 10) ∧ Positional.value 10 ds = n ∧
      text = ds.map Nat.digitChar := by
  have hcond : text ≠ [] ∧ text.all Char.isDigit = true := by
    by_contra hnot
    rw [decimal?, if_neg hnot] at h
    contradiction
  have hdigit : ∀ c ∈ text, 48 ≤ c.toNat ∧ c.toNat ≤ 57 := by
    intro c hc
    have := List.all_eq_true.mp hcond.2 c hc
    simpa [Char.isDigit, UInt32.le_iff_toNat_le] using this
  have hlt : ∀ d ∈ text.map fun c => c.toNat - 48, d < 10 := by
    intro d hd
    obtain ⟨c, hc, rfl⟩ := List.mem_map.mp hd
    have := hdigit c hc
    omega
  have htext : text = (text.map fun c => c.toNat - 48).map Nat.digitChar := by
    rw [List.map_map]
    refine (List.map_id text).symm.trans (List.map_congr_left ?_)
    intro c hc
    have hbounds := hdigit c hc
    apply Char.toNat_inj.mp
    rw [Function.comp_apply, Nat.toNat_digitChar_of_lt_ten (by omega), id_eq]
    omega
  have hne : (text.map fun c => c.toNat - 48) ≠ [] := by simpa using hcond.1
  refine ⟨_, hne, hlt, ?_, htext⟩
  have hread := decimal?_map_digitChar hne hlt
  rw [← htext, h] at hread
  exact (Option.some.inj hread).symm

/-- A row of digits without superfluous zeros is the numeral of its value. -/
theorem toDigits_value {base : Nat} (hbase : 1 < base) {ds : List Nat} (hne : ds ≠ [])
    (hlt : ∀ d ∈ ds, d < base) (hhead : ds.head? = some 0 → ds = [0]) :
    Nat.toDigits base (Positional.value base ds) = ds.map Nat.digitChar := by
  induction ds using List.reverseRecOn with
  | nil => exact absurd rfl hne
  | append_singleton ds last ih =>
      have hlast : last < base := hlt last (by simp)
      rw [Positional.value_concat]
      by_cases hds : ds = []
      · subst hds
        simpa [Positional.value] using Nat.toDigits_of_lt_base hlast
      · have hnonzero : ds.head? ≠ some 0 := by
          intro hzero
          have hwhole := hhead (by rw [List.head?_append_of_ne_nil _ hds, hzero])
          have hlength := congrArg List.length hwhole
          simp only [List.length_append, List.length_singleton] at hlength
          exact hds (List.length_eq_zero_iff.mp (by omega))
        have hpos : 0 < Positional.value base ds := by
          cases ds with
          | nil => exact absurd rfl hds
          | cons d rest =>
              have hd : 0 < d := Nat.pos_of_ne_zero fun hzero => hnonzero (by simp [hzero])
              rw [Positional.value_cons]
              exact Nat.add_pos_left (Nat.mul_pos hd (Nat.pow_pos (by omega))) _
        have ih := ih hds (fun d hd => hlt d (List.mem_append_left _ hd)) fun h => absurd h hnonzero
        rw [Nat.mul_comm, ← Nat.toDigits_append_toDigits hbase hpos hlast, ih,
          Nat.toDigits_of_lt_base hlast]
        simp

/-- A row of decimal digits is the numeral of its value behind some zeros. -/
theorem exists_zeros {ds : List Nat} (hne : ds ≠ []) (hlt : ∀ d ∈ ds, d < 10) :
    ∃ zeros, ds.map Nat.digitChar =
      List.replicate zeros '0' ++ decimal (Positional.value 10 ds) := by
  induction ds with
  | nil => exact absurd rfl hne
  | cons d rest ih =>
      by_cases hhead : d = 0 ∧ rest ≠ []
      · obtain ⟨rfl, hrest⟩ := hhead
        obtain ⟨zeros, hzeros⟩ := ih hrest fun e he => hlt e (List.mem_cons_of_mem _ he)
        refine ⟨zeros + 1, ?_⟩
        rw [List.map_cons, hzeros, Positional.value_cons]
        simp [List.replicate_succ]
      · refine ⟨0, ?_⟩
        rw [decimal, toDigits_value (by decide) hne hlt]
        · rfl
        · intro hzero
          have hd : d = 0 := by simpa using hzero
          rw [hd, Classical.byContradiction fun hrest => hhead ⟨hd, hrest⟩]

/-- A text stands for a number if it is the decimal numeral of the number behind some zeros. -/
theorem decimal?_eq_some_iff {text : List Char} {n : Nat} :
    decimal? text = some n ↔ ∃ zeros, text = List.replicate zeros '0' ++ decimal n := by
  constructor
  · intro h
    obtain ⟨ds, hne, hlt, rfl, rfl⟩ := exists_digits_of_decimal? h
    exact exists_zeros hne hlt
  · intro h
    obtain ⟨zeros, rfl⟩ := h
    obtain ⟨ds, hne, hlt, hvalue, -, htext⟩ := exists_digits (show 1 < 10 by decide) n
    have hrow : List.replicate zeros '0' ++ decimal n =
        (List.replicate zeros 0 ++ ds).map Nat.digitChar := by
      rw [decimal, htext, List.map_append, List.map_replicate]
      rfl
    rw [hrow, decimal?_map_digitChar (by simp [hne]), Positional.value_replicate_zero_append,
      hvalue]
    intro d hd
    rcases List.mem_append.mp hd with hd | hd
    · rw [List.eq_of_mem_replicate hd]
      decide
    · exact hlt d hd

/-- A hexadecimal numeral has digits only. -/
theorem not_mem_hexadecimal {n : Nat} {c : Char} (h : hexDigit? c = none) :
    c ∉ hexadecimal n := by
  obtain ⟨ds, -, hlt, -, -, htext⟩ := exists_digits (show 1 < 16 by decide) n
  rw [hexadecimal, htext]
  intro hc
  obtain ⟨d, hd, rfl⟩ := List.mem_map.mp hc
  rw [hexDigit?_digitChar (hlt d hd)] at h
  exact nomatch h

end NetPattern.Numeral
