import Mathlib.Data.List.Nodup
import NetPattern.Proofs.Fragment.Octet
import NetPattern.Regex.Preference

/-!
# What fragments of octets prefer

The fragment of all octets prefers the whole of a numeral, however far it could go on. A list of
octets prefers the first one in it that the text starts with, so a list from zero on prefers a
single digit to the numerals that start with it.
-/

namespace NetPattern

namespace Regex

/-- Whether an expression has no groups. -/
def IsPlain (regex : Regex) : Prop :=
  regex.All (fun _ => True) (fun _ => True) fun _ => False

theorem IsPlain.content_eq {regex : Regex} (h : regex.IsPlain) : regex.content = regex := by
  rcases regex.content_eq_or with ⟨inner, rfl, -⟩ | ⟨-, hcontent⟩
  · exact h.2.1.elim
  · exact hcontent

/-- The union of several expressions without groups is the group of them, in order. -/
theorem union_of_plain {parts : List Regex} (hplain : ∀ part ∈ parts, part.IsPlain)
    (hsingle : ∀ part ∈ parts, part.isSingle = true) (hnodup : parts.Nodup)
    (hmany : 1 < parts.length) : union parts = group (ofAlternatives parts) .once done := by
  have hpieces : pieces parts = parts := by
    have halternatives : parts.flatMap (fun part => part.content.alternatives) =
        parts.flatMap fun part => [part] := by
      apply List.flatMap_congr
      intro part hpart
      rw [(hplain part hpart).content_eq, alternatives_of_isSingle (hsingle part hpart)]
    rw [pieces, halternatives, List.flatMap_singleton', eraseDups_eq_self hnodup]
  rw [union, hpieces]
  obtain ⟨first, more, rfl⟩ :=
    List.exists_cons_of_ne_nil (List.ne_nil_of_length_pos (Nat.zero_lt_of_lt hmany))
  obtain ⟨second, others, rfl⟩ :=
    List.exists_cons_of_ne_nil (List.ne_nil_of_length_pos (Nat.lt_of_succ_lt_succ hmany))
  rfl

theorem render_literals (text : List Char) : (literals text).render = text := by
  induction text with
  | nil => rfl
  | cons c rest ih =>
      rw [literals, render, ih]
      rfl

theorem isSingle_literals (text : List Char) : (literals text).isSingle = true := by
  induction text with
  | nil => rfl
  | cons c rest ih => exact ih

theorem valid_literals {text : List Char} (h : ∀ c ∈ text, isMeta c = false) :
    (literals text).valid = true := by
  induction text with
  | nil => rfl
  | cons c rest ih =>
      obtain ⟨hc, hrest⟩ := List.forall_mem_cons.mp h
      simp [literals, valid, Symbol.valid, Quantifier.valid, hc, ih hrest]

theorem isPlain_literals (text : List Char) : (literals text).IsPlain := by
  induction text with
  | nil => trivial
  | cons c rest ih => exact ⟨trivial, trivial, ih⟩

end Regex

namespace Fragment

/-- Whether a search for a fragment within a row leaves `rest` of a text first. -/
def LeavesFirst (ignoreCase : Bool) (fragment : Fragment) (text rest : List Char) : Prop :=
  ∃ tree : Regex, tree.valid = true ∧ tree.render = fragment ∧
    (tree.factorGroups.firstRemainders ignoreCase text).head? = some rest

theorem leavesFirst_render_iff {ignoreCase : Bool} {tree : Regex} (hvalid : tree.valid = true)
    {text rest : List Char} :
    LeavesFirst ignoreCase tree.render text rest ↔
      (tree.factorGroups.firstRemainders ignoreCase text).head? = some rest := by
  constructor
  · intro h
    obtain ⟨other, hother, hrender, hhead⟩ := h
    rwa [Regex.render_injective hother hvalid hrender] at hhead
  · exact fun hhead => ⟨tree, hvalid, rfl, hhead⟩

/-- A search leaves one text first at most. -/
theorem LeavesFirst.unique {ignoreCase : Bool} {fragment : Fragment} {text rest other : List Char}
    (h : LeavesFirst ignoreCase fragment text rest)
    (h' : LeavesFirst ignoreCase fragment text other) : rest = other := by
  obtain ⟨tree, hvalid, rfl, hhead⟩ := h
  rw [leavesFirst_render_iff hvalid, hhead] at h'
  exact Option.some.inj h'

/-- In front of what is left first stands a text that the fragment takes. -/
theorem LeavesFirst.exists_language {ignoreCase : Bool} {fragment : Fragment}
    {text rest : List Char} {language : List Char → Prop}
    (h : LeavesFirst ignoreCase fragment text rest)
    (hdenotes : Denotes ignoreCase fragment language) :
    ∃ piece, text = piece ++ rest ∧ language piece := by
  obtain ⟨tree, hvalid, rfl, hhead⟩ := h
  obtain ⟨piece, htext, htakes⟩ := ((tree.factorGroups.steps ignoreCase
    (Regex.factorGroups_valid hvalid)).1 text rest).mp (List.mem_of_head? hhead)
  refine ⟨piece, htext, (hdenotes.matches_iff piece).mp ?_⟩
  rw [matchesWhole_render ignoreCase hvalid]
  exact .inl ((Regex.factorGroups_takes ignoreCase tree piece).1.mp htakes)

/-! ### All octets -/

/-- A digit in front of an expression. -/
def digitThen (low high : Nat) (quantifier : Quantifier) (rest : Regex) : Regex :=
  .symbol (digitSymbol low high) quantifier rest

/-- Whether an expression has decimal digits only, and bounds for how often they repeat. -/
def IsDecimal (regex : Regex) : Prop :=
  regex.All (fun s => ∃ low high, low ≤ high ∧ high < 10 ∧ s = digitSymbol low high)
    (·.most?.isSome = true) (·.most?.isSome = true)

theorem IsDecimal.digitThen {low high : Nat} {quantifier : Quantifier} {rest : Regex}
    (h : IsDecimal rest) (hle : low ≤ high) (hhigh : high < 10)
    (hbounded : quantifier.most?.isSome = true) :
    IsDecimal (digitThen low high quantifier rest) :=
  ⟨⟨low, high, hle, hhigh, rfl⟩, hbounded, h⟩

/-- Where no digit stands a class of decimal digits takes nothing. -/
theorem digitSymbol_accepts_eq_false {ignoreCase : Bool} {low high : Nat} (hle : low ≤ high)
    (hhigh : high < 10) {c : Char} (hc : c.isDigit = false) :
    (digitSymbol low high).accepts ignoreCase c = false := by
  rw [← Bool.not_eq_true, digitSymbol_accepts hle (by omega)]
  intro h
  obtain ⟨d, -, hd, hwrites⟩ := h
  rw [(writesDigit_iff_of_lt_ten (by omega)).mp hwrites, Numeral.isDigit_digitChar (by omega)] at hc
  exact Bool.noConfusion hc

/-- An expression of decimal digits stops where no digit follows. -/
theorem IsDecimal.stopsBefore {regex : Regex} (h : IsDecimal regex) (ignoreCase : Bool)
    {after : List Char} (hafter : ∀ c ∈ after.head?, c.isDigit = false) :
    StopsBefore after (regex.firstRemainders ignoreCase) := by
  refine (Regex.stopsBefore (h.imp ?_ (fun _ hquantifier => hquantifier) fun _ hgroup => hgroup)).1
  intro s hs c hc
  obtain ⟨low, high, hle, hhigh, rfl⟩ := hs
  exact digitSymbol_accepts_eq_false hle hhigh (hafter c hc)

/-- The tree of the fragment of all octets. -/
def anyOctetTree (padded : Bool) : Regex :=
  .group (.ofAlternatives (
    [digitThen 2 2 .once (digitThen 5 5 .once (digitThen 0 5 .once .done)),
      digitThen 2 2 .once (digitThen 0 4 .once (digitThen 0 9 .once .done))] ++
      if padded then [digitThen 0 1 .optional (digitThen 0 9 (.between 1 2) .done)]
      else [digitThen 1 1 .once (digitThen 0 9 (.exactly 2) .done),
        digitThen 1 9 .optional (digitThen 0 9 .once .done)])) .once .done

theorem render_anyOctetTree (padded : Bool) :
    (anyOctetTree padded).render = anyOctet padded := by
  cases padded <;> decide

theorem valid_anyOctetTree (padded : Bool) : (anyOctetTree padded).valid = true := by
  cases padded <;> decide

theorem factorGroups_anyOctetTree (padded : Bool) :
    (anyOctetTree padded).factorGroups = anyOctetTree padded := by
  cases padded <;> decide

theorem isDecimal_anyOctetTree (padded : Bool) : IsDecimal (anyOctetTree padded) := by
  have hdone : IsDecimal .done := trivial
  refine ⟨.ofAlternatives ?_, rfl, trivial⟩
  simp only [List.forall_mem_append, List.forall_mem_cons]
  refine ⟨⟨?_, ?_, nofun⟩, ?_⟩
  · exact ((hdone.digitThen (by decide) (by decide) rfl).digitThen (by decide) (by decide)
      rfl).digitThen (by decide) (by decide) rfl
  · exact ((hdone.digitThen (by decide) (by decide) rfl).digitThen (by decide) (by decide)
      rfl).digitThen (by decide) (by decide) rfl
  · cases padded with
    | true =>
        simp only [if_true, List.forall_mem_singleton]
        exact (hdone.digitThen (by decide) (by decide) rfl).digitThen (by decide) (by decide) rfl
    | false =>
        simp only [Bool.false_eq_true, if_false, List.forall_mem_cons]
        refine ⟨?_, ?_, nofun⟩
        · exact (hdone.digitThen (by decide) (by decide) rfl).digitThen (by decide) (by decide) rfl
        · exact (hdone.digitThen (by decide) (by decide) rfl).digitThen (by decide) (by decide) rfl

theorem head?_anyOctetTree (ignoreCase padded : Bool) {value : Nat} (hvalue : value < 256) :
    ((anyOctetTree padded).firstRemainders ignoreCase (Numeral.decimal value)).head? =
      some [] := by
  have hall : ∀ ignoreCase padded, ∀ value < 256,
      ((anyOctetTree padded).firstRemainders ignoreCase (Numeral.decimal value)).head? =
        some [] := by
    decide +kernel
  exact hall ignoreCase padded value hvalue

/-- The fragment of all octets leaves what is behind the digits of an octet. -/
theorem anyOctet_leavesFirst (ignoreCase padded : Bool) {value : Nat} (hvalue : value ≤ 255)
    {after : List Char} (hafter : ∀ c ∈ after.head?, c.isDigit = false) :
    LeavesFirst ignoreCase (anyOctet padded) (Numeral.decimal value ++ after) after := by
  have hstops := (isDecimal_anyOctetTree padded).stopsBefore ignoreCase hafter
  rw [← render_anyOctetTree, leavesFirst_render_iff (valid_anyOctetTree padded),
    factorGroups_anyOctetTree, hstops, List.head?_map,
    head?_anyOctetTree ignoreCase padded (Nat.lt_succ_of_le hvalue)]
  rfl

/-! ### Lists of octets -/

/-- The tree of the fragment of one octet. -/
def octetTree (padded : Bool) (value : Nat) : Regex :=
  let digits := Regex.literals (Numeral.decimal value)
  if padded then
    match (Numeral.decimal value).length with
    | 1 => .symbol (.literal '0') (.between 0 2) digits
    | 2 => .symbol (.literal '0') .optional digits
    | _ => digits
  else digits

/-- The tree of an octet is its digits, or these behind a zero that may repeat. -/
theorem octetTree_eq_or (padded : Bool) (value : Nat) :
    octetTree padded value = .literals (Numeral.decimal value) ∧
        octet padded value = Numeral.decimal value ∨
      ∃ quantifier : Quantifier, (quantifier.valid = true ∧ quantifier.least = 0) ∧
        octetTree padded value =
          .symbol (.literal '0') quantifier (.literals (Numeral.decimal value)) ∧
        octet padded value = '0' :: quantifier.render ++ Numeral.decimal value := by
  unfold octetTree octet
  cases padded with
  | false => exact .inl ⟨rfl, rfl⟩
  | true =>
      dsimp only
      generalize (Numeral.decimal value).length = length
      match length with
      | 0 => exact .inl ⟨rfl, rfl⟩
      | 1 => exact .inr ⟨.between 0 2, ⟨rfl, rfl⟩, rfl, rfl⟩
      | 2 => exact .inr ⟨.optional, ⟨rfl, rfl⟩, rfl, rfl⟩
      | length + 3 => exact .inl ⟨rfl, rfl⟩

theorem render_octetTree (padded : Bool) (value : Nat) :
    (octetTree padded value).render = octet padded value := by
  rcases octetTree_eq_or padded value with ⟨htree, hoctet⟩ | ⟨quantifier, -, htree, hoctet⟩
  · rw [htree, hoctet, Regex.render_literals]
  · rw [htree, hoctet, Regex.render, Regex.render_literals]
    rfl

theorem isMeta_eq_false_of_isDigit {c : Char} (h : c.isDigit = true) : isMeta c = false := by
  apply decide_eq_false
  intro hmeta
  have hnone : ['\\', '.', '+', '*', '?', '(', ')', '|', '[', '{', '^', '$'].any Char.isDigit =
      false := by decide
  exact List.any_eq_false.mp hnone c hmeta h

theorem valid_octetTree (padded : Bool) (value : Nat) : (octetTree padded value).valid = true := by
  have hdigits : (Regex.literals (Numeral.decimal value)).valid = true := by
    apply Regex.valid_literals
    intro c hc
    exact isMeta_eq_false_of_isDigit (Numeral.isDigit_of_mem_decimal hc)
  rcases octetTree_eq_or padded value with ⟨htree, -⟩ | ⟨quantifier, ⟨hquantifier, -⟩, htree, -⟩
  · rw [htree, hdigits]
  · rw [htree, Regex.valid, hquantifier, hdigits]
    rfl

theorem isSingle_octetTree (padded : Bool) (value : Nat) :
    (octetTree padded value).isSingle = true := by
  rcases octetTree_eq_or padded value with ⟨htree, -⟩ | ⟨quantifier, -, htree, -⟩
  · rw [htree, Regex.isSingle_literals]
  · rw [htree, Regex.isSingle, Regex.isSingle_literals]

theorem isPlain_octetTree (padded : Bool) (value : Nat) : (octetTree padded value).IsPlain := by
  have hdigits := Regex.isPlain_literals (Numeral.decimal value)
  rcases octetTree_eq_or padded value with ⟨htree, -⟩ | ⟨quantifier, -, htree, -⟩
  · rwa [htree]
  · rw [htree]
    exact ⟨trivial, trivial, hdigits⟩

/-- The trees of the octets up to a largest one. -/
def octetTrees (padded : Bool) (high : Nat) : List Regex :=
  (List.range' 0 (high + 1)).map (octetTree padded)

section OctetTrees

variable (padded : Bool) {high : Nat}

theorem octetTree_injective {v w : Nat} (hv : v ≤ (SegmentForm.octet padded).top)
    (hw : w ≤ (SegmentForm.octet padded).top) (h : octetTree padded v = octetTree padded w) :
    v = w := by
  have hoctet : octet padded v = octet padded w := by
    rw [← render_octetTree, h, render_octetTree]
  obtain ⟨text, hwrites⟩ := (SegmentForm.octet padded).exists_writes hv
  have hmatch := ((denotes_octet false padded hv).matches_iff text).mpr hwrites
  rw [hoctet, (denotes_octet false padded hw).matches_iff] at hmatch
  exact hwrites.unique hv hw hmatch

theorem nodup_octetTrees (hhigh : high ≤ 255) : (octetTrees padded high).Nodup := by
  apply List.Nodup.map_on _ List.nodup_range'
  intro v hv w hw
  have := List.mem_range'_1.mp hv
  have := List.mem_range'_1.mp hw
  refine octetTree_injective padded (Nat.le_trans ?_ hhigh) (Nat.le_trans ?_ hhigh) <;> omega

theorem mem_octetTrees {tree : Regex} :
    tree ∈ octetTrees padded high ↔ ∃ value ≤ high, octetTree padded value = tree := by
  rw [octetTrees, List.mem_map]
  simp only [List.mem_range'_1, Nat.zero_le, true_and, Nat.zero_add, Nat.lt_succ_iff]

theorem octetRange_eq_render (hhigh : high < 255) :
    octetRange padded 0 high = (Regex.union (octetTrees padded high)).render := by
  have hvalid : ∀ tree ∈ octetTrees padded high, tree.valid = true := by
    intro tree htree
    obtain ⟨value, -, rfl⟩ := (mem_octetTrees padded).mp htree
    exact valid_octetTree padded value
  rw [octetRange, if_neg (by omega), ← union_render hvalid, octetTrees, List.map_map]
  simp only [Function.comp_def, render_octetTree, Nat.sub_zero]

/-- No items are taken out in front of a list of octets that has numerals of one and of two digits:
without padding the former are single items, and with it they start with as many zeros as two, and
the latter with one at most. -/
theorem factorTop_octetTrees (hten : 10 ≤ high) :
    (Regex.ofAlternatives (octetTrees padded high)).factorTop =
      Regex.ofAlternatives (octetTrees padded high) := by
  have hsingle : ∀ tree ∈ octetTrees padded high, tree.isSingle = true := by
    intro tree htree
    obtain ⟨value, -, rfl⟩ := (mem_octetTrees padded).mp htree
    exact isSingle_octetTree padded value
  have hzero : octetTree padded 0 ∈ octetTrees padded high :=
    (mem_octetTrees padded).mpr ⟨0, Nat.zero_le high, rfl⟩
  have hten : octetTree padded 10 ∈ octetTrees padded high :=
    (mem_octetTrees padded).mpr ⟨10, hten, rfl⟩
  have halternatives := Regex.alternatives_ofAlternatives (List.ne_nil_of_mem hzero) hsingle
  rw [← halternatives] at hzero hten
  cases padded with
  | false => exact Regex.factorTop_of_short hzero (by decide)
  | true =>
      have hone : octetTree true 0 =
          .symbol (.literal '0') (.between 0 2) (.literals ['0']) := by decide
      have htwo : octetTree true 10 =
          .symbol (.literal '0') .optional (.literals ['1', '0']) := by decide
      rw [hone] at hzero
      rw [htwo] at hten
      exact Regex.factorTop_of_apart hzero hten fun lead => Regex.Leads.eq_done (by decide)

/-- A list of octets from zero on is tried octet by octet. -/
theorem octetTrees_firstRemainders (ignoreCase : Bool) (hten : 10 ≤ high) (hhigh : high ≤ 255)
    (text : List Char) :
    (Regex.union (octetTrees padded high)).factorGroups.firstRemainders ignoreCase text =
      (List.range' 0 (high + 1)).flatMap fun value =>
        (octetTree padded value).firstRemainders ignoreCase text := by
  have hforall : ∀ {P : Regex → Prop}, (∀ value, P (octetTree padded value)) →
      ∀ tree ∈ octetTrees padded high, P tree := by
    intro P h tree htree
    obtain ⟨value, -, rfl⟩ := (mem_octetTrees padded).mp htree
    exact h value
  have hplain := hforall (isPlain_octetTree padded)
  have hsingle : ∀ tree ∈ octetTrees padded high, tree.isSingle = true :=
    hforall (isSingle_octetTree padded)
  have hmany : 1 < (octetTrees padded high).length := by
    rw [octetTrees, List.length_map, List.length_range']
    omega
  have hne := List.ne_nil_of_length_pos (Nat.lt_trans Nat.one_pos hmany)
  rw [Regex.union_of_plain hplain hsingle (nodup_octetTrees padded hhigh) hmany,
    Regex.factorGroups, Regex.factorGroups_eq_self (.ofAlternatives hplain),
    factorTop_octetTrees padded hten, Regex.factorGroups, Regex.firstRemainders_group_once,
    Regex.remainders_ofAlternatives ignoreCase hne hsingle, octetTrees, List.flatMap_map]

end OctetTrees

theorem decimal_of_lt_ten {d : Nat} (h : d < 10) : Numeral.decimal d = [d.digitChar] :=
  Nat.toDigits_of_lt_base h

/-- The literal of a decimal digit takes this digit only. -/
theorem remainders_digit (ignoreCase : Bool) {v d : Nat} (hv : v < 10) (hd : d < 10)
    (rest : List Char) :
    (Symbol.literal v.digitChar).remainders ignoreCase (d.digitChar :: rest) =
      if v = d then [rest] else [] := by
  have haccepts : (Symbol.literal v.digitChar).accepts ignoreCase d.digitChar = true ↔ v = d := by
    rw [Symbol.accepts, List.contains_iff_mem, digitChar_mem_caseForms_iff (by omega),
      writesDigit_iff_of_lt_ten hv]
    constructor
    · intro h
      have hread := Numeral.hexDigit?_digitChar (show d < 16 by omega)
      rw [h, Numeral.hexDigit?_digitChar (by omega)] at hread
      exact Option.some.inj hread
    · exact fun h => h ▸ rfl
  simp only [Symbol.remainders, haccepts]

/-- A text that starts with a digit other than zero starts with the octet of this digit and with no
other below ten. -/
theorem octetTree_firstRemainders (ignoreCase padded : Bool) {v d : Nat} (hv : v < 10)
    (hpos : 0 < d) (hd : d < 10) (rest : List Char) :
    (octetTree padded v).firstRemainders ignoreCase (d.digitChar :: rest) =
      if v = d then [rest] else [] := by
  have hdigits : (Regex.literals (Numeral.decimal v)).firstRemainders ignoreCase
      (d.digitChar :: rest) = if v = d then [rest] else [] := by
    rw [decimal_of_lt_ten hv, Regex.literals, Regex.literals, Regex.firstRemainders_symbol_once,
      remainders_digit ignoreCase hv hd rest]
    split <;> rfl
  rcases octetTree_eq_or padded v with ⟨htree, -⟩ | ⟨quantifier, ⟨-, hleast⟩, htree, -⟩
  · rw [htree, hdigits]
  · have hzero : (Symbol.literal '0').remainders ignoreCase (d.digitChar :: rest) = [] :=
      (remainders_digit ignoreCase (Nat.zero_lt_succ 9) hd rest).trans
        (if_neg (Nat.ne_of_lt hpos))
    rw [htree, Regex.firstRemainders, Regex.remainders_of_eq_nil hleast hzero,
      List.flatMap_singleton, hdigits]

/-- A list of octets from zero on leaves what is behind the first digit of a text, if this is not
zero. -/
theorem octetRange_leavesFirst (ignoreCase padded : Bool) {high : Nat} (hten : 10 ≤ high)
    (hhigh : high < 255) {d : Nat} (hpos : 0 < d) (hd : d < 10) (rest : List Char) :
    LeavesFirst ignoreCase (octetRange padded 0 high) (d.digitChar :: rest) rest := by
  have hvalid : (Regex.union (octetTrees padded high)).valid = true := by
    apply Regex.union_valid
    intro tree htree
    obtain ⟨value, -, rfl⟩ := (mem_octetTrees padded).mp htree
    exact valid_octetTree padded value
  rw [octetRange_eq_render padded hhigh, leavesFirst_render_iff hvalid,
    octetTrees_firstRemainders padded ignoreCase hten (Nat.le_of_lt hhigh)]
  -- The octets before the digit take nothing, and the digit itself comes next.
  have hrange : List.range' 0 (high + 1) =
      List.range' 0 d ++ d :: List.range' (d + 1) (high - d) := by
    have happend := @List.range'_append_1 0 d (high - d + 1)
    rw [Nat.zero_add, List.range'_succ] at happend
    rw [happend]
    congr 1
    omega
  have hbefore : (List.range' 0 d).flatMap (fun value =>
      (octetTree padded value).firstRemainders ignoreCase (d.digitChar :: rest)) = [] := by
    apply List.flatMap_eq_nil_iff.mpr
    intro value hvalue
    have := List.mem_range'_1.mp hvalue
    rw [octetTree_firstRemainders ignoreCase padded (by omega) hpos hd, if_neg (by omega)]
  rw [hrange, List.flatMap_append, hbefore, List.nil_append, List.flatMap_cons,
    octetTree_firstRemainders ignoreCase padded hd hpos hd, if_pos rfl]
  rfl

/-! ### Numerals in front of other characters -/

/-- A numeral that goes on is at least ten times the octet in front of it. -/
theorem ten_mul_le_of_append_eq {padded : Bool} {octet value : Nat} {front back : List Char}
    (hfront : (SegmentForm.octet padded).Writes octet front)
    (heq : front ++ back = Numeral.decimal value) (hne : back ≠ []) : 10 * octet ≤ value := by
  obtain ⟨es, hes, rfl, rfl⟩ := SegmentForm.writes_octet_iff.mp hfront
  obtain ⟨ds, hds, rfl, hdecimal⟩ :=
    SegmentForm.writes_octet_iff.mp (show (SegmentForm.octet false).Writes value _ from rfl)
  rw [hdecimal, List.append_eq_map_iff] at heq
  obtain ⟨first, second, rfl, hfirst, rfl⟩ := heq
  have hsmall : ∀ d ∈ first, d < 16 :=
    fun d hd => Nat.lt_trans (hds.lt_ten d (List.mem_append_left _ hd)) (by decide)
  have hsame := Numeral.map_digitChar_injective hsmall
    (fun d hd => Nat.lt_trans (hes.lt_ten d hd) (by decide)) hfirst
  have hlength : 0 < second.length := by
    simpa [List.length_pos_iff] using hne
  rw [← hsame, Positional.value_append]
  calc 10 * Positional.value 10 first
      = Positional.value 10 first * 10 ^ 1 := by ring
    _ ≤ Positional.value 10 first * 10 ^ second.length :=
        Nat.mul_le_mul_left _ (Nat.pow_le_pow_right (by decide) hlength)
    _ ≤ _ := Nat.le_add_right _ _

/-- A numeral from ten on starts with a digit other than zero. -/
theorem exists_decimal_eq_cons {value : Nat} (h : 10 ≤ value) :
    ∃ d tail, 0 < d ∧ d < 10 ∧ Numeral.decimal value = d.digitChar :: tail := by
  obtain ⟨ds, hne, hlt, rfl, hhead, htext⟩ := Numeral.exists_digits (show 1 < 10 by decide) value
  obtain ⟨d, rest, rfl⟩ := List.exists_cons_of_ne_nil hne
  refine ⟨d, rest.map Nat.digitChar, ?_, hlt d List.mem_cons_self, htext⟩
  apply Nat.pos_of_ne_zero
  intro hzero
  have hone := hhead (by rw [hzero]; rfl)
  rw [hone] at h
  exact absurd h (by decide)

/-- What the fragment of a range of octets leaves of an octet in the range: nothing, unless the
range starts from zero and leaves some octets out. Then the single digits come first. -/
theorem LeavesFirst.octetRange_eq {ignoreCase padded : Bool} {low high value : Nat}
    (hlow : low ≤ value) (hhigh : value ≤ high) (hmax : high ≤ 255)
    (hshort : low ≠ 0 → high < 2 * low) {back after : List Char}
    (hafter : ∀ c ∈ after.head?, c.isDigit = false)
    (h : LeavesFirst ignoreCase (octetRange padded low high) (Numeral.decimal value ++ after)
      (back ++ after)) :
    back = if low = 0 ∧ high < 255 ∧ 10 ≤ value then (Numeral.decimal value).tail else [] := by
  obtain ⟨front, heq, octet, hoctet, -, hwrites⟩ :=
    h.exists_language (denotes_octetRange ignoreCase padded (Nat.le_trans hlow hhigh) hmax)
  rw [← List.append_assoc, List.append_cancel_right_eq] at heq
  split
  next hcut =>
    obtain ⟨rfl, hopen, hten⟩ := hcut
    obtain ⟨d, tail, hpos, hd, hdecimal⟩ := exists_decimal_eq_cons hten
    rw [hdecimal, List.cons_append] at h
    rw [hdecimal, List.tail_cons]
    exact List.append_cancel_right (h.unique (octetRange_leavesFirst ignoreCase padded
      (Nat.le_trans hten hhigh) hopen hpos hd (tail ++ after)))
  next hwhole =>
    by_contra hback
    have hfar := ten_mul_le_of_append_eq hwrites heq.symm hback
    by_cases hzero : low = 0
    · by_cases hall : high = 255
      · subst hzero hall
        rw [octetRange, if_pos ⟨rfl, rfl⟩] at h
        exact hback (List.append_cancel_right
          (h.unique (anyOctet_leavesFirst ignoreCase padded hhigh hafter)))
      · -- A single digit has no room for another.
        obtain ⟨ds, hds, -, rfl⟩ := SegmentForm.writes_octet_iff.mp hwrites
        have hlength := congrArg List.length heq
        rw [decimal_of_lt_ten (by omega), List.length_append, List.length_map,
          List.length_singleton] at hlength
        have hfront := List.length_pos_of_ne_nil hds.ne_nil
        have hrest := List.length_pos_of_ne_nil hback
        omega
    · have := hshort hzero
      omega

end Fragment

end NetPattern
