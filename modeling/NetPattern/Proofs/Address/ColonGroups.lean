import NetPattern.Address.ColonGroups
import NetPattern.Proofs.Address.DottedQuad

/-!
# Colon-separated groups are read back

Groups joined by colons have neither a gap nor a colon at either end, so the pair of colons written
for a run of zeros is the only gap of its text. The groups before and after it are read back, and
those left out are as many as are missing.
-/

namespace NetPattern.ColonGroups

theorem group_hexadecimal {value : Nat} (h : value < 65536) :
    group (Numeral.hexadecimal value) = .ok value := by
  obtain ⟨ds, hne, hlt, hvalue, -, htext⟩ := Numeral.exists_digits (show 1 < 16 by decide) value
  have hlength : (Numeral.hexadecimal value).length ≤ 4 :=
    (Nat.length_toDigits_le_iff (by decide) (by decide)).mpr h
  have hread : (ds.map Nat.digitChar).mapM Numeral.hexDigit? = some ds :=
    mapM_map_eq_pure fun d hd => Numeral.hexDigit?_digitChar (hlt d hd)
  rw [Numeral.hexadecimal, htext] at hlength ⊢
  rw [group, if_neg (by simpa using hne), if_neg (Nat.not_lt.mpr hlength), hread]
  exact congrArg Except.ok hvalue

theorem colon_not_mem_hexadecimal (value : Nat) : ':' ∉ Numeral.hexadecimal value :=
  Numeral.not_mem_hexadecimal rfl

theorem join_singleton (value : Nat) : join [value] = Numeral.hexadecimal value :=
  List.intercalate_singleton

theorem join_cons_cons (first second : Nat) (rest : List Nat) :
    join (first :: second :: rest) = Numeral.hexadecimal first ++ ':' :: join (second :: rest) := by
  simp [join, List.intercalate_cons_cons]

theorem join_ne_nil (value : Nat) (rest : List Nat) : join (value :: rest) ≠ [] := by
  have hne : Numeral.hexadecimal value ≠ [] := Nat.toDigits_ne_nil
  cases rest with
  | nil =>
      rw [join_singleton]
      exact hne
  | cons second rest =>
      rw [join_cons_cons]
      exact List.append_ne_nil_of_left_ne_nil hne _

theorem mem_join {all : List Nat} {c : Char} (h : c ∈ join all) :
    c = ':' ∨ (Numeral.hexDigit? c).isSome = true := by
  rcases mem_of_mem_intercalate h with hc | ⟨part, hpart, hc⟩
  · exact .inl hc
  · obtain ⟨value, -, rfl⟩ := List.mem_map.mp hpart
    right
    rw [Option.isSome_iff_ne_none]
    exact fun hnone => Numeral.not_mem_hexadecimal hnone hc

theorem splitOn_join {all : List Nat} (h : all ≠ []) :
    (join all).splitOn ':' = all.map Numeral.hexadecimal := by
  apply List.splitOn_intercalate
  · intro part hpart
    obtain ⟨value, -, rfl⟩ := List.mem_map.mp hpart
    exact colon_not_mem_hexadecimal value
  · simpa using h

/-- Joined groups are read back; no groups are the empty text. -/
theorem groups_join {all : List Nat} (h : ∀ value ∈ all, value < 65536) :
    groups (join all) = .ok all := by
  cases all with
  | nil => rfl
  | cons value rest =>
      rw [groups, if_neg (join_ne_nil value rest), splitOn_join (List.cons_ne_nil _ _)]
      exact mapM_map_eq_pure fun value hvalue => group_hexadecimal (h value hvalue)

/-! ### The gap -/

theorem cutGap?_cons {c : Char} {rest : List Char} (h : c = ':' → rest.head? ≠ some ':') :
    cutGap? (c :: rest) = (cutGap? rest).map fun parts => (c :: parts.1, parts.2) := by
  rw [cutGap?]
  intro more hc hrest
  exact h hc (congrArg List.head? hrest)

/-- A text without colons has no part in a gap. -/
theorem cutGap?_word_append {word : List Char} (h : ':' ∉ word) (rest : List Char) :
    cutGap? (word ++ rest) = (cutGap? rest).map fun parts => (word ++ parts.1, parts.2) := by
  induction word with
  | nil => simp
  | cons c word ih =>
      rw [List.mem_cons, not_or] at h
      rw [List.cons_append, cutGap?_cons fun hc => absurd hc.symm h.1, ih h.2, Option.map_map]
      rfl

theorem head?_intercalate_append {first : List Char} (hne : first ≠ []) (hfirst : ':' ∉ first)
    (parts : List (List Char)) (rest : List Char) :
    ([':'].intercalate (first :: parts) ++ rest).head? ≠ some ':' := by
  have hlead : ∃ more, [':'].intercalate (first :: parts) = first ++ more := by
    cases parts with
    | nil => exact ⟨[], by rw [List.intercalate_singleton, List.append_nil]⟩
    | cons second parts =>
        rw [List.intercalate_cons_cons, List.append_assoc]
        exact ⟨_, rfl⟩
  obtain ⟨more, hmore⟩ := hlead
  rw [hmore, List.append_assoc, List.head?_append_of_ne_nil _ hne]
  exact fun hhead => hfirst (List.mem_of_head? hhead)

/-- Parts joined by single colons have no gap, and none with the text behind them. -/
theorem cutGap?_intercalate_append {parts : List (List Char)}
    (h : ∀ part ∈ parts, part ≠ [] ∧ ':' ∉ part) (rest : List Char) :
    cutGap? ([':'].intercalate parts ++ rest) =
      (cutGap? rest).map fun cut => ([':'].intercalate parts ++ cut.1, cut.2) := by
  induction parts with
  | nil => simp
  | cons first parts ih =>
      obtain ⟨⟨-, hfirst⟩, hparts⟩ := List.forall_mem_cons.mp h
      cases parts with
      | nil =>
          rw [List.intercalate_singleton]
          exact cutGap?_word_append hfirst rest
      | cons second parts =>
          obtain ⟨⟨hne, hsecond⟩, -⟩ := List.forall_mem_cons.mp hparts
          rw [List.intercalate_cons_cons, List.append_assoc, List.append_assoc,
            cutGap?_word_append hfirst, List.singleton_append,
            cutGap?_cons fun _ => head?_intercalate_append hne hsecond parts rest, ih hparts,
            Option.map_map, Option.map_map]
          simp [Function.comp_def]

theorem cutGap?_join_append (all : List Nat) (rest : List Char) :
    cutGap? (join all ++ rest) =
      (cutGap? rest).map fun cut => (join all ++ cut.1, cut.2) := by
  refine cutGap?_intercalate_append (fun part hpart => ?_) rest
  obtain ⟨value, -, rfl⟩ := List.mem_map.mp hpart
  exact ⟨Nat.toDigits_ne_nil, colon_not_mem_hexadecimal value⟩

theorem cutGap?_join (all : List Nat) : cutGap? (join all) = none := by
  have h := cutGap?_join_append all []
  rwa [List.append_nil] at h

theorem cutGap?_join_gap_join (high low : List Nat) :
    cutGap? (join high ++ "::".toList ++ join low) = some (join high, join low) := by
  rw [List.append_assoc, cutGap?_join_append]
  simp [cutGap?]

/-- Eight groups without a gap are read back. -/
theorem eightGroups_join {all : List Nat} (h : ∀ value ∈ all, value < 65536)
    (hlength : all.length = 8) : eightGroups (join all) = .ok all := by
  rw [eightGroups, cutGap?_join]
  simp only [groups_join h, bind, Except.bind]
  exact if_pos hlength

/-- The groups on both sides of a gap are read back, with zeros for those left out. -/
theorem eightGroups_gap (high low : List Nat) (hhigh : ∀ value ∈ high, value < 65536)
    (hlow : ∀ value ∈ low, value < 65536) (hlength : high.length + low.length < 8) :
    eightGroups (join high ++ "::".toList ++ join low) =
      .ok (high ++ List.replicate (8 - (high.length + low.length)) 0 ++ low) := by
  rw [eightGroups, cutGap?_join_gap_join]
  simp only [cutGap?_join, Option.isSome_none, Bool.false_eq_true, if_false, groups_join hhigh,
    groups_join hlow, bind, Except.bind]
  exact if_pos hlength

/-! ### The dotted quad -/

theorem cutLastColon?_of_not_mem {text : List Char} (h : ':' ∉ text) :
    cutLastColon? text = none := by
  induction text with
  | nil => rfl
  | cons c text ih =>
      rw [List.mem_cons, not_or] at h
      rw [cutLastColon?, ih h.2]
      exact if_neg fun hc => h.1 hc.symm

theorem cutLastColon?_append_colon (before : List Char) {after : List Char} (h : ':' ∉ after) :
    cutLastColon? (before ++ ':' :: after) = some (before ++ [':'], after) := by
  induction before with
  | nil =>
      rw [List.nil_append, cutLastColon?, cutLastColon?_of_not_mem h]
      rfl
  | cons c before ih =>
      rw [List.cons_append, cutLastColon?, ih]
      rfl

/-- The part behind the last colon has no colon. -/
theorem exists_eq_of_cutLastColon? {text before after : List Char}
    (h : cutLastColon? text = some (before, after)) :
    ∃ front, text = front ++ ':' :: after ∧ ':' ∉ after := by
  by_cases hcolon : ':' ∈ text
  · obtain ⟨rest, front, hsplit, hrest⟩ :=
      List.eq_append_cons_of_mem (List.mem_reverse.mpr hcolon)
    have htext : text = front.reverse ++ ':' :: rest.reverse := by
      rw [← List.reverse_reverse text, hsplit]
      simp
    have hnot : ':' ∉ rest.reverse := fun hmem => hrest (List.mem_reverse.mp hmem)
    rw [htext, cutLastColon?_append_colon _ hnot] at h
    obtain ⟨-, rfl⟩ := Prod.mk.inj (Option.some.inj h)
    exact ⟨_, htext, hnot⟩
  · rw [cutLastColon?_of_not_mem hcolon] at h
    exact nomatch h

theorem spellQuad_of_not_mem {text : List Char} (h : '.' ∉ text) : spellQuad text = .ok text := by
  rw [spellQuad]
  split
  next before after hcut =>
    obtain ⟨front, rfl, -⟩ := exists_eq_of_cutLastColon? hcut
    exact if_neg fun hdot => h (List.mem_append_right _ (List.mem_cons_of_mem _ hdot))
  next => rfl

/-- The dotted quad of an address mapped from IPv4 is spelled as its two lowest groups. -/
theorem spellQuad_mapped (address : Nat) :
    spellQuad ("::ffff:".toList ++ DottedQuad.write address) =
      .ok (join [] ++ "::".toList ++
        join [65535, address / 65536 % 65536, address % 65536]) := by
  have hcolon : ':' ∉ DottedQuad.write address := by
    intro hmem
    rcases DottedQuad.mem_write hmem with h | h <;> exact absurd h (by decide)
  have hcut := cutLastColon?_append_colon "::ffff".toList hcolon
  have hhigh : address % 2 ^ 32 / 65536 = address / 65536 % 65536 := by omega
  have hlow : address % 2 ^ 32 % 65536 = address % 65536 := by omega
  have htext : "::ffff:".toList ++ DottedQuad.write address =
      "::ffff".toList ++ ':' :: DottedQuad.write address := rfl
  rw [htext, spellQuad, hcut]
  simp only [DottedQuad.dot_mem_write, if_true, DottedQuad.read_write, hhigh, hlow]
  rw [join_cons_cons, join_cons_cons, join_singleton]
  rfl

/-! ### Addresses -/

theorem zeros_append_drop (all : List Nat) :
    List.replicate (all.takeWhile (· = 0)).length 0 ++
      all.drop (all.takeWhile (· = 0)).length = all := by
  induction all with
  | nil => rfl
  | cons value rest ih =>
      by_cases hzero : value = 0
      · subst hzero
        rw [List.takeWhile_cons_of_pos (by decide), List.length_cons, List.replicate_succ,
          List.drop_succ_cons, List.cons_append, ih]
      · rw [List.takeWhile_cons_of_neg (by simpa using hzero)]
        rfl

theorem longestZeroRun_cons (value : Nat) (rest : List Nat) :
    longestZeroRun (value :: rest) =
      if (longestZeroRun rest).2 ≤ ((value :: rest).takeWhile (· = 0)).length then
        (0, ((value :: rest).takeWhile (· = 0)).length)
      else ((longestZeroRun rest).1 + 1, (longestZeroRun rest).2) :=
  rfl

/-- Zeros stand where the longest run of them is said to be. -/
theorem longestZeroRun_eq (all : List Nat) :
    all.take (longestZeroRun all).1 ++ List.replicate (longestZeroRun all).2 0 ++
      all.drop ((longestZeroRun all).1 + (longestZeroRun all).2) = all := by
  induction all with
  | nil => rfl
  | cons value rest ih =>
      rw [longestZeroRun_cons]
      split
      next hhere =>
        rw [List.take_zero, List.nil_append, Nat.zero_add, zeros_append_drop]
      next hlater =>
        rw [List.take_succ_cons, Nat.add_right_comm, List.drop_succ_cons, List.cons_append,
          List.cons_append, ih]

/-- The three shapes of a written address: with a dotted quad, with a gap, and with neither. -/
theorem write_cases (address : Nat) :
    (Positional.digits 65536 8 address).take 6 = [0, 0, 0, 0, 0, 65535] ∧
        write address = "::ffff:".toList ++ DottedQuad.write address ∨
      (∃ high length low, 0 < length ∧
        Positional.digits 65536 8 address = high ++ List.replicate length 0 ++ low ∧
        write address = join high ++ "::".toList ++ join low) ∨
      write address = join (Positional.digits 65536 8 address) := by
  unfold write
  generalize Positional.digits 65536 8 address = all
  by_cases hmapped : all.take 6 = [0, 0, 0, 0, 0, 65535]
  · exact .inl ⟨hmapped, if_pos hmapped⟩
  · right
    have hall := longestZeroRun_eq all
    simp only [if_neg hmapped]
    by_cases hrun : 2 ≤ (longestZeroRun all).2
    · exact .inl ⟨_, _, _, Nat.zero_lt_of_lt hrun, hall.symm, if_pos hrun⟩
    · exact .inr (if_neg hrun)

theorem mem_mapped {c : Char} (h : c ∈ "::ffff:".toList) :
    c = ':' ∨ (Numeral.hexDigit? c).isSome = true := by
  have hall : "::ffff:".toList.all
      (fun d => d = ':' ∨ (Numeral.hexDigit? d).isSome = true) = true := by decide
  exact of_decide_eq_true (List.all_eq_true.mp hall c h)

theorem mem_write {address : Nat} {c : Char} (h : c ∈ write address) :
    c = '.' ∨ c = ':' ∨ (Numeral.hexDigit? c).isSome = true := by
  rcases write_cases address with ⟨-, hwrite⟩ | ⟨high, length, low, -, -, hwrite⟩ | hwrite
  · rw [hwrite, List.mem_append] at h
    rcases h with hc | hc
    · exact .inr (mem_mapped hc)
    · rcases DottedQuad.mem_write hc with hc | hc
      · exact .inl hc
      · exact .inr (.inr (Numeral.hexDigit?_isSome_of_isDigit hc))
  · rw [hwrite, List.mem_append, List.mem_append] at h
    rcases h with (hc | hc) | hc
    · exact .inr (mem_join hc)
    · exact .inr (.inl (List.eq_of_mem_replicate (show c ∈ List.replicate 2 ':' from hc)))
    · exact .inr (mem_join hc)
  · rw [hwrite] at h
    exact .inr (mem_join h)

theorem colon_mem_write (address : Nat) : ':' ∈ write address := by
  rcases write_cases address with ⟨-, hwrite⟩ | ⟨high, length, low, -, -, hwrite⟩ | hwrite
  · rw [hwrite]
    exact List.mem_append_left _ (by decide)
  · rw [hwrite]
    exact List.mem_append_left _ (List.mem_append_right _ (by decide))
  · -- A text without a colon has one part, and an address has eight.
    rw [hwrite]
    have hlength : (Positional.digits 65536 8 address).length = 8 := Positional.length_digits ..
    have hne : Positional.digits 65536 8 address ≠ [] :=
      List.ne_nil_of_length_pos (hlength ▸ Nat.zero_lt_succ 7)
    by_contra hcolon
    have hparts := congrArg List.length (splitOn_join hne)
    rw [List.splitOn_eq_singleton hcolon, List.length_map, hlength, List.length_singleton] at hparts
    exact absurd hparts (by decide)

theorem dot_not_mem_join (all : List Nat) : '.' ∉ join all := by
  intro hmem
  rcases mem_join hmem with h | h <;> exact absurd h (by decide)

/-- The text of an address, its dotted quad spelled as groups, is read back as its eight groups. -/
theorem exists_spelled (address : Nat) :
    ∃ spelled, spellQuad (write address) = .ok spelled ∧
      eightGroups spelled = .ok (Positional.digits 65536 8 address) := by
  have hlt : ∀ value ∈ Positional.digits 65536 8 address, value < 65536 :=
    fun value => Positional.digits_lt (by decide)
  have hlength : (Positional.digits 65536 8 address).length = 8 := Positional.length_digits ..
  rcases write_cases address with
    ⟨hmapped, hwrite⟩ | ⟨high, length, low, hpos, hall, hwrite⟩ | hwrite
  · have hsplit : Positional.digits 65536 8 address =
        Positional.digits 65536 6 (address / 65536 / 65536) ++
          [address / 65536 % 65536, address % 65536] := by
      rw [Positional.digits, Positional.digits, List.append_assoc]
      rfl
    rw [hsplit, List.take_left' (Positional.length_digits ..)] at hmapped
    have hlow : ∀ value ∈ [65535, address / 65536 % 65536, address % 65536], value < 65536 := by
      intro value hvalue
      simp only [List.mem_cons, List.not_mem_nil, or_false] at hvalue
      omega
    rw [hwrite, hsplit, hmapped]
    refine ⟨_, spellQuad_mapped address, ?_⟩
    exact eightGroups_gap [] _ (List.forall_mem_nil _) hlow (Nat.le_add_left 4 4)
  · have hdot : '.' ∉ join high ++ "::".toList ++ join low := by
      rw [List.mem_append, List.mem_append]
      rintro ((hmem | hmem) | hmem)
      · exact dot_not_mem_join high hmem
      · exact absurd hmem (by decide)
      · exact dot_not_mem_join low hmem
    rw [hall] at hlt hlength ⊢
    simp only [List.length_append, List.length_replicate] at hlength
    have hleft : 8 - (high.length + low.length) = length := by omega
    rw [hwrite, ← hleft]
    refine ⟨_, spellQuad_of_not_mem hdot, ?_⟩
    refine eightGroups_gap high low (fun value hvalue => hlt value ?_)
      (fun value hvalue => hlt value ?_) ?_
    · exact List.mem_append_left _ (List.mem_append_left _ hvalue)
    · exact List.mem_append_right _ hvalue
    · omega
  · rw [hwrite]
    exact ⟨_, spellQuad_of_not_mem (dot_not_mem_join _), eightGroups_join hlt hlength⟩

/-- The low 128 bits of a number are read back from its text. -/
theorem read_write (address : Nat) : read (write address) = .ok (address % 2 ^ 128) := by
  obtain ⟨spelled, hspelled, hgroups⟩ := exists_spelled address
  have hvalue := Positional.value_digits 65536 8 address
  simp only [read, hspelled, bind, Except.bind, hgroups, hvalue]
  rfl

end NetPattern.ColonGroups
