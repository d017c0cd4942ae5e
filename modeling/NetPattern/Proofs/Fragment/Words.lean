import NetPattern.Fragment.Words
import NetPattern.Proofs.Fragment.Stages
import NetPattern.Proofs.Row.Boxes
import NetPattern.Proofs.Runs

/-!
# No check of a fragment fails

Bounds in words stand for numbers, and where the numbers are bounds of a range, each check on the
words passes: the first place where the bounds differ has the lesser digit in the lower bound, what
is left behind it is in order with the bound that takes its place, and a boundary digit that is
moved has room to move. The fragment found is that of the numbers.
-/

namespace NetPattern

section Words

variable {width : Nat} {first second : BitVec width}

/-- A sum is found exactly where it is that of the numbers. -/
theorem sum?_eq_some_iff {total : BitVec width} :
    sum? first second = some total ↔ first.toNat + second.toNat = total.toNat := by
  rw [sum?, Option.ite_none_left_eq_some, BitVec.uaddOverflow, decide_eq_true_eq, Nat.not_le,
    Option.some_inj]
  constructor
  · rintro ⟨hroom, rfl⟩
    exact (BitVec.toNat_add_of_lt hroom).symm
  · intro htotal
    have hroom : first.toNat + second.toNat < 2 ^ width := htotal ▸ total.isLt
    exact ⟨hroom, BitVec.eq_of_toNat_eq ((BitVec.toNat_add_of_lt hroom).trans htotal)⟩

theorem sum?_eq_some (h : first.toNat + second.toNat < 2 ^ width) :
    sum? first second = some (first + second) :=
  sum?_eq_some_iff.mpr (BitVec.toNat_add_of_lt h).symm

/-- A difference is found exactly where it is that of the numbers. -/
theorem difference?_eq_some_iff {rest : BitVec width} :
    difference? first second = some rest ↔ rest.toNat + second.toNat = first.toNat := by
  rw [difference?, Option.ite_none_left_eq_some, BitVec.usubOverflow, decide_eq_true_eq,
    Nat.not_lt, Option.some_inj]
  constructor
  · rintro ⟨hle, rfl⟩
    rw [BitVec.toNat_sub_of_le hle, Nat.sub_add_cancel hle]
  · intro hrest
    have hle : second ≤ first := Nat.le_of_add_left_le (Nat.le_of_eq hrest)
    refine ⟨hle, BitVec.eq_of_toNat_eq ?_⟩
    rw [BitVec.toNat_sub_of_le hle, ← hrest, Nat.add_sub_cancel]

theorem difference?_eq_some (h : second ≤ first) :
    difference? first second = some (first - second) := by
  rw [difference?_eq_some_iff, BitVec.toNat_sub_of_le h, Nat.sub_add_cancel h]

theorem map_toNat_inj {low high : List (BitVec width)} :
    low.map BitVec.toNat = high.map BitVec.toNat ↔ low = high :=
  (List.map_injective_iff.mpr fun _ _ => BitVec.eq_of_toNat_eq).eq_iff

/-- Lists of words are in the order of their lists of numbers. -/
theorem map_toNat_le_map_toNat_iff {low high : List (BitVec width)} :
    low.map BitVec.toNat ≤ high.map BitVec.toNat ↔ low ≤ high := by
  induction low generalizing high with
  | nil => exact ⟨fun _ => List.nil_le _, fun _ => not_lt.mp (List.not_lt_nil _)⟩
  | cons l low ih =>
      cases high with
      | nil => simp
      | cons h high =>
          rw [List.map_cons, List.map_cons, cons_le_cons_iff, ih, List.cons_le_cons_iff,
            BitVec.lt_def, BitVec.toNat_inj]

theorem all_map_toNat (words : List (BitVec width)) (word : BitVec width) :
    (words.map BitVec.toNat).all (· = word.toNat) = words.all (· = word) := by
  simp only [List.all_map, Function.comp_def, BitVec.toNat_inj]

/-- Words bound a range where their numbers do. -/
theorem SegmentBounds.wordBounds {top count : Nat} {low high : List (BitVec width)}
    (hbounds : SegmentBounds top count (low.map BitVec.toNat) (high.map BitVec.toNat)) :
    WordBounds low high := by
  refine ⟨?_, map_toNat_le_map_toNat_iff.mp hbounds.low_le_high⟩
  simpa using hbounds.length_low.trans hbounds.length_high.symm

/-- Numbers bound a range where their words do and none of them is too large. -/
theorem WordBounds.segmentBounds {top : Nat} {low high : List (BitVec width)}
    (hbounds : WordBounds low high) (htop : ∀ word ∈ low ++ high, word.toNat ≤ top) :
    SegmentBounds top low.length (low.map BitVec.toNat) (high.map BitVec.toNat) where
  length_low := List.length_map _
  length_high := by rw [List.length_map, hbounds.1]
  low_le_top := List.forall_mem_map.mpr (List.forall_mem_append.mp htop).1
  high_le_top := List.forall_mem_map.mpr (List.forall_mem_append.mp htop).2
  low_le_high := map_toNat_le_map_toNat_iff.mpr hbounds.2

end Words

/-- Lists of one length that are not equal agree up to some place and differ there. -/
theorem exists_first_difference {α : Type} {low high : List α} (hlength : low.length = high.length)
    (hne : low ≠ high) :
    ∃ common l h lowRest highRest, low = common ++ l :: lowRest ∧ high = common ++ h :: highRest ∧
      l ≠ h := by
  induction low generalizing high with
  | nil => exact absurd (List.length_eq_zero_iff.mp hlength.symm).symm hne
  | cons l low ih =>
      obtain ⟨h, high, rfl⟩ := List.exists_cons_of_length_eq_add_one hlength.symm
      by_cases hsame : l = h
      · subst hsame
        obtain ⟨common, l', h', lowRest, highRest, rfl, rfl, hdiffer⟩ :=
          ih (Nat.succ.inj hlength) fun heq => hne (heq ▸ rfl)
        exact ⟨l :: common, l', h', lowRest, highRest, rfl, rfl, hdiffer⟩
      · exact ⟨[], l, h, low, high, rfl, rfl, hsame⟩

/-- The first place where two lists differ is found behind all members that they share. -/
theorem findIdx?_zip_append {α : Type} [DecidableEq α] (common : List α) {l h : α} (hne : l ≠ h)
    (lowRest highRest : List α) :
    ((common ++ l :: lowRest).zip (common ++ h :: highRest)).findIdx? (fun (l, h) => l ≠ h) =
      some common.length := by
  induction common with
  | nil => simp [List.findIdx?_cons, hne]
  | cons c common ih => simp_all [List.findIdx?_cons]

namespace Fragment

theorem digitChar?_eq {digit : BitVec 8} (h : digit.toNat < 16) :
    digitChar? digit = some digit.toNat.digitChar := by
  unfold digitChar?
  generalize digit.toNat = value at h
  revert value
  decide

/-- There are characters for digits and for nothing that is more. -/
theorem isSome_digitChar?_iff {digit : BitVec 8} :
    (digitChar? digit).isSome = true ↔ digit ≤ 15 := by
  have hlength : "0123456789abcdef".toList.length = 16 := by decide
  unfold digitChar?
  rw [isSome_getElem?, hlength]
  exact Nat.lt_succ_iff

/-- The characters of a list of digits are looked up one by one. -/
theorem mapM_digitChar? {digits : List (BitVec 8)} (h : ∀ digit ∈ digits, digit.toNat < 16) :
    digits.mapM digitChar? = some (digitText (digits.map BitVec.toNat)) := by
  rw [mapM_eq_some_iff, digitText, List.map_map, List.forall₂_map_right_iff, List.forall₂_same]
  exact fun digit hdigit => digitChar?_eq (h digit hdigit)

section Digits

variable {low high : BitVec 8}

theorem digitSpan?_eq (hle : low.toNat ≤ high.toNat) (hhigh : high.toNat < 16) :
    digitSpan? low high = some (digitSpan low.toNat high.toNat) := by
  have hsteps : (high - low).toNat = high.toNat - low.toNat := BitVec.toNat_sub_of_le hle
  have hzero : high - low = 0 ↔ high.toNat - low.toNat = 0 := by
    rw [← hsteps, BitVec.toNat_eq]
    rfl
  have hone : high - low = 1 ↔ high.toNat - low.toNat = 1 := by
    rw [← hsteps, BitVec.toNat_eq]
    rfl
  simp only [digitSpan?, digitChar?_eq (Nat.lt_of_le_of_lt hle hhigh), digitChar?_eq hhigh,
    difference?_eq_some (BitVec.le_def.mpr hle), Option.bind_eq_bind, Option.bind_some, hzero, hone]
  unfold digitSpan
  match high.toNat - low.toNat with
  | 0 => rfl
  | 1 => rfl
  | steps + 2 => rfl

theorem decimalSpan?_eq (hle : low.toNat ≤ high.toNat) :
    decimalSpan? low high =
      some (if low.toNat ≤ 9 then digitSpan low.toNat (min high.toNat 9) else []) := by
  have hdecimal : low ≤ 9 ↔ low.toNat ≤ 9 := Iff.rfl
  have hupper : (if high ≤ 9 then high else 9).toNat = min high.toNat 9 := by
    rw [apply_ite BitVec.toNat, min_def]
    rfl
  simp only [decimalSpan?, hdecimal]
  split
  next hlow =>
    rw [← hupper]
    apply digitSpan?_eq <;> omega
  next => rfl

theorem letterSpan?_eq (hle : low.toNat ≤ high.toNat) (hhigh : high.toNat < 16) :
    letterSpan? low high =
      some (if 10 ≤ high.toNat then digitSpan (max low.toNat 10) high.toNat else []) := by
  have hletter : 10 ≤ high ↔ 10 ≤ high.toNat := Iff.rfl
  have hlower : (if 10 ≤ low then low else 10).toNat = max low.toNat 10 := by
    rw [apply_ite BitVec.toNat, max_comm, max_def]
    rfl
  simp only [letterSpan?, hletter]
  split
  next hten =>
    rw [← hlower]
    apply digitSpan?_eq <;> omega
  next => rfl

theorem digitClass?_eq (hle : low.toNat ≤ high.toNat) (hhigh : high.toNat < 16) :
    digitClass? low high = some (digitClass low.toNat high.toNat) := by
  have hguard : low ≤ high ∧ high ≤ 15 := ⟨hle, Nat.le_of_lt_succ hhigh⟩
  have hsame : low = high ↔ low.toNat = high.toNat := BitVec.toNat_inj.symm
  rw [digitClass?, guard, if_pos hguard]
  simp only [pure_bind, hsame, decimalSpan?_eq hle, letterSpan?_eq hle hhigh,
    digitChar?_eq (Nat.lt_of_le_of_lt hle hhigh), Option.bind_eq_bind, Option.bind_some]
  unfold digitClass
  split <;> rfl

/-- There is a class of digits exactly where they are in order and not too large. -/
theorem isSome_digitClass?_iff :
    (digitClass? low high).isSome = true ↔ low ≤ high ∧ high ≤ 15 := by
  apply isSome_iff_of_eq_none
  · intro hnot
    rw [digitClass?, guard, if_neg hnot]
    rfl
  · intro hdigits
    exact ⟨_, digitClass?_eq hdigits.1 (Nat.lt_succ_of_le hdigits.2)⟩

end Digits

section Split

variable {width l h : Nat} {low high : List Nat}

theorem digitRange_self {low : List Nat} (hlength : low.length = width) :
    digitRange width low low = digitText low := by
  subst hlength
  cases low with
  | nil => rfl
  | cons l low => exact if_pos rfl

theorem digitRange_full (hbounds : SegmentBounds 15 width low high) (hne : low ≠ high)
    (hfull : SegmentBounds.Full 15 low high) : digitRange width low high = anyDigits width := by
  cases width with
  | zero =>
      obtain rfl := List.length_eq_zero_iff.mp hbounds.length_low
      exact absurd (List.length_eq_zero_iff.mp hbounds.length_high).symm hne
  | succ width =>
      obtain ⟨l, low, rfl⟩ := List.exists_cons_of_length_eq_add_one hbounds.length_low
      obtain ⟨h, high, rfl⟩ := List.exists_cons_of_length_eq_add_one hbounds.length_high
      rw [digitRange, if_neg hne]
      exact if_pos hfull

/-- Digits that both bounds begin with are written down in front. -/
theorem digitRange_append (hne : low ≠ high) (common : List Nat) :
    digitRange (common.length + width) (common ++ low) (common ++ high) =
      digitText common ++ digitRange width low high := by
  induction common with
  | nil => rw [List.length_nil, Nat.zero_add, List.nil_append, List.nil_append]; rfl
  | cons digit common ih =>
      have hfull : ¬ (((digit :: (common ++ low)).all (· = 0)) = true ∧
          (digit :: (common ++ high)).all (· = 15) = true) := by
        simp only [List.all_cons, Bool.and_eq_true, decide_eq_true_eq]
        omega
      rw [List.length_cons, Nat.add_right_comm, List.cons_append, List.cons_append, digitRange,
        if_neg (by simpa using hne), if_neg hfull, if_pos rfl, ih]
      rfl

/-- All digits are free where the bounds leave nothing out, and there only. -/
theorem full_iff_free (hlt : l < h) (hh : h < 16) :
    SegmentBounds.Full 15 (l :: low) (h :: high) ↔ firstFree l low = 0 ∧ lastFree h high = 15 := by
  unfold SegmentBounds.Full firstFree lastFree
  simp only [List.all_cons, Bool.and_eq_true, decide_eq_true_eq]
  split <;> split <;> grind

/-- The fragments of the rows that begin with a free digit. Any digits are written as one where all
digits are free. -/
def freeFragments (width l h : Nat) (low high : List Nat) : List Fragment :=
  if firstFree l low ≤ lastFree h high then
    if SegmentBounds.Full 15 (l :: low) (h :: high) then [anyDigits (width + 1)]
    else [(freePart width l h low high).1]
  else []

theorem digitRange_eq_union (hbounds : SegmentBounds 15 (width + 1) (l :: low) (h :: high))
    (hlt : l < h) :
    digitRange (width + 1) (l :: low) (h :: high) =
      union ((if low.all (· = 0) then [] else [(lowestPart width l low).1]) ++
        freeFragments width l h low high ++
        (if high.all (· = 15) then [] else [(highestPart width h high).1])) := by
  have hne : l ≠ h := Nat.ne_of_lt hlt
  have hh : h < 16 := Nat.lt_succ_of_le hbounds.first_high_le_top
  unfold freeFragments
  by_cases hfull : SegmentBounds.Full 15 (l :: low) (h :: high)
  · have hlow : low.all (· = 0) = true := (Bool.and_eq_true_iff.mp hfull.1).2
    have hhigh : high.all (· = 15) = true := (Bool.and_eq_true_iff.mp hfull.2).2
    obtain ⟨hfirst, hlast⟩ := (full_iff_free hlt hh).mp hfull
    rw [digitRange_full hbounds (by simp [hne]) hfull, if_pos hlow, if_pos hhigh, hfirst, hlast,
      if_pos (Nat.zero_le 15), if_pos hfull]
    exact (isFlatUnion_anyDigits (width + 1)).union_eq.symm
  · rw [digitRange_split hne hfull]
    simp only [splitParts, List.map_append, apply_ite (List.map Prod.fst), if_neg hfull]
    rfl

end Split

section Words

variable {low high : List (BitVec 8)}

theorem firstFree?_eq {l : BitVec 8} (hl : l.toNat < 15) (low : List Nat) :
    ∃ first, firstFree? l (low.all (· = 0)) = some first ∧ first.toNat = firstFree l.toNat low := by
  unfold firstFree? firstFree
  split
  next => exact ⟨l, rfl, rfl⟩
  next =>
    have hroom : l.toNat + (1 : BitVec 8).toNat < 2 ^ 8 :=
      Nat.lt_of_lt_of_le (Nat.succ_lt_succ hl) (by decide)
    exact ⟨l + 1, sum?_eq_some hroom, BitVec.toNat_add_of_lt hroom⟩

theorem lastFree?_eq {h : BitVec 8} (hh : 0 < h.toNat) (high : List Nat) :
    ∃ last, lastFree? h (high.all (· = 15)) = some last ∧ last.toNat = lastFree h.toNat high := by
  unfold lastFree? lastFree
  split
  next => exact ⟨h, rfl, rfl⟩
  next =>
    have hone : (1 : BitVec 8) ≤ h := hh
    exact ⟨h - 1, difference?_eq_some hone, BitVec.toNat_sub_of_le hone⟩

theorem freePart?_eq {l h : BitVec 8} (hlt : l.toNat < h.toNat) (hh : h.toNat < 16) (width : Nat)
    (low high : List Nat) :
    freePart? width l h (low.all (· = 0)) (high.all (· = 15)) =
      some (freeFragments width l.toNat h.toNat low high) := by
  obtain ⟨first, hfirst, hfirst'⟩ := firstFree?_eq (l := l) (by omega) low
  obtain ⟨last, hlast, hlast'⟩ := lastFree?_eq (h := h) (by omega) high
  have hle : first ≤ last ↔ firstFree l.toNat low ≤ lastFree h.toNat high := by
    rw [← hfirst', ← hlast']
    rfl
  have hfull : first = 0 ∧ last = 15 ↔
      SegmentBounds.Full 15 (l.toNat :: low) (h.toNat :: high) := by
    rw [full_iff_free hlt hh, ← hfirst', ← hlast', ← BitVec.toNat_inj, ← BitVec.toNat_inj]
    rfl
  have hlastlt : last.toNat < 16 := by
    rw [hlast', lastFree]
    split <;> omega
  simp only [freePart?, hfirst, hlast, Option.bind_eq_bind, Option.bind_some, hle, hfull]
  unfold freeFragments
  split
  next hfree =>
    split
    next => rfl
    next =>
      rw [digitClass?_eq (by omega) hlastlt, hfirst', hlast']
      rfl
  next => rfl

theorem digitBounds_of_segmentBounds {width : Nat}
    (hbounds : SegmentBounds 15 width (low.map BitVec.toNat) (high.map BitVec.toNat)) :
    DigitBounds low high := by
  refine ⟨hbounds.wordBounds, List.forall_mem_append.mpr ⟨?_, ?_⟩⟩
  · exact fun digit hdigit => hbounds.low_le_top _ (List.mem_map_of_mem hdigit)
  · exact fun digit hdigit => hbounds.high_le_top _ (List.mem_map_of_mem hdigit)

theorem DigitBounds.lt (h : DigitBounds low high) {digit : BitVec 8} (hdigit : digit ∈ low ++ high) :
    digit.toNat < 16 :=
  Nat.lt_succ_of_le (h.2 digit hdigit)

theorem digitRange?_same (hbounds : DigitBounds low low) :
    digitRange? low low = some (digitText (low.map BitVec.toNat)) := by
  rw [digitRange?, if_neg (not_not.mpr hbounds), if_pos rfl]
  exact mapM_digitChar? fun digit hdigit => hbounds.lt (List.mem_append_left _ hdigit)

theorem digitRange?_full (hbounds : DigitBounds low high) (hne : low ≠ high)
    (hfull : low.all (· = 0) = true ∧ high.all (· = 15) = true) :
    digitRange? low high = some (anyDigits low.length) := by
  rw [digitRange?, if_neg (not_not.mpr hbounds), if_neg hne, if_pos hfull]

/-- Bounds with different digits behind some that they share are split there. -/
theorem digitRange?_split {common lowRest highRest : List (BitVec 8)} {l h : BitVec 8}
    (hbounds : DigitBounds (common ++ l :: lowRest) (common ++ h :: highRest)) (hne : l ≠ h)
    (hfull : ¬ ((common ++ l :: lowRest).all (· = 0) = true ∧
      (common ++ h :: highRest).all (· = 15) = true)) :
    digitRange? (common ++ l :: lowRest) (common ++ h :: highRest) = (do
      let lowest : Option (List Fragment) :=
        if lowRest.all (· = 0) then some []
        else do
          let rest ← digitRange? lowRest (List.replicate lowRest.length 15)
          return [l.toNat.digitChar :: rest]
      let highest : Option (List Fragment) :=
        if highRest.all (· = 15) then some []
        else do
          let rest ← digitRange? (List.replicate lowRest.length 0) highRest
          return [h.toNat.digitChar :: rest]
      let free ← freePart? lowRest.length l h (lowRest.all (· = 0)) (highRest.all (· = 15))
      return digitText (common.map BitVec.toNat) ++ union ((← lowest) ++ free ++ (← highest))) := by
  have hcommon : ∀ digit ∈ common, digit.toNat < 16 :=
    fun digit hdigit => hbounds.lt (by simp [hdigit])
  have hl : l.toNat < 16 := hbounds.lt (by simp)
  have hh : h.toNat < 16 := hbounds.lt (by simp)
  rw [digitRange?, if_neg (not_not.mpr hbounds), if_neg (by simp [hne]), if_neg hfull,
    findIdx?_zip_append common hne]
  simp [mapM_digitChar? hcommon, digitChar?_eq hl, digitChar?_eq hh]

/-- At the first digits that differ no check fails, where none fails behind them. -/
theorem digitRange?_of_rests {common lowRest highRest : List (BitVec 8)} {l h : BitVec 8}
    (hbounds : SegmentBounds 15 ((common.map BitVec.toNat).length + (lowRest.length + 1))
      ((common ++ l :: lowRest).map BitVec.toNat) ((common ++ h :: highRest).map BitVec.toNat))
    (hne : l ≠ h)
    (hfull : ¬ ((common ++ l :: lowRest).all (· = 0) = true ∧
      (common ++ h :: highRest).all (· = 15) = true))
    (hbelow : digitRange? lowRest (List.replicate lowRest.length 15) =
      some (digitRange lowRest.length (lowRest.map BitVec.toNat)
        (List.replicate lowRest.length 15)))
    (habove : digitRange? (List.replicate lowRest.length 0) highRest =
      some (digitRange lowRest.length (List.replicate lowRest.length 0)
        (highRest.map BitVec.toNat))) :
    digitRange? (common ++ l :: lowRest) (common ++ h :: highRest) =
      some (digitRange ((common.map BitVec.toNat).length + (lowRest.length + 1))
        ((common ++ l :: lowRest).map BitVec.toNat)
        ((common ++ h :: highRest).map BitVec.toNat)) := by
  have hdigits := digitBounds_of_segmentBounds hbounds
  rw [List.map_append, List.map_cons, List.map_append, List.map_cons] at hbounds ⊢
  have hrest := hbounds.of_append
  have hh : h.toNat < 16 := Nat.lt_succ_of_le hrest.first_high_le_top
  have hlt : l.toNat < h.toNat := hrest.first_lt_of_ne (mt BitVec.eq_of_toNat_eq hne)
  have hdiffer : l.toNat :: lowRest.map BitVec.toNat ≠ h.toNat :: highRest.map BitVec.toNat :=
    fun heq => Nat.ne_of_lt hlt (List.cons.inj heq).1
  have hfree := freePart?_eq hlt hh lowRest.length (lowRest.map BitVec.toNat)
    (highRest.map BitVec.toNat)
  have hlowOpen : (lowRest.map BitVec.toNat).all (· = 0) = lowRest.all (· = 0) :=
    all_map_toNat lowRest 0
  have hhighOpen : (highRest.map BitVec.toNat).all (· = 15) = highRest.all (· = 15) :=
    all_map_toNat highRest 15
  rw [digitRange?_split hdigits hne hfull, hbelow, habove, digitRange_append hdiffer,
    digitRange_eq_union hrest hlt, ← hlowOpen, ← hhighOpen, hfree]
  cases (lowRest.map BitVec.toNat).all (· = 0) <;>
    cases (highRest.map BitVec.toNat).all (· = 15) <;> rfl

/-- The rows of digits between two bounds have a fragment, whatever the bounds are: no check fails,
and the fragment is that of the numbers that the digits stand for. -/
theorem digitRange?_eq {width : Nat} {low high : List (BitVec 8)}
    (hbounds : SegmentBounds 15 width (low.map BitVec.toNat) (high.map BitVec.toNat)) :
    digitRange? low high =
      some (digitRange width (low.map BitVec.toNat) (high.map BitVec.toNat)) := by
  -- Several digits are passed at once, so the width of what is left is any that is less.
  induction width using Nat.strong_induction_on generalizing low high with
  | _ width ih =>
      have hdigits := digitBounds_of_segmentBounds hbounds
      have hlow : low.length = width := by simpa using hbounds.length_low
      by_cases hsame : low = high
      · subst hsame
        rw [digitRange?_same hdigits, digitRange_self hbounds.length_low]
      by_cases hfull : low.all (· = 0) = true ∧ high.all (· = 15) = true
      · have hall : SegmentBounds.Full 15 (low.map BitVec.toNat) (high.map BitVec.toNat) :=
          ⟨(all_map_toNat low 0).trans hfull.1, (all_map_toNat high 15).trans hfull.2⟩
        rw [digitRange?_full hdigits hsame hfull,
          digitRange_full hbounds (mt map_toNat_inj.mp hsame) hall, hlow]
      obtain ⟨common, l, h, lowRest, highRest, rfl, rfl, hne⟩ :=
        exists_first_difference hdigits.1.1 hsame
      obtain rfl : width = (common.map BitVec.toNat).length + (lowRest.length + 1) := by
        rw [← hlow, List.length_append, List.length_map, List.length_cons]
      have hless : lowRest.length < (common.map BitVec.toNat).length + (lowRest.length + 1) := by
        omega
      have hrest := hbounds
      rw [List.map_append, List.map_cons, List.map_append, List.map_cons] at hrest
      have hbelow := @ih _ hless lowRest (List.replicate lowRest.length 15)
      have habove := @ih _ hless (List.replicate lowRest.length 0) highRest
      rw [List.map_replicate] at hbelow habove
      exact digitRange?_of_rests hbounds hne hfull (hbelow hrest.of_append.below)
        (habove hrest.of_append.above)

/-- There is a range of rows of digits exactly where it has bounds of one length and in order. -/
theorem isSome_digitRange?_iff : (digitRange? low high).isSome = true ↔ DigitBounds low high := by
  apply isSome_iff_of_eq_none
  · intro hnot
    rw [digitRange?, if_pos hnot]
  · intro hbounds
    exact ⟨_, digitRange?_eq (hbounds.1.segmentBounds hbounds.2)⟩

theorem map_hextetDigits (hextet : BitVec 16) :
    (hextetDigits hextet).map BitVec.toNat = Positional.digits 16 4 hextet.toNat := by
  have hlt := hextet.isLt
  have hmask : ∀ n, n &&& 15 = n % 16 := fun n => Nat.and_two_pow_sub_one_eq_mod n 4
  have hfirst : hextet.toNat / 4096 % 256 = hextet.toNat / 16 / 16 / 16 % 16 := by omega
  have hsecond : hextet.toNat / 256 % 16 = hextet.toNat / 16 / 16 % 16 := by omega
  simp [hextetDigits, Positional.digits, Nat.shiftRight_eq_div_pow, hmask, hfirst, hsecond]

/-- The hextets between two have a fragment. -/
theorem hextetRange?_eq {low high : BitVec 16} (hle : low.toNat ≤ high.toNat) :
    hextetRange? low high = some (hextetRange low.toNat high.toNat) := by
  have hlt : ∀ hextet : BitVec 16, hextet.toNat < 16 ^ 4 :=
    fun hextet => Nat.lt_of_lt_of_le hextet.isLt (by decide)
  have hbounds : SegmentBounds 15 4 ((hextetDigits low).map BitVec.toNat)
      ((hextetDigits high).map BitVec.toNat) := by
    rw [map_hextetDigits, map_hextetDigits]
    exact {
      length_low := Positional.length_digits 16 4 _
      length_high := Positional.length_digits 16 4 _
      low_le_top := fun _ hdigit => Nat.le_of_lt_succ (Positional.digits_lt (by decide) hdigit)
      high_le_top := fun _ hdigit => Nat.le_of_lt_succ (Positional.digits_lt (by decide) hdigit)
      low_le_high := (Positional.digits_le_digits_iff (hlt low) (hlt high)).mpr hle }
  rw [hextetRange?, guard, if_pos (BitVec.le_def.mpr hle), digitRange?_eq hbounds,
    map_hextetDigits, map_hextetDigits]
  rfl

theorem isSome_hextetRange?_iff {low high : BitVec 16} :
    (hextetRange? low high).isSome = true ↔ low ≤ high := by
  apply isSome_iff_of_eq_none
  · intro hnot
    rw [hextetRange?, guard, if_neg hnot]
    rfl
  · intro hle
    exact ⟨_, hextetRange?_eq hle⟩

theorem octetRange?_eq (padded : Bool) {low high : BitVec 16} (hle : low.toNat ≤ high.toNat)
    (hhigh : high.toNat ≤ 255) :
    octetRange? padded low high = some (octetRange padded low.toNat high.toNat) := by
  have hguard : low ≤ high ∧ high ≤ 255 := ⟨hle, hhigh⟩
  rw [octetRange?, guard, if_pos hguard]
  rfl

theorem isSome_octetRange?_iff {padded : Bool} {low high : BitVec 16} :
    (octetRange? padded low high).isSome = true ↔ low ≤ high ∧ high ≤ 255 := by
  apply isSome_iff_of_eq_none
  · intro hnot
    rw [octetRange?, guard, if_neg hnot]
    rfl
  · intro hoctets
    exact ⟨_, octetRange?_eq padded hoctets.1 hoctets.2⟩

end Words

end Fragment

end NetPattern
