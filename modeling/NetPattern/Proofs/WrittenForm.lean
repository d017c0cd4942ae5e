import Mathlib.Data.List.Forall2
import NetPattern.Proofs.Numeral
import NetPattern.Range
import NetPattern.Row.Decomposition

/-!
# Written forms of addresses

The texts that a pattern is to match: the segments of an address, each in its form, with one
character between them. A text is a written form of one address at most.
-/

namespace NetPattern

/-- What a relation asks of its left side holds of all members on the left. -/
theorem forall_mem_of_forall₂ {α β : Type} {R : α → β → Prop} {p : α → Prop} {left : List α}
    {right : List β} (h : List.Forall₂ R left right) (hp : ∀ a b, R a b → p a) :
    ∀ a ∈ left, p a :=
  ((List.forall₂_and_left left right).mp (h.imp fun a b hab => ⟨hp a b hab, hab⟩)).1

theorem intercalate_concat {α : Type} {separator : List α} {parts : List (List α)}
    (hne : parts ≠ []) (last : List α) :
    separator.intercalate (parts ++ [last]) =
      separator.intercalate parts ++ (separator ++ last) := by
  induction parts with
  | nil => exact absurd rfl hne
  | cons part parts ih =>
      by_cases hparts : parts = []
      · subst hparts
        rw [List.singleton_append, List.intercalate_cons_cons, List.intercalate_singleton,
          List.intercalate_singleton, List.append_assoc]
      · rw [List.cons_append, List.intercalate_cons_of_ne_nil (by simp), ih hparts,
          List.intercalate_cons_of_ne_nil hparts]
        simp

namespace SegmentForm

/-- How a segment is written: an octet in decimal, behind zeros up to three digits where it is
padded, and a hextet as its four hexadecimal digits, each in either case. -/
def Writes : SegmentForm → Nat → List Char → Prop
  | octet false, value, text => text = Numeral.decimal value
  | octet true, value, text =>
      text.length ≤ 3 ∧ ∃ zeros, text = List.replicate zeros '0' ++ Numeral.decimal value
  | hextet, value, text =>
      List.Forall₂ (fun digit c => Numeral.hexDigit? c = some digit)
        (Positional.digits 16 4 value) text

end SegmentForm

/-- The character between the segments of a written address. -/
def Family.joiner : Family → Char
  | .v4 => '.'
  | .v6 => ':'

/-- Whether a text is a written form of some segments. -/
def Family.WritesSegments (family : Family) (leadingZeros : Bool) (segments : List Nat)
    (text : List Char) : Prop :=
  ∃ parts, text = [family.joiner].intercalate parts ∧
    List.Forall₂ (SegmentForm.of family leadingZeros).Writes segments parts

/-- Whether a text is a written form of an address. -/
def Family.Writes (family : Family) (leadingZeros : Bool) (address : Nat)
    (text : List Char) : Prop :=
  family.WritesSegments leadingZeros (family.segments address) text

/-- The rows of decimal digits that an octet may be written with. -/
structure OctetDigits (padded : Bool) (ds : List Nat) : Prop where
  ne_nil : ds ≠ []
  lt_ten : ∀ d ∈ ds, d < 10
  length_le : padded = true → ds.length ≤ 3
  head_zero : padded = false → ds.head? = some 0 → ds = [0]

namespace SegmentForm

theorem writes_octet_iff {padded : Bool} {value : Nat} {text : List Char} :
    (octet padded).Writes value text ↔
      ∃ ds, OctetDigits padded ds ∧ Positional.value 10 ds = value ∧
        text = ds.map Nat.digitChar := by
  cases padded with
  | false =>
      rw [Writes]
      constructor
      · intro htext
        obtain ⟨ds, hne, hlt, hvalue, hhead, hdigits⟩ :=
          Numeral.exists_digits (show 1 < 10 by decide) value
        refine ⟨ds, ⟨hne, hlt, fun h => absurd h (by decide), fun _ => hhead⟩, hvalue, ?_⟩
        rw [htext, Numeral.decimal, hdigits]
      · intro h
        obtain ⟨ds, hds, rfl, rfl⟩ := h
        exact (Numeral.toDigits_value (by decide) hds.ne_nil hds.lt_ten (hds.head_zero rfl)).symm
  | true =>
      rw [Writes, ← Numeral.decimal?_eq_some_iff]
      constructor
      · intro h
        obtain ⟨hlength, hread⟩ := h
        obtain ⟨ds, hne, hlt, hvalue, rfl⟩ := Numeral.exists_digits_of_decimal? hread
        rw [List.length_map] at hlength
        exact ⟨ds, ⟨hne, hlt, fun _ => hlength, fun h => absurd h (by decide)⟩, hvalue, rfl⟩
      · intro h
        obtain ⟨ds, hds, rfl, rfl⟩ := h
        exact ⟨by simpa using hds.length_le rfl,
          Numeral.decimal?_map_digitChar hds.ne_nil hds.lt_ten⟩

/-- A segment is written with digits only. -/
theorem Writes.hexDigit?_ne_none {form : SegmentForm} {value : Nat} {text : List Char}
    (h : form.Writes value text) : ∀ c ∈ text, Numeral.hexDigit? c ≠ none := by
  cases form with
  | octet padded =>
      obtain ⟨ds, hds, -, rfl⟩ := writes_octet_iff.mp h
      intro c hc
      obtain ⟨d, hd, rfl⟩ := List.mem_map.mp hc
      have := hds.lt_ten d hd
      rw [Numeral.hexDigit?_digitChar (by omega)]
      exact Option.some_ne_none d
  | hextet =>
      rw [Writes] at h
      exact forall_mem_of_forall₂ h.flip fun c d hd => hd ▸ Option.some_ne_none d

/-- With padding or without it an octet is written with the fewest digits, too. -/
theorem writes_decimal (padded : Bool) {value : Nat} (hvalue : value ≤ 255) :
    (octet padded).Writes value (Numeral.decimal value) := by
  cases padded with
  | false => rfl
  | true =>
      have hlength : (Numeral.decimal value).length ≤ 3 :=
        (Nat.length_toDigits_le_iff (by decide) (by decide)).mpr
          (Nat.lt_of_le_of_lt hvalue (by decide : 255 < 10 ^ 3))
      exact ⟨hlength, 0, rfl⟩

theorem exists_writes (form : SegmentForm) {value : Nat} (hvalue : value ≤ form.top) :
    ∃ text, form.Writes value text := by
  cases form with
  | octet padded => exact ⟨Numeral.decimal value, writes_decimal padded hvalue⟩
  | hextet =>
      refine ⟨(Positional.digits 16 4 value).map Nat.digitChar, ?_⟩
      rw [Writes, List.forall₂_map_right_iff, List.forall₂_same]
      exact fun d hd => Numeral.hexDigit?_digitChar (Positional.digits_lt (by decide) hd)

/-- A text is the written form of one segment at most. -/
theorem Writes.unique {form : SegmentForm} {v w : Nat} {text : List Char} (hv : v ≤ form.top)
    (hw : w ≤ form.top) (hvtext : form.Writes v text) (hwtext : form.Writes w text) : v = w := by
  cases form with
  | octet padded =>
      obtain ⟨ds, hds, rfl, rfl⟩ := writes_octet_iff.mp hvtext
      obtain ⟨es, hes, rfl, heq⟩ := writes_octet_iff.mp hwtext
      have hsmall : ∀ ds, OctetDigits padded ds → ∀ d ∈ ds, d < 16 :=
        fun ds hds d hd => Nat.lt_trans (hds.lt_ten d hd) (by decide)
      rw [Numeral.map_digitChar_injective (hsmall ds hds) (hsmall es hes) heq]
  | hextet =>
      have hdigits : Positional.digits 16 4 v = Positional.digits 16 4 w := by
        have hfunctional : Relator.LeftUnique
            fun (digit : Nat) (c : Char) => Numeral.hexDigit? c = some digit :=
          fun _ _ _ h h' => Option.some.inj (h.symm.trans h')
        exact List.left_unique_forall₂' hfunctional hvtext hwtext
      have hsize : top hextet < 16 ^ 4 := by decide
      rw [← Positional.value_digits_of_lt (Nat.lt_of_le_of_lt hv hsize), hdigits,
        Positional.value_digits_of_lt (Nat.lt_of_le_of_lt hw hsize)]

end SegmentForm

namespace Family

theorem hexDigit?_joiner (family : Family) : Numeral.hexDigit? family.joiner = none := by
  cases family <;> decide

theorem segmentMax_eq_top (family : Family) (leadingZeros : Bool) :
    family.segmentMax = (SegmentForm.of family leadingZeros).top := by
  cases family <;> rfl

/-- The written segments are found again between the joiners. -/
theorem splitOn_intercalate_of_writes {family : Family} {leadingZeros : Bool}
    {segments : List Nat} {parts : List (List Char)} (hne : segments ≠ [])
    (h : List.Forall₂ (SegmentForm.of family leadingZeros).Writes segments parts) :
    ([family.joiner].intercalate parts).splitOn family.joiner = parts := by
  have hparts : parts ≠ [] := by
    intro hnil
    subst hnil
    exact hne (List.forall₂_nil_right_iff.mp h)
  apply List.splitOn_intercalate family.joiner _ hparts
  exact forall_mem_of_forall₂ h.flip fun part segment hpart hmem =>
    SegmentForm.Writes.hexDigit?_ne_none hpart _ hmem family.hexDigit?_joiner

/-- A text is a written form of one row of segments at most. -/
theorem WritesSegments.unique {family : Family} {leadingZeros : Bool} {first second : List Nat}
    {text : List Char} (hlength : first.length = second.length)
    (hfirst : ∀ v ∈ first, v ≤ family.segmentMax) (hsecond : ∀ v ∈ second, v ≤ family.segmentMax)
    (hone : family.WritesSegments leadingZeros first text)
    (hother : family.WritesSegments leadingZeros second text) : first = second := by
  by_cases hne : first = []
  · subst hne
    exact (List.length_eq_zero_iff.mp hlength.symm).symm
  obtain ⟨parts, rfl, hparts⟩ := hone
  obtain ⟨others, heq, hothers⟩ := hother
  have hne' : second ≠ [] := by
    intro hnil
    subst hnil
    exact hne (List.length_eq_zero_iff.mp hlength)
  have hsame : parts = others := by
    rw [← splitOn_intercalate_of_writes hne hparts, heq,
      splitOn_intercalate_of_writes hne' hothers]
  subst hsame
  rw [segmentMax_eq_top family leadingZeros] at hfirst hsecond
  clear heq hlength hne hne'
  -- Both rows of segments are written by the same pieces, one after the other.
  induction hparts generalizing second with
  | nil => exact (List.forall₂_nil_right_iff.mp hothers).symm
  | cons hpart _ ih =>
      cases hothers with
      | cons hpart' hothers =>
          obtain ⟨hv, hfirst⟩ := List.forall_mem_cons.mp hfirst
          obtain ⟨hw, hsecond⟩ := List.forall_mem_cons.mp hsecond
          rw [hpart.unique hv hw hpart', ih hfirst hsecond hothers]

end Family

end NetPattern
