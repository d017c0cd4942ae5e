import NetPattern.Proofs.Program

/-!
# What a search reports

A search reports the pieces that a program prefers, from left to right, and goes on behind each of
them. So what is reported does not overlap, and no place where something could be taken is left
out. A piece that stands apart in its text holds the whole of every report that overlaps it.
-/

namespace NetPattern

/-! ### Parts of a text -/

@[simp] theorem byteLength_append (first second : List Char) :
    byteLength (first ++ second) = byteLength first + byteLength second := by
  induction first with
  | nil => exact (Nat.zero_add _).symm
  | cons c first ih => rw [List.cons_append, byteLength, byteLength, ih, Nat.add_assoc]

theorem byteLength_pos {text : List Char} (hne : text ≠ []) : 0 < byteLength text := by
  obtain ⟨c, rest, rfl⟩ := List.exists_cons_of_ne_nil hne
  exact Nat.add_pos_left c.utf8Size_pos _

theorem byteLength_eq_length {text : List Char} (h : ∀ c ∈ text, c.utf8Size = 1) :
    byteLength text = text.length := by
  induction text with
  | nil => rfl
  | cons c rest ih =>
      obtain ⟨hc, hrest⟩ := List.forall_mem_cons.mp h
      rw [byteLength, hc, ih hrest, List.length_cons, Nat.add_comm]

namespace Span

/-- The part of a text that a piece takes up behind what is before it. -/
def behind (before piece : List Char) : Span :=
  ⟨byteLength before, byteLength (before ++ piece)⟩

/-- Whether two parts of a text have some character in common. -/
def Overlaps (first second : Span) : Prop :=
  first.start < second.stop ∧ second.start < first.stop

instance (first second : Span) : Decidable (first.Overlaps second) :=
  inferInstanceAs (Decidable (_ ∧ _))

/-- Whether a part of a text ends before another one starts. -/
def Precedes (first second : Span) : Prop :=
  first.stop ≤ second.start

theorem behind_overlaps_iff {before piece before' piece' : List Char} :
    (behind before piece).Overlaps (behind before' piece') ↔
      byteLength before < byteLength before' + byteLength piece' ∧
        byteLength before' < byteLength before + byteLength piece := by
  simp only [Overlaps, behind, byteLength_append]

end Span

/-! ### A search as a run -/

namespace Program

variable {program : Program}

/-- Whether a piece takes up some characters and is what the program prefers to take where the piece
stands before the given text. -/
structure Prefers (program : Program) (piece after : List Char) : Prop where
  ne_nil : piece ≠ []
  head?_eq : (program.body.remainders program.ignoreCase (piece ++ after)).head? = some after

theorem matchLength?_eq_some_iff (hvalid : program.body.valid = true) {text : List Char}
    {length : Nat} :
    program.matchLength? text = some length ↔
      ∃ piece after, text = piece ++ after ∧ piece.length = length ∧
        (program.body.remainders program.ignoreCase text).head? = some after := by
  rw [matchLength?, Option.map_eq_some_iff]
  constructor
  · intro h
    obtain ⟨after, hhead, rfl⟩ := h
    obtain ⟨piece, rfl, -⟩ := (program.body.mem_remainders_iff program.ignoreCase hvalid text
      after).mp (List.mem_of_head? hhead)
    exact ⟨piece, after, rfl, by simp, hhead⟩
  · intro h
    obtain ⟨piece, after, rfl, rfl, hhead⟩ := h
    exact ⟨after, hhead, by simp⟩

theorem Prefers.takes (hvalid : program.body.valid = true) {piece after : List Char}
    (h : program.Prefers piece after) : program.body.Takes program.ignoreCase piece := by
  obtain ⟨other, heq, htakes⟩ := (program.body.mem_remainders_iff program.ignoreCase hvalid _
    after).mp (List.mem_of_head? h.head?_eq)
  rwa [List.append_cancel_right heq]

/-- Where something can be taken, something is preferred. -/
theorem exists_prefers (hvalid : program.body.valid = true)
    (hnil : ¬ program.body.Takes program.ignoreCase []) {piece : List Char}
    (htakes : program.body.Takes program.ignoreCase piece) (after : List Char) :
    ∃ other rest, piece ++ after = other ++ rest ∧ program.Prefers other rest := by
  have hmem : after ∈ program.body.remainders program.ignoreCase (piece ++ after) :=
    (program.body.mem_remainders_iff program.ignoreCase hvalid _ after).mpr ⟨piece, rfl, htakes⟩
  obtain ⟨rest, hhead⟩ := Option.ne_none_iff_exists'.mp fun hnone =>
    List.ne_nil_of_mem hmem (List.head?_eq_none_iff.mp hnone)
  obtain ⟨other, heq, hother⟩ := (program.body.mem_remainders_iff program.ignoreCase hvalid _
    rest).mp (List.mem_of_head? hhead)
  refine ⟨other, rest, heq, ?_, heq ▸ hhead⟩
  intro hempty
  exact hnil (hempty ▸ hother)

/-- The run of a search over a text behind what it has read: at each place the preferred piece is
reported and passed over, or, where there is none, a single character. -/
inductive Scan (program : Program) : (read text : List Char) → List Span → Prop
  | done (read : List Char) : Scan program read [] []
  | found {read piece after : List Char} {spans : List Span}
      (hprefers : program.Prefers piece after) (hrest : Scan program (read ++ piece) after spans) :
      Scan program read (piece ++ after) (.behind read piece :: spans)
  | passed {read rest : List Char} {c : Char} {spans : List Span}
      (hnone : ∀ piece after, c :: rest = piece ++ after → ¬ program.Prefers piece after)
      (hrest : Scan program (read ++ [c]) rest spans) : Scan program read (c :: rest) spans

theorem spansFrom_skip (program : Program) (offset : Nat) (piece after : List Char) :
    program.spansFrom offset piece.length (piece ++ after) =
      program.spansFrom (offset + byteLength piece) 0 after := by
  induction piece generalizing offset with
  | nil => rfl
  | cons c piece ih =>
      rw [List.length_cons, List.cons_append, spansFrom, ih, byteLength, Nat.add_assoc]

theorem spansFrom_found (hvalid : program.body.valid = true) {read piece after : List Char}
    (hprefers : program.Prefers piece after) :
    program.spansFrom (byteLength read) 0 (piece ++ after) =
      .behind read piece :: program.spansFrom (byteLength (read ++ piece)) 0 after := by
  have hmatch := (matchLength?_eq_some_iff hvalid).mpr ⟨piece, after, rfl, rfl, hprefers.head?_eq⟩
  obtain ⟨c, tail, rfl⟩ := List.exists_cons_of_ne_nil hprefers.ne_nil
  rw [List.length_cons, List.cons_append] at hmatch
  have htake : (c :: (tail ++ after)).take (tail.length + 1) = c :: tail := by simp
  rw [List.cons_append, spansFrom]
  simp only [hmatch]
  rw [htake, spansFrom_skip, Span.behind, byteLength_append, byteLength, Nat.add_assoc]

theorem spansFrom_passed (hvalid : program.body.valid = true) {read rest : List Char} {c : Char}
    (hnone : ∀ piece after, c :: rest = piece ++ after → ¬ program.Prefers piece after) :
    program.spansFrom (byteLength read) 0 (c :: rest) =
      program.spansFrom (byteLength (read ++ [c])) 0 rest := by
  have hread : byteLength read + c.utf8Size = byteLength (read ++ [c]) := by simp [byteLength]
  rw [spansFrom, hread]
  split
  next more hmatch =>
    obtain ⟨piece, after, heq, hpiece, hhead⟩ := (matchLength?_eq_some_iff hvalid).mp hmatch
    exact absurd ⟨List.ne_nil_of_length_eq_add_one hpiece, heq ▸ hhead⟩ (hnone piece after heq)
  next => rfl

theorem scan_spansFrom (hvalid : program.body.valid = true) (read text : List Char) :
    program.Scan read text (program.spansFrom (byteLength read) 0 text) := by
  induction hlength : text.length using Nat.strongRecOn generalizing read text with
  | ind length ih =>
      by_cases hfound : ∃ piece after, text = piece ++ after ∧ program.Prefers piece after
      · obtain ⟨piece, after, rfl, hprefers⟩ := hfound
        have hpos := List.length_pos_of_ne_nil hprefers.ne_nil
        rw [List.length_append] at hlength
        rw [spansFrom_found hvalid hprefers]
        exact .found hprefers (ih after.length (by omega) _ _ rfl)
      · have hnone : ∀ piece after, text = piece ++ after → ¬ program.Prefers piece after :=
          fun piece after heq hprefers => hfound ⟨piece, after, heq, hprefers⟩
        cases text with
        | nil =>
            rw [spansFrom]
            exact .done read
        | cons c rest =>
            rw [spansFrom_passed hvalid hnone]
            exact .passed hnone (ih rest.length (hlength ▸ Nat.lt_succ_self _) _ _ rfl)

/-- Without anchors the spans of a text are those of a run over it. -/
theorem scan_spans (hvalid : program.body.valid = true) (hanchored : program.anchored = false)
    (text : List Char) : program.Scan [] text (program.spans text) := by
  rw [spans, if_neg (by simp [hanchored])]
  exact scan_spansFrom hvalid [] text

namespace Scan

variable {read text : List Char} {spans : List Span}

/-- What is reported is a preferred piece at its place. -/
theorem exists_prefers_of_mem (h : program.Scan read text spans) {span : Span}
    (hspan : span ∈ spans) :
    ∃ before piece after, text = before ++ (piece ++ after) ∧ program.Prefers piece after ∧
      span = .behind (read ++ before) piece := by
  induction h with
  | done read => exact nomatch hspan
  | @found read piece after spans hprefers _ ih =>
      rcases List.mem_cons.mp hspan with rfl | hspan
      · exact ⟨[], piece, after, rfl, hprefers, by rw [List.append_nil]⟩
      · obtain ⟨before, other, rest, rfl, hother, rfl⟩ := ih hspan
        exact ⟨piece ++ before, other, rest, by simp, hother, by rw [List.append_assoc]⟩
  | @passed read rest c spans _ _ ih =>
      obtain ⟨before, piece, after, rfl, hprefers, rfl⟩ := ih hspan
      exact ⟨c :: before, piece, after, rfl, hprefers, by simp⟩

/-- The spans of a run end one before the next. -/
theorem pairwise_precedes (h : program.Scan read text spans) : spans.Pairwise Span.Precedes := by
  induction h with
  | done read => exact .nil
  | @found read piece after spans _ hrest ih =>
      refine List.pairwise_cons.mpr ⟨fun span hspan => ?_, ih⟩
      obtain ⟨before, other, rest, -, -, rfl⟩ := hrest.exists_prefers_of_mem hspan
      simp only [Span.Precedes, Span.behind, byteLength_append]
      omega
  | passed _ _ ih => exact ih

/-- No place where something is preferred is left out. -/
theorem exists_mem_covers (h : program.Scan read text spans) {before piece after : List Char}
    (htext : text = before ++ (piece ++ after)) (hprefers : program.Prefers piece after) :
    ∃ span ∈ spans, span.start ≤ byteLength (read ++ before) ∧
      byteLength (read ++ before) < span.stop := by
  induction h generalizing before with
  | done read =>
      have hpiece := (List.append_eq_nil_iff.mp (List.append_eq_nil_iff.mp htext.symm).2).1
      exact absurd hpiece hprefers.ne_nil
  | @found read first rest spans _ _ ih =>
      -- The place is behind the piece that is found first, or within it.
      rcases List.append_eq_append_iff.mp htext with ⟨more, rfl, hrest⟩ | ⟨more, rfl, hrest⟩
      · obtain ⟨span, hspan, hcovers⟩ := ih hrest
        rw [List.append_assoc] at hcovers
        exact ⟨span, List.mem_cons_of_mem _ hspan, hcovers⟩
      · by_cases hmore : more = []
        · subst hmore
          obtain ⟨span, hspan, hcovers⟩ := @ih [] hrest.symm
          rw [List.append_nil, List.append_nil] at hcovers
          exact ⟨span, List.mem_cons_of_mem _ hspan, hcovers⟩
        · have hpos := byteLength_pos hmore
          refine ⟨_, List.mem_cons_self, ?_⟩
          simp only [Span.behind, byteLength_append]
          omega
  | @passed read rest c spans hnone _ ih =>
      cases before with
      | nil => exact absurd hprefers (hnone piece after htext)
      | cons d before =>
          obtain ⟨rfl, hrest⟩ := List.cons.inj htext
          obtain ⟨span, hspan, hcovers⟩ := ih hrest
          rw [List.append_assoc] at hcovers
          exact ⟨span, hspan, hcovers⟩

end Scan

end Program

/-! ### Pieces that stand apart -/

/-- Whether neither what is before a piece ends nor what is behind it starts with a character of
some kind. -/
structure StandsApart (kind : Char → Bool) (before after : List Char) : Prop where
  getLast?_not : ∀ c ∈ before.getLast?, kind c = false
  head?_not : ∀ c ∈ after.head?, kind c = false

instance (kind : Char → Bool) (before after : List Char) :
    Decidable (StandsApart kind before after) :=
  decidable_of_iff (before.getLast?.any kind = false ∧ after.head?.any kind = false)
    ⟨fun h => ⟨(Option.any_eq_false _ _).mp h.1, (Option.any_eq_false _ _).mp h.2⟩,
      fun h => ⟨(Option.any_eq_false _ _).mpr h.1, (Option.any_eq_false _ _).mpr h.2⟩⟩

namespace StandsApart

variable {kind : Char → Bool} {before after : List Char} (hapart : StandsApart kind before after)

include hapart

/-- What reaches behind the place where a piece that stands apart starts does not start before
it. -/
theorem exists_front {rest before' piece' after' : List Char}
    (htext : before ++ rest = before' ++ (piece' ++ after')) (hkind : ∀ c ∈ piece', kind c = true)
    (hreach : byteLength before < byteLength (before' ++ piece')) :
    ∃ front, before' = before ++ front := by
  rcases List.append_eq_append_iff.mp htext with ⟨front, hfront, -⟩ | ⟨more, rfl, hrest⟩
  · exact ⟨front, hfront⟩
  · rcases List.eq_nil_or_concat more with rfl | ⟨more, c, rfl⟩
    · exact ⟨[], by simp⟩
    · have hc : c ∈ piece' := by
        rcases List.append_eq_append_iff.mp hrest with ⟨short, hshort, -⟩ | ⟨inner, rfl, -⟩
        · rw [hshort] at hreach
          simp only [byteLength_append] at hreach
          omega
        · simp
      have hnot := hapart.getLast?_not c (by simp)
      rw [hkind c hc] at hnot
      exact Bool.noConfusion hnot

/-- What starts before the place where a piece that stands apart ends does not end behind it. -/
theorem exists_back {piece front piece' after' : List Char}
    (htext : piece ++ after = front ++ (piece' ++ after')) (hkind : ∀ c ∈ piece', kind c = true)
    (hreach : byteLength front < byteLength piece) :
    ∃ back, piece = front ++ (piece' ++ back) ∧ after' = back ++ after := by
  rw [← List.append_assoc] at htext
  rcases List.append_eq_append_iff.mp htext with ⟨beyond, heq, rfl⟩ | ⟨back, rfl, rfl⟩
  · cases beyond with
    | nil => exact ⟨[], by simpa using heq.symm, rfl⟩
    | cons c beyond =>
        have hc : c ∈ piece' := by
          rcases List.append_eq_append_iff.mp heq with ⟨inner, -, rfl⟩ | ⟨short, rfl, -⟩
          · simp
          · rw [byteLength_append] at hreach
            omega
        have hnot := hapart.head?_not c rfl
        rw [hkind c hc] at hnot
        exact Bool.noConfusion hnot
  · exact ⟨back, List.append_assoc _ _ _, rfl⟩

/-- A piece of characters of some kind that overlaps one that stands apart from them lies in it. -/
theorem exists_of_overlaps {piece before' piece' after' : List Char}
    (htext : before ++ (piece ++ after) = before' ++ (piece' ++ after'))
    (hkind : ∀ c ∈ piece', kind c = true)
    (hoverlaps : (Span.behind before' piece').Overlaps (.behind before piece)) :
    ∃ front back, before' = before ++ front ∧ piece = front ++ (piece' ++ back) ∧
      after' = back ++ after := by
  obtain ⟨hstart, hstop⟩ := hoverlaps
  obtain ⟨front, rfl⟩ := hapart.exists_front htext hkind hstop
  rw [List.append_assoc, List.append_cancel_left_eq] at htext
  simp only [Span.behind, byteLength_append] at hstart
  obtain ⟨back, hpiece, hafter⟩ := hapart.exists_back htext hkind (by omega)
  exact ⟨front, back, rfl, hpiece, hafter⟩

end StandsApart

namespace Program

/-- A program without anchors that takes the texts of a language, none of which is empty. -/
structure Searches (program : Program) (language : List Char → Prop) : Prop where
  valid : program.body.valid = true
  anchored_eq : program.anchored = false
  takes_iff : ∀ text, program.body.Takes program.ignoreCase text ↔ language text
  ne_nil : ∀ {text}, language text → text ≠ []

namespace Searches

variable {program : Program} {language : List Char → Prop} (h : program.Searches language)

include h

/-- Left factoring changes what is preferred, but not what is searched for. -/
theorem leftFactor : program.leftFactor.Searches language where
  valid := Regex.leftFactor_valid h.valid
  anchored_eq := h.anchored_eq
  takes_iff text := (Regex.leftFactor_takes program.ignoreCase program.body text).trans
    (h.takes_iff text)
  ne_nil := h.ne_nil

theorem isMatch_iff (text : List Char) :
    program.isMatch text = true ↔ ∃ piece, piece <:+: text ∧ language piece := by
  rw [Program.isMatch_iff h.valid, Occurs, h.anchored_eq, if_neg Bool.false_ne_true]
  simp only [h.takes_iff]

theorem language_of_prefers {piece after : List Char} (hprefers : program.Prefers piece after) :
    language piece :=
  (h.takes_iff piece).mp (hprefers.takes h.valid)

theorem pairwise_precedes (text : List Char) : (program.spans text).Pairwise Span.Precedes :=
  (scan_spans h.valid h.anchored_eq text).pairwise_precedes

theorem exists_of_mem_spans {text : List Char} {span : Span} (hspan : span ∈ program.spans text) :
    ∃ before piece after, text = before ++ (piece ++ after) ∧ program.Prefers piece after ∧
      span = .behind before piece :=
  (scan_spans h.valid h.anchored_eq text).exists_prefers_of_mem hspan

/-- Where a text of the language starts, a span starts or has not ended yet. -/
theorem exists_mem_covers {piece : List Char} (hpiece : language piece)
    (before after : List Char) :
    ∃ span ∈ program.spans (before ++ (piece ++ after)),
      span.start ≤ byteLength before ∧ byteLength before < span.stop := by
  have hnil : ¬ program.body.Takes program.ignoreCase [] :=
    fun htakes => h.ne_nil ((h.takes_iff []).mp htakes) rfl
  obtain ⟨other, rest, heq, hprefers⟩ :=
    exists_prefers h.valid hnil ((h.takes_iff piece).mpr hpiece) after
  rw [heq]
  exact (scan_spans h.valid h.anchored_eq _).exists_mem_covers rfl hprefers

/-- A text of the language overlaps a span wherever it occurs. -/
theorem exists_overlaps {piece : List Char} (hpiece : language piece)
    (before after : List Char) :
    ∃ span ∈ program.spans (before ++ (piece ++ after)), span.Overlaps (.behind before piece) := by
  obtain ⟨span, hspan, hstart, hstop⟩ := h.exists_mem_covers hpiece before after
  have hpos := byteLength_pos (h.ne_nil hpiece)
  refine ⟨span, hspan, ?_, hstop⟩
  simp only [Span.behind, byteLength_append]
  omega

section StandsApart

variable {kind : Char → Bool} (hkind : ∀ text, language text → ∀ c ∈ text, kind c = true)
  {before piece after : List Char} (hapart : StandsApart kind before after)

include hkind hapart

/-- A span that overlaps a piece that stands apart is that of a part of the piece. -/
theorem exists_part {span : Span} (hspan : span ∈ program.spans (before ++ (piece ++ after)))
    (hoverlaps : span.Overlaps (.behind before piece)) :
    ∃ front inner back, piece = front ++ (inner ++ back) ∧ program.Prefers inner (back ++ after) ∧
      span = .behind (before ++ front) inner := by
  obtain ⟨before', inner, after', htext, hprefers, rfl⟩ := h.exists_of_mem_spans hspan
  obtain ⟨front, back, rfl, rfl, rfl⟩ :=
    hapart.exists_of_overlaps htext (hkind inner (h.language_of_prefers hprefers)) hoverlaps
  exact ⟨front, inner, back, rfl, hprefers, rfl⟩

/-- A span overlaps a piece that stands apart exactly if part of the piece is in the language. -/
theorem exists_overlaps_iff :
    (∃ span ∈ program.spans (before ++ (piece ++ after)), span.Overlaps (.behind before piece)) ↔
      ∃ front inner back, piece = front ++ (inner ++ back) ∧ language inner := by
  constructor
  · intro hspans
    obtain ⟨span, hspan, hoverlaps⟩ := hspans
    obtain ⟨front, inner, back, heq, hprefers, -⟩ := h.exists_part hkind hapart hspan hoverlaps
    exact ⟨front, inner, back, heq, h.language_of_prefers hprefers⟩
  · intro hpart
    obtain ⟨front, inner, back, rfl, hinner⟩ := hpart
    obtain ⟨span, hspan, hoverlaps⟩ :=
      h.exists_overlaps hinner (before ++ front) (back ++ after)
    refine ⟨span, by simpa using hspan, ?_⟩
    simp only [Span.Overlaps, Span.behind, byteLength_append] at hoverlaps ⊢
    omega

/-- Where a text of the language stands apart, a span starts with it and ends no later. -/
theorem exists_prefix_mem_spans (hpiece : language piece) :
    ∃ taken back, piece = taken ++ back ∧ program.Prefers taken (back ++ after) ∧
      Span.behind before taken ∈ program.spans (before ++ (piece ++ after)) := by
  obtain ⟨span, hspan, hstart, hstop⟩ := h.exists_mem_covers hpiece before after
  have hpos := byteLength_pos (h.ne_nil hpiece)
  have hoverlaps : span.Overlaps (.behind before piece) := by
    refine ⟨?_, hstop⟩
    simp only [Span.behind, byteLength_append]
    omega
  obtain ⟨front, taken, back, heq, hprefers, rfl⟩ := h.exists_part hkind hapart hspan hoverlaps
  have hfront : front = [] := by
    by_contra hne
    have := byteLength_pos hne
    simp only [Span.behind, byteLength_append] at hstart
    omega
  subst hfront
  rw [List.append_nil] at hspan
  exact ⟨taken, back, heq, hprefers, hspan⟩

/-- A piece that stands apart and has no other text of the language in it is reported as it is or
overlaps no span. -/
theorem behind_mem_spans_iff
    (hwhole : ∀ front inner back, piece = front ++ (inner ++ back) → language inner →
      front = [] ∧ back = []) :
    (Span.behind before piece ∈ program.spans (before ++ (piece ++ after)) ↔ language piece) ∧
      (¬ language piece →
        ∀ span ∈ program.spans (before ++ (piece ++ after)),
          ¬ span.Overlaps (.behind before piece)) := by
  have hoverlapped : ∀ span ∈ program.spans (before ++ (piece ++ after)),
      span.Overlaps (.behind before piece) → language piece := by
    intro span hspan hoverlaps
    obtain ⟨front, inner, back, heq, hinner⟩ :=
      (h.exists_overlaps_iff hkind hapart).mp ⟨span, hspan, hoverlaps⟩
    obtain ⟨rfl, rfl⟩ := hwhole front inner back heq hinner
    rwa [heq, List.nil_append, List.append_nil]
  refine ⟨⟨fun hspan => ?_, fun hpiece => ?_⟩, fun hnot span hspan hoverlaps =>
    hnot (hoverlapped span hspan hoverlaps)⟩
  · obtain ⟨before', inner, after', -, hprefers, heq⟩ := h.exists_of_mem_spans hspan
    have hinner := byteLength_pos hprefers.ne_nil
    apply hoverlapped _ hspan
    rw [heq, Span.behind_overlaps_iff]
    omega
  · obtain ⟨taken, back, rfl, hprefers, hspan⟩ := h.exists_prefix_mem_spans hkind hapart hpiece
    obtain ⟨-, rfl⟩ := hwhole [] taken back rfl (h.language_of_prefers hprefers)
    rwa [List.append_nil] at hspan ⊢

end StandsApart

end Searches

end Program

end NetPattern
