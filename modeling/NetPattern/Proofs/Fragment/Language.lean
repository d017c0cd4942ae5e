import NetPattern.Proofs.Distinct
import NetPattern.Proofs.Fragment.Scan
import NetPattern.Regex.RoundTrip

/-!
# The texts that fragments take

A fragment that can stand in a row is the text of a valid expression without a bar outside its
groups. Such fragments can be put side by side and united, and what the result takes is told by
what its parts take.
-/

namespace NetPattern

namespace Regex

theorem takes_iff_firstTakes (ignoreCase : Bool) {regex : Regex} (h : regex.isSingle = true)
    (text : List Char) : regex.Takes ignoreCase text ↔ regex.FirstTakes ignoreCase text := by
  have hother := (takes_append ignoreCase h done text).2
  rw [append_done] at hother
  exact ⟨fun htakes => htakes.resolve_right fun h => hother.mp h, .inl⟩

/-- What is inside an expression that is a single group, and otherwise the expression itself. -/
def content : Regex → Regex
  | group inner .once done => inner
  | regex => regex

theorem content_eq_or (regex : Regex) :
    (∃ inner, regex = group inner .once done ∧ regex.content = inner) ∨
      (∀ inner, regex ≠ group inner .once done) ∧ regex.content = regex := by
  by_cases h : ∃ inner, regex = group inner .once done
  · obtain ⟨inner, rfl⟩ := h
    exact .inl ⟨inner, rfl, rfl⟩
  · refine .inr ⟨fun inner heq => h ⟨inner, heq⟩, ?_⟩
    unfold content
    split
    next inner => exact absurd ⟨inner, rfl⟩ h
    · rfl

theorem All.content {p : Symbol → Prop} {q g : Quantifier → Prop} {regex : Regex}
    (hall : regex.All p q g) : regex.content.All p q g := by
  rcases regex.content_eq_or with ⟨inner, rfl, hcontent⟩ | ⟨-, hcontent⟩
  · rw [hcontent]
    exact hall.1
  · rwa [hcontent]

theorem content_valid {regex : Regex} (hvalid : regex.valid = true) :
    regex.content.valid = true :=
  valid_iff_all.mpr (valid_iff_all.mp hvalid).content

theorem content_takes (ignoreCase : Bool) (regex : Regex) (text : List Char) :
    regex.content.Takes ignoreCase text ↔ regex.Takes ignoreCase text := by
  rcases regex.content_eq_or with ⟨inner, rfl, hcontent⟩ | ⟨-, hcontent⟩
  · have hgroup : (group inner .once done).isSingle = true := rfl
    rw [hcontent, takes_iff_firstTakes ignoreCase hgroup, group_once_takes]
  · rw [hcontent]

/-- The distinct alternatives of several expressions, those inside a single group included. -/
def pieces (parts : List Regex) : List Regex :=
  (parts.flatMap fun part => part.content.alternatives).eraseDups

theorem mem_pieces {parts : List Regex} {piece : Regex} :
    piece ∈ pieces parts ↔ ∃ part ∈ parts, piece ∈ part.content.alternatives := by
  rw [pieces, List.mem_eraseDups, List.mem_flatMap]

theorem pieces_isSingle (parts : List Regex) :
    ∀ piece ∈ pieces parts, piece.isSingle = true := by
  intro piece hpiece
  obtain ⟨part, -, hmem⟩ := mem_pieces.mp hpiece
  exact isSingle_of_mem_alternatives hmem

theorem pieces_all {p : Symbol → Prop} {q g : Quantifier → Prop} {parts : List Regex}
    (hall : ∀ part ∈ parts, part.All p q g) : ∀ piece ∈ pieces parts, piece.All p q g := by
  intro piece hpiece
  obtain ⟨part, hpart, hmem⟩ := mem_pieces.mp hpiece
  exact (hall part hpart).content.of_mem_alternatives hmem

theorem pieces_valid {parts : List Regex} (hvalid : ∀ part ∈ parts, part.valid = true) :
    ∀ piece ∈ pieces parts, piece.valid = true := by
  simp only [valid_iff_all] at hvalid ⊢
  exact pieces_all hvalid

/-- One expression for several, flat where they are groups. -/
def union (parts : List Regex) : Regex :=
  match pieces parts with
  | [] => done
  | [single] => single
  | first :: second :: others => group (ofAlternatives (first :: second :: others)) .once done

theorem union_isSingle (parts : List Regex) : (union parts).isSingle = true := by
  have hpieces := pieces_isSingle parts
  unfold union
  split
  · rfl
  next single heq => exact hpieces single (heq ▸ List.mem_cons_self)
  · rfl

/-- The union of some expressions has their items, and a group without a quantifier at most. -/
theorem union_all {p : Symbol → Prop} {q g : Quantifier → Prop} (honce : g .once)
    {parts : List Regex} (hall : ∀ part ∈ parts, part.All p q g) : (union parts).All p q g := by
  have hpieces := pieces_all hall
  unfold union
  split
  · trivial
  next single heq => exact hpieces single (heq ▸ List.mem_cons_self)
  next first second others heq => exact ⟨All.ofAlternatives (heq ▸ hpieces), honce, trivial⟩

theorem union_valid {parts : List Regex} (hvalid : ∀ part ∈ parts, part.valid = true) :
    (union parts).valid = true := by
  simp only [valid_iff_all] at hvalid ⊢
  exact union_all (g := (·.valid = true)) rfl hvalid

/-- A union takes what one of its parts takes. -/
theorem union_takes (ignoreCase : Bool) {parts : List Regex} (hne : parts ≠ [])
    (text : List Char) :
    (union parts).Takes ignoreCase text ↔ ∃ part ∈ parts, part.Takes ignoreCase text := by
  have hpieces : (∃ piece ∈ pieces parts, piece.FirstTakes ignoreCase text) ↔
      ∃ part ∈ parts, part.Takes ignoreCase text := by
    constructor
    · intro h
      obtain ⟨piece, hpiece, htakes⟩ := h
      obtain ⟨part, hpart, hmem⟩ := mem_pieces.mp hpiece
      refine ⟨part, hpart, (content_takes ignoreCase part text).mp ?_⟩
      exact (takes_iff_exists_alternative ignoreCase _ text).mpr ⟨piece, hmem, htakes⟩
    · intro h
      obtain ⟨part, hpart, htakes⟩ := h
      obtain ⟨piece, hmem, hpiece⟩ := (takes_iff_exists_alternative ignoreCase _ text).mp
        ((content_takes ignoreCase part text).mpr htakes)
      exact ⟨piece, mem_pieces.mpr ⟨part, hpart, hmem⟩, hpiece⟩
  have hsingle := pieces_isSingle parts
  rw [takes_iff_firstTakes ignoreCase (union_isSingle parts), ← hpieces]
  unfold union
  split
  next heq =>
    -- Every part has an alternative, so there are pieces.
    obtain ⟨part, hpart⟩ := List.exists_mem_of_ne_nil parts hne
    obtain ⟨piece, hpiece⟩ := List.exists_mem_of_ne_nil _ part.content.alternatives_ne_nil
    have hmem := mem_pieces.mpr ⟨part, hpart, hpiece⟩
    rw [heq] at hmem
    exact nomatch hmem
  next single heq => simp [heq]
  next first second others heq =>
    rw [group_once_takes, ofAlternatives_takes ignoreCase (List.cons_ne_nil _ _)
      (heq ▸ hsingle), heq]

/-- The expression of characters that stand for themselves. -/
def literals : List Char → Regex
  | [] => done
  | c :: rest => symbol (.literal c) .once (literals rest)

theorem render_ofAlternatives (alternatives : List Regex) :
    (ofAlternatives alternatives).render = ['|'].intercalate (alternatives.map render) := by
  induction alternatives with
  | nil => rfl
  | cons first others ih =>
      cases others with
      | nil => simp [ofAlternatives]
      | cons second more =>
          rw [ofAlternatives, render_append, render, ih]
          · simp
          · exact List.cons_ne_nil _ _

end Regex

namespace Fragment

theorem getD_ungroup?_render {regex : Regex} (hvalid : regex.valid = true) :
    (ungroup? regex.render).getD regex.render = regex.content.render := by
  rcases regex.content_eq_or with ⟨inner, rfl, hcontent⟩ | ⟨hne, hcontent⟩
  · simp only [Regex.valid, Bool.and_eq_true] at hvalid
    rw [ungroup?_group (Regex.isDelimited_of_valid hvalid.1.1), hcontent]
    rfl
  · rw [ungroup?_eq_none (Regex.isDelimited_of_valid hvalid) hne, hcontent]
    rfl

theorem distinctAlternatives_render {parts : List Regex}
    (hvalid : ∀ part ∈ parts, part.valid = true) :
    distinctAlternatives (parts.map Regex.render) = (Regex.pieces parts).map Regex.render := by
  have htexts : ((parts.map Regex.render).flatMap fun part =>
      alternatives ((ungroup? part).getD part)) =
        (parts.flatMap fun part => part.content.alternatives).map Regex.render := by
    rw [List.flatMap_map, List.map_flatMap]
    apply List.flatMap_congr
    intro part hpart
    rw [getD_ungroup?_render (hvalid part hpart),
      alternatives_render (Regex.isDelimited_of_valid (Regex.content_valid (hvalid part hpart)))]
  -- Texts are equal only where their trees are, so dropping repeats commutes with rendering.
  rw [distinctAlternatives, htexts, Regex.pieces]
  apply eraseDups_map
  intro first hfirst second hsecond heq
  have hmem : ∀ piece ∈ parts.flatMap fun part => part.content.alternatives,
      piece.valid = true := fun piece hpiece =>
    Regex.pieces_valid hvalid piece (List.mem_eraseDups.mpr hpiece)
  exact Regex.render_injective (hmem first hfirst) (hmem second hsecond) heq

theorem group_render (trees : List Regex) :
    group (trees.map Regex.render) =
      (Regex.group (Regex.ofAlternatives trees) .once .done).render := by
  simp [group, Regex.render, Quantifier.render, Regex.render_ofAlternatives]

/-- Uniting texts of valid expressions gives the text of the union of their trees. -/
theorem union_render {parts : List Regex} (hvalid : ∀ part ∈ parts, part.valid = true) :
    union (parts.map Regex.render) = (Regex.union parts).render := by
  rw [union, distinctAlternatives_render hvalid, Regex.union]
  cases Regex.pieces parts with
  | nil => rfl
  | cons first others =>
      cases others with
      | nil => rfl
      | cons second more => exact group_render (first :: second :: more)

/-- Whether a fragment, read as an expression, takes a whole text. -/
def matchesWhole (ignoreCase : Bool) (fragment : Fragment) (text : List Char) : Bool :=
  (Regex.read? fragment).any fun regex => regex.matchesWhole ignoreCase text

theorem matchesWhole_render (ignoreCase : Bool) {regex : Regex} (hvalid : regex.valid = true)
    (text : List Char) :
    matchesWhole ignoreCase regex.render text = true ↔ regex.Takes ignoreCase text := by
  rw [matchesWhole, Regex.read?_render hvalid]
  exact Regex.matchesWhole_iff ignoreCase regex hvalid text

/-- Whether a fragment is the text of a valid expression: literals, escapes, bracket classes and
groups that capture nothing, each with at most one greedy quantifier, and bars. Left out is what no
pattern is written with: escapes of letters and digits, lazy quantifiers and quantifiers behind
quantifiers, the dot for any character, anchors, and groups that capture or set flags. -/
def IsRegular (fragment : Fragment) : Prop :=
  ∃ regex : Regex, regex.valid = true ∧ regex.render = fragment

/-- Whether a fragment can stand in a row: it is the text of a valid expression that has no bar
outside its groups. What `IsRegular` leaves out is left out here too. -/
def IsSingle (fragment : Fragment) : Prop :=
  ∃ regex : Regex, regex.valid = true ∧ regex.isSingle = true ∧ regex.render = fragment

theorem IsSingle.isRegular {fragment : Fragment} (h : fragment.IsSingle) : fragment.IsRegular := by
  obtain ⟨regex, hvalid, -, hrender⟩ := h
  exact ⟨regex, hvalid, hrender⟩

theorem IsSingle.append {first second : Fragment} (hfirst : first.IsSingle)
    (hsecond : second.IsSingle) : IsSingle (first ++ second) := by
  obtain ⟨one, hvalid, hsingle, rfl⟩ := hfirst
  obtain ⟨other, hvalid', hsingle', rfl⟩ := hsecond
  refine ⟨one ++ other, ?_, ?_, Regex.render_append one other⟩
  · rw [Regex.valid_append, hvalid, hvalid']
    rfl
  · rw [Regex.isSingle_append hsingle, hsingle']

/-- Fragments side by side take texts side by side. -/
theorem IsSingle.matchesWhole_append (ignoreCase : Bool) {first second : Fragment}
    (hfirst : first.IsSingle) (hsecond : second.IsSingle) (text : List Char) :
    matchesWhole ignoreCase (first ++ second) text = true ↔
      ∃ piece more, text = piece ++ more ∧ first.matchesWhole ignoreCase piece = true ∧
        second.matchesWhole ignoreCase more = true := by
  obtain ⟨one, hvalid, hsingle, rfl⟩ := hfirst
  obtain ⟨other, hvalid', hsingle', rfl⟩ := hsecond
  have hboth : (one ++ other).valid = true := by
    rw [Regex.valid_append, hvalid, hvalid']
    rfl
  have hsingles : (one ++ other).isSingle = true := by
    rw [Regex.isSingle_append hsingle, hsingle']
  rw [← Regex.render_append, matchesWhole_render ignoreCase hboth,
    Regex.takes_iff_firstTakes ignoreCase hsingles,
    (Regex.takes_append ignoreCase hsingle other text).1]
  simp only [matchesWhole_render ignoreCase hvalid, matchesWhole_render ignoreCase hvalid',
    Regex.takes_iff_firstTakes ignoreCase hsingle, Regex.takes_iff_firstTakes ignoreCase hsingle']

theorem exists_map_eq {α β : Type} {p : α → Prop} {f : α → β} {images : List β}
    (h : ∀ b ∈ images, ∃ a, p a ∧ f a = b) :
    ∃ members : List α, (∀ a ∈ members, p a) ∧ members.map f = images := by
  induction images with
  | nil => exact ⟨[], by simp, rfl⟩
  | cons b images ih =>
      obtain ⟨⟨a, ha, rfl⟩, hrest⟩ := List.forall_mem_cons.mp h
      obtain ⟨members, hmembers, rfl⟩ := ih hrest
      exact ⟨a :: members, List.forall_mem_cons.mpr ⟨ha, hmembers⟩, rfl⟩

/-- The trees of several fragments that can stand in a row. -/
theorem exists_trees {parts : List Fragment} (h : ∀ part ∈ parts, part.IsSingle) :
    ∃ trees : List Regex, (∀ tree ∈ trees, tree.valid = true) ∧
      (∀ tree ∈ trees, tree.isSingle = true) ∧ trees.map Regex.render = parts := by
  have hparts : ∀ part ∈ parts,
      ∃ tree : Regex, (tree.valid = true ∧ tree.isSingle = true) ∧ tree.render = part := by
    intro part hpart
    obtain ⟨tree, hvalid, hsingle, hrender⟩ := h part hpart
    exact ⟨tree, ⟨hvalid, hsingle⟩, hrender⟩
  obtain ⟨trees, htrees, hrender⟩ := exists_map_eq hparts
  exact ⟨trees, fun tree htree => (htrees tree htree).1, fun tree htree => (htrees tree htree).2,
    hrender⟩

/-- A union has no bar outside its groups, whether its parts have any or not. -/
theorem union_isSingle {parts : List Fragment} (h : ∀ part ∈ parts, part.IsRegular) :
    (union parts).IsSingle := by
  obtain ⟨trees, hvalid, rfl⟩ := exists_map_eq h
  exact ⟨Regex.union trees, Regex.union_valid hvalid, Regex.union_isSingle trees,
    (union_render hvalid).symm⟩

/-- The union of some fragments takes what one of them takes. -/
theorem matchesWhole_union (ignoreCase : Bool) {parts : List Fragment} (hne : parts ≠ [])
    (h : ∀ part ∈ parts, part.IsRegular) (text : List Char) :
    matchesWhole ignoreCase (union parts) text = true ↔
      ∃ part ∈ parts, part.matchesWhole ignoreCase text = true := by
  obtain ⟨trees, hvalid, rfl⟩ := exists_map_eq h
  have htrees : trees ≠ [] := fun hnil => hne (hnil ▸ rfl)
  rw [union_render hvalid, matchesWhole_render ignoreCase (Regex.union_valid hvalid),
    Regex.union_takes ignoreCase htrees]
  simp only [List.mem_map, exists_exists_and_eq_and]
  apply exists_congr
  intro tree
  apply and_congr_right
  intro hmem
  exact (matchesWhole_render ignoreCase (hvalid tree hmem) text).symm

theorem group_isSingle {parts : List Fragment} (h : ∀ part ∈ parts, part.IsSingle) :
    (group parts).IsSingle := by
  obtain ⟨trees, hvalid, -, rfl⟩ := exists_trees h
  refine ⟨_, ?_, rfl, (group_render trees).symm⟩
  rw [Regex.valid, Regex.ofAlternatives_valid hvalid]
  rfl

/-- A group takes what one of its alternatives takes. -/
theorem matchesWhole_group (ignoreCase : Bool) {parts : List Fragment} (hne : parts ≠ [])
    (h : ∀ part ∈ parts, part.IsSingle) (text : List Char) :
    matchesWhole ignoreCase (group parts) text = true ↔
      ∃ part ∈ parts, part.matchesWhole ignoreCase text = true := by
  obtain ⟨trees, hvalid, hsingle, rfl⟩ := exists_trees h
  have htrees : trees ≠ [] := fun hnil => hne (hnil ▸ rfl)
  have hgroup : (Regex.group (Regex.ofAlternatives trees) .once .done).valid = true := by
    rw [Regex.valid, Regex.ofAlternatives_valid hvalid]
    rfl
  rw [group_render, matchesWhole_render ignoreCase hgroup,
    Regex.takes_iff_firstTakes ignoreCase rfl, Regex.group_once_takes,
    Regex.ofAlternatives_takes ignoreCase htrees hsingle]
  simp only [List.mem_map, exists_exists_and_eq_and]
  apply exists_congr
  intro tree
  apply and_congr_right
  intro hmem
  rw [matchesWhole_render ignoreCase (hvalid tree hmem),
    Regex.takes_iff_firstTakes ignoreCase (hsingle tree hmem)]

/-- A fragment that can stand in a row and takes exactly the texts of a language. -/
structure Denotes (ignoreCase : Bool) (fragment : Fragment) (language : List Char → Prop) :
    Prop where
  isSingle : fragment.IsSingle
  matches_iff : ∀ text, fragment.matchesWhole ignoreCase text = true ↔ language text

namespace Denotes

variable {ignoreCase : Bool} {first second : Fragment} {one other : List Char → Prop}

theorem congr (h : Denotes ignoreCase first one) (hiff : ∀ text, one text ↔ other text) :
    Denotes ignoreCase first other :=
  ⟨h.isSingle, fun text => (h.matches_iff text).trans (hiff text)⟩

theorem append (hfirst : Denotes ignoreCase first one)
    (hsecond : Denotes ignoreCase second other) :
    Denotes ignoreCase (first ++ second)
      fun text => ∃ piece more, text = piece ++ more ∧ one piece ∧ other more := by
  refine ⟨hfirst.isSingle.append hsecond.isSingle, ?_⟩
  intro text
  rw [hfirst.isSingle.matchesWhole_append ignoreCase hsecond.isSingle]
  simp only [hfirst.matches_iff, hsecond.matches_iff]

/-- A union denotes what one of its parts does. -/
theorem union {ι : Type} {items : List ι} {part : ι → Fragment} {language : ι → List Char → Prop}
    (hne : items ≠ []) (h : ∀ i ∈ items, Denotes ignoreCase (part i) (language i)) :
    Denotes ignoreCase (Fragment.union (items.map part))
      fun text => ∃ i ∈ items, language i text := by
  have hregular : ∀ fragment ∈ items.map part, fragment.IsRegular := by
    intro fragment hmem
    obtain ⟨i, hi, rfl⟩ := List.mem_map.mp hmem
    exact (h i hi).isSingle.isRegular
  refine ⟨union_isSingle hregular, ?_⟩
  intro text
  rw [matchesWhole_union ignoreCase (by simpa using hne) hregular]
  simp only [List.mem_map, exists_exists_and_eq_and]
  apply exists_congr
  intro i
  exact and_congr_right fun hi => (h i hi).matches_iff text

end Denotes

theorem denotes_render (ignoreCase : Bool) {regex : Regex} (hvalid : regex.valid = true)
    (hsingle : regex.isSingle = true) :
    Denotes ignoreCase regex.render (regex.FirstTakes ignoreCase) := by
  refine ⟨⟨regex, hvalid, hsingle, rfl⟩, ?_⟩
  intro text
  rw [matchesWhole_render ignoreCase hvalid, Regex.takes_iff_firstTakes ignoreCase hsingle]

theorem denotes_nil (ignoreCase : Bool) : Denotes ignoreCase [] fun text => text = [] :=
  denotes_render ignoreCase (by rfl : Regex.done.valid = true) rfl

theorem repeats_singleton_iff {p : Char → Prop} {count : Nat} {text : List Char} :
    Repeats (fun single => ∃ c, single = [c] ∧ p c) count text ↔
      text.length = count ∧ ∀ c ∈ text, p c := by
  induction count generalizing text with
  | zero =>
      rw [Repeats, List.length_eq_zero_iff]
      exact ⟨fun h => ⟨h, by simp [h]⟩, And.left⟩
  | succ count ih =>
      rw [Repeats]
      constructor
      · intro h
        obtain ⟨_, rest, rfl, ⟨c, rfl, hc⟩, hrest⟩ := h
        obtain ⟨hlength, hall⟩ := ih.mp hrest
        exact ⟨by simp [hlength], List.forall_mem_cons.mpr ⟨hc, hall⟩⟩
      · intro h
        obtain ⟨hlength, hall⟩ := h
        obtain ⟨c, rest, rfl⟩ := List.exists_cons_of_length_eq_add_one hlength
        obtain ⟨hc, hrest⟩ := List.forall_mem_cons.mp hall
        exact ⟨[c], rest, rfl, ⟨c, rfl, hc⟩, ih.mpr ⟨by simpa using hlength, hrest⟩⟩

/-- A symbol with a quantifier denotes as many characters as the quantifier allows, all of which
the symbol accepts. -/
theorem denotes_repeated (ignoreCase : Bool) {s : Symbol} {quantifier : Quantifier}
    (hs : s.valid = true) (hquantifier : quantifier.valid = true) :
    Denotes ignoreCase (s.render ++ quantifier.render) fun text =>
      quantifier.least ≤ text.length ∧
        (∀ most, quantifier.most? = some most → text.length ≤ most) ∧
        ∀ c ∈ text, s.accepts ignoreCase c = true := by
  have hvalid : (Regex.symbol s quantifier .done).valid = true := by
    simp [Regex.valid, hs, hquantifier]
  have h := denotes_render ignoreCase hvalid rfl
  rw [Regex.render, Regex.render, List.append_nil] at h
  apply h.congr
  intro text
  rw [Regex.FirstTakes]
  constructor
  · intro htakes
    obtain ⟨piece, _, rfl, ⟨count, hleast, hmost, hpiece⟩, rfl⟩ := htakes
    obtain ⟨rfl, haccepts⟩ := repeats_singleton_iff.mp hpiece
    rw [List.append_nil]
    exact ⟨hleast, hmost, haccepts⟩
  · intro hall
    obtain ⟨hleast, hmost, haccepts⟩ := hall
    exact ⟨text, [], by simp,
      ⟨text.length, hleast, hmost, repeats_singleton_iff.mpr ⟨rfl, haccepts⟩⟩, rfl⟩

theorem denotes_symbol (ignoreCase : Bool) {s : Symbol} (hs : s.valid = true) :
    Denotes ignoreCase s.render fun text => ∃ c, text = [c] ∧ s.accepts ignoreCase c = true := by
  have h := denotes_repeated ignoreCase hs (by rfl : Quantifier.once.valid = true)
  rw [Quantifier.render, List.append_nil] at h
  apply h.congr
  intro text
  constructor
  · intro hall
    obtain ⟨hleast, hmost, haccepts⟩ := hall
    obtain ⟨c, rfl⟩ := List.length_eq_one_iff.mp (Nat.le_antisymm (hmost 1 rfl) hleast)
    exact ⟨c, rfl, haccepts c List.mem_cons_self⟩
  · intro hone
    obtain ⟨c, rfl, hc⟩ := hone
    refine ⟨Nat.le_refl 1, ?_, by simpa using hc⟩
    intro most hmost
    exact Nat.le_of_eq (Option.some.inj hmost)

end Fragment

end NetPattern
