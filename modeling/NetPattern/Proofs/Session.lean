import NetPattern.Proofs.Distinct
import NetPattern.Proofs.Row.Decomposition
import NetPattern.Session

/-!
# What a session remembers

A call asks for fragments one after the other, and neither which ones it asks for nor what it
returns depends on who answers: both are read off the range that the call is about. So the answers
of a session are those of the library, and what it keeps is told by all the requests so far,
whatever their order.
-/

namespace NetPattern

/-! ### Requests -/

/-- Someone who answers requests for the fragments of ranges of hextets. Each answer is right and
leaves a note in the state. -/
structure Answerer (σ : Type) where
  ask : Nat → Nat → StateM σ Fragment
  note : σ → Nat × Nat → σ
  Valid : σ → Prop
  ask_run : ∀ {s : σ}, Valid s → ∀ low high,
    (ask low high).run s = (Fragment.hextetRange low high, note s (low, high))
  valid_note : ∀ {s : σ}, Valid s → ∀ request, Valid (note s request)

theorem Answerer.valid_foldl {σ : Type} (answerer : Answerer σ) (requests : List (Nat × Nat))
    {s : σ} (hs : answerer.Valid s) : answerer.Valid (requests.foldl answerer.note s) := by
  induction requests generalizing s with
  | nil => exact hs
  | cons request requests ih => exact ih (answerer.valid_note hs request)

/-- Whether a program gives some value after some requests, whoever answers them. -/
structure Asks {α : Type} (program : {σ : Type} → (Nat → Nat → StateM σ Fragment) → StateM σ α)
    (value : α) (requests : List (Nat × Nat)) : Prop where
  run_eq : ∀ {σ : Type} (answerer : Answerer σ) {s : σ}, answerer.Valid s →
    (program answerer.ask).run s = (value, requests.foldl answerer.note s)

namespace Asks

variable {α β : Type} {value : α} {result : β} {first second : List (Nat × Nat)}
  {program program' : {σ : Type} → (Nat → Nat → StateM σ Fragment) → StateM σ α}

theorem congr
    (heq : ∀ {σ : Type} (ask : Nat → Nat → StateM σ Fragment), program' ask = program ask)
    (h : Asks program value first) : Asks program' value first :=
  ⟨fun answerer _ hs => heq answerer.ask ▸ h.run_eq answerer hs⟩

theorem pure (value : α) : Asks (fun _ => Pure.pure value) value [] :=
  ⟨fun _ _ _ => rfl⟩

theorem ask (low high : Nat) :
    Asks (fun ask => ask low high) (Fragment.hextetRange low high) [(low, high)] :=
  ⟨fun answerer _ hs => answerer.ask_run hs low high⟩

/-- The requests of two steps are those of the first and then those of the second. -/
theorem bind (next : {σ : Type} → (Nat → Nat → StateM σ Fragment) → α → StateM σ β)
    (hfirst : Asks program value first)
    (hsecond : Asks (fun ask => next ask value) result second) :
    Asks (fun ask => program ask >>= next ask) result (first ++ second) := by
  refine ⟨fun answerer s hs => ?_⟩
  rw [StateT.run_bind, hfirst.run_eq answerer hs, List.foldl_append]
  exact hsecond.run_eq answerer (answerer.valid_foldl first hs)

/-- A step that only computes asks for nothing more. -/
theorem map (f : α → β) (h : Asks program value first) :
    Asks (fun ask => do return f (← program ask)) (f value) first := by
  have hbind := h.bind (fun _ value => Pure.pure (f value)) (.pure (f value))
  rwa [List.append_nil] at hbind

end Asks

/-- The requests for the fragment of the segments from `low` to `high`. -/
def SegmentForm.requests : SegmentForm → (low high : Nat) → List (Nat × Nat)
  | octet _, _, _ => []
  | hextet, low, high => [(low, high)]

theorem SegmentForm.asks (form : SegmentForm) (low high : Nat) :
    Asks (fun ask => form.fragmentWith ask low high) (form.fragment low high)
      (form.requests low high) := by
  cases form with
  | octet padded => exact .pure _
  | hextet => exact .ask low high

namespace Row

/-- The requests for the rows of the lists of `width` segments between two such lists, in order. -/
def requests (form : SegmentForm) : (width : Nat) → (low high : List Nat) → List (Nat × Nat)
  | width + 1, l :: low, h :: high =>
      if SegmentBounds.Full form.top (l :: low) (h :: high) then []
      else if l = h then form.requests l l ++ requests form width low high
      else
        form.requests l l ++ requests form width low (List.replicate width form.top) ++
          (if l + 1 < h then form.requests (l + 1) (h - 1) else []) ++
          (form.requests h h ++ requests form width (List.replicate width 0) high)
  | _, _, _ => []

theorem requests_octet (padded : Bool) (width : Nat) (low high : List Nat) :
    requests (.octet padded) width low high = [] := by
  fun_induction requests (.octet padded) width low high with
  | case1 => rfl
  | case2 _ _ _ _ _ ih => exact ih
  | case3 _ _ _ _ _ _ _ ihbelow ihabove => simp [SegmentForm.requests, ihbelow, ihabove]
  | case4 => rfl

theorem asks (form : SegmentForm) (width : Nat) (low high : List Nat) :
    Asks (fun ask => decomposeWith (form.fragmentWith ask) form width low high)
      (ofBounds form width low high) (requests form width low high) := by
  induction width generalizing low high with
  | zero => exact .pure _
  | succ width ih =>
      match low, high with
      | [], _ => exact .pure _
      | _ :: _, [] => exact .pure _
      | l :: low, h :: high =>
          rw [ofBounds_cons, requests]
          by_cases hfull : SegmentBounds.Full form.top (l :: low) (h :: high)
          · rw [if_pos hfull, if_pos hfull]
            exact .congr (fun _ => decomposeWith_full _ hfull) (.pure _)
          rw [if_neg hfull, if_neg hfull]
          by_cases hsame : l = h
          · subst hsame
            rw [if_pos rfl, if_pos rfl]
            exact .congr (fun _ => decomposeWith_same _ hfull)
              (.bind _ (form.asks l l) (.map _ (ih low high)))
          · have hend : ∀ start : List Row, Asks
                (fun ask => do
                  let highest ← form.fragmentWith ask h h
                  let above ← decomposeWith (form.fragmentWith ask) form width
                    (List.replicate width 0) high
                  Pure.pure (start ++ above.map (highest :: ·)).eraseDups)
                (start ++ (ofBounds form width (List.replicate width 0) high).map
                  (form.fragment h h :: ·)).eraseDups
                (form.requests h h ++ requests form width (List.replicate width 0) high) :=
              fun _ => .bind _ (form.asks h h) (.map _ (ih (List.replicate width 0) high))
            rw [if_neg hsame, if_neg hsame, List.append_assoc (form.requests l l ++ _),
              List.append_assoc (form.requests l l)]
            refine .congr (fun _ => decomposeWith_split _ hfull hsame)
              (.bind _ (form.asks l l) (.bind _ (ih low (List.replicate width form.top)) ?_))
            split
            next => exact .bind _ (form.asks (l + 1) (h - 1)) (.congr (fun _ => rfl) (hend _))
            next => exact .congr (fun _ => rfl) (hend _)

end Row

/-- The requests for the rows of a range. -/
def Range.requests (range : Range) : List (Nat × Nat) :=
  match range.family with
  | .v4 => []
  | .v6 => Row.requests .hextet range.firstSegments.length range.firstSegments range.lastSegments

theorem PatternSet.asks (range : Range) (options : Options) :
    Asks (fun ask => ofRangeWith ask range options) (ofRange range options) range.requests := by
  have hrows := Row.asks (SegmentForm.of range.family options.leadingZeros)
    range.firstSegments.length range.firstSegments range.lastSegments
  have hrequests : Row.requests (SegmentForm.of range.family options.leadingZeros)
      range.firstSegments.length range.firstSegments range.lastSegments = range.requests := by
    rw [Range.requests]
    cases range.family with
    | v4 => exact Row.requests_octet options.leadingZeros _ _ _
    | v6 => rfl
  rw [hrequests] at hrows
  exact hrows.map _

namespace Cidr

theorem patternSet_asks (cidr : Cidr) (options : Options) :
    Asks (fun ask => cidr.patternSetWith ask options) (cidr.patternSet options)
      cidr.range.requests :=
  (PatternSet.asks cidr.range options).map PatternSet.collapse

theorem compile_asks (cidr : Cidr) (options : Options) :
    Asks (fun ask => (cidr.compileWith ask options).run) (cidr.compile options)
      cidr.range.requests :=
  .congr (fun _ => rfl) ((cidr.patternSet_asks options).map fun set => Pattern.ofSet set options)

end Cidr

/-- What follows the parsing of a text asks for what it asks for with the block of the text, and a
text that is refused asks for nothing. -/
theorem Asks.parse_bind {α : Type} {value : Cidr → Except CidrError α}
    {next : {σ : Type} → (Nat → Nat → StateM σ Fragment) → Cidr → ExceptT CidrError (StateM σ) α}
    (h : ∀ cidr, Asks (fun ask => (next ask cidr).run) (value cidr) cidr.range.requests)
    (text : String) :
    Asks (fun ask => (liftM (Cidr.parse text) >>= next ask).run) (Cidr.parse text >>= value)
      (((Cidr.parse text).toOption.map Cidr.range).elim [] Range.requests) := by
  cases Cidr.parse text with
  | error e => exact .congr (fun _ => rfl) (.pure (Except.error e))
  | ok cidr => exact .congr (fun _ => rfl) (h cidr)

namespace Call

/-- The range that a call makes rows for, if it gets that far. -/
def range? : Call → Option Range
  | parse _ => none
  | compile text _ | compileEach text _ | patternSet text _ =>
      (Cidr.parse text).toOption.map Cidr.range
  | compileNet net _ => some net.toCidr.range
  | compileCidr cidr _ => some cidr.range
  | decompose family first last _ => Range.make? family first last

/-- The family of the addresses that a call makes rows for, if it gets that far. -/
def family? (call : Call) : Option Family :=
  call.range?.map Range.family

/-- A call returns what the library does, whoever answers what it asks for. -/
theorem asks (call : Call) :
    Asks (fun ask => call.performWith ask) call.answer (call.range?.elim [] Range.requests) := by
  cases call with
  | parse text => exact .pure _
  | compile text options =>
      rw [answer, compile_eq_bind]
      exact (Asks.parse_bind (fun cidr => cidr.compile_asks options) text).map Answer.pattern
  | compileEach text options =>
      rw [answer, compileEach_eq_bind]
      refine (Asks.parse_bind (fun cidr => .congr (fun _ => rfl) ?_) text).map Answer.patterns
      exact (cidr.patternSet_asks options).map fun set => Pattern.eachRow set options
  | compileNet net options => exact (net.toCidr.compile_asks options).map Answer.pattern
  | compileCidr cidr options => exact (cidr.compile_asks options).map Answer.pattern
  | patternSet text options =>
      rw [answer, patternSet_eq_bind]
      refine (Asks.parse_bind (fun cidr => .congr (fun _ => rfl) ?_) text).map Answer.set
      exact (cidr.patternSet_asks options).map Except.ok
  | decompose family first last options =>
      simp only [performWith, answer, range?, PatternSet.stages?, PatternSet.stagesWith?]
      cases Range.make? family first last with
      | none => exact .pure _
      | some range =>
          exact (PatternSet.asks range options).map fun rows =>
            Answer.sets (some (range, rows, rows.collapse))

/-- Answers and writes every request down. -/
def recordAsk (low high : Nat) : StateM (List (Nat × Nat)) Fragment := do
  modify (· ++ [(low, high)])
  return Fragment.hextetRange low high

/-- The one who answers with `recordAsk` and takes any state. -/
def recorder : Answerer (List (Nat × Nat)) where
  ask := recordAsk
  note requests request := requests ++ [request]
  Valid _ := True
  ask_run := fun _ _ _ => rfl
  valid_note := fun _ _ => trivial

theorem foldl_recorder (requests before : List (Nat × Nat)) :
    requests.foldl recorder.note before = before ++ requests := by
  induction requests generalizing before with
  | nil => exact (List.append_nil before).symm
  | cons request requests ih =>
      rw [List.foldl_cons, ih]
      exact List.append_assoc before [request] requests

/-- The ranges of hextets that a call asks for, in order and each as often as it does. -/
def requests (call : Call) : List (Nat × Nat) :=
  ((call.performWith recordAsk).run []).2

/-- What a call asks for is read off the bounds of its range. -/
theorem requests_eq (call : Call) : call.requests = call.range?.elim [] Range.requests := by
  have hrun : (call.performWith recordAsk).run [] =
      (call.answer, (call.range?.elim [] Range.requests).foldl recorder.note []) :=
    call.asks.run_eq recorder trivial
  rw [requests, hrun]
  exact foldl_recorder _ []

theorem asks_requests (call : Call) :
    Asks (fun ask => call.performWith ask) call.answer call.requests :=
  call.requests_eq ▸ call.asks

/-- Only a call about IPv6 asks for anything. -/
theorem requests_eq_nil {call : Call} (h : call.family? ≠ some .v6) : call.requests = [] := by
  rw [requests_eq]
  cases hrange : call.range? with
  | none => rfl
  | some range =>
      have hfamily : range.family = .v4 := by
        rw [family?, hrange] at h
        cases hfamily : range.family with
        | v4 => rfl
        | v6 => exact absurd (congrArg some hfamily) h
      rw [Option.elim_some, Range.requests, hfamily]

end Call

/-! ### The fragments kept -/

namespace Memo

/-- Whether every fragment kept is that of its range. -/
def Sound (memo : Memo) : Prop :=
  ∀ entry ∈ memo, entry.2 = Fragment.hextetRange entry.1.1 entry.1.2

theorem sound_nil : Sound [] :=
  List.forall_mem_nil _

/-- The fragments kept after a request. -/
def note (memo : Memo) (request : Nat × Nat) : Memo :=
  if request ∈ memo.map Prod.fst then memo
  else (request, Fragment.hextetRange request.1 request.2) :: memo

theorem sound_note {memo : Memo} (h : memo.Sound) (request : Nat × Nat) :
    (memo.note request).Sound := by
  unfold note
  split
  next => exact h
  next => exact List.forall_mem_cons.mpr ⟨rfl, h⟩

/-- The answer to a request is right, whether its fragment was kept or is new. -/
theorem ask_run {memo : Memo} (h : memo.Sound) (low high : Nat) :
    (ask low high).run memo = (Fragment.hextetRange low high, memo.note (low, high)) := by
  rw [note]
  cases hlookup : memo.lookup (low, high) with
  | none =>
      have hnew : (low, high) ∉ memo.map Prod.fst := by
        intro hmem
        obtain ⟨entry, hentry, hkey⟩ := List.mem_map.mp hmem
        have hne := List.lookup_eq_none_iff.mp hlookup entry hentry
        exact bne_iff_ne.mp hne hkey.symm
      have hrun : (ask low high).run memo = (Fragment.hextetRange low high,
          ((low, high), Fragment.hextetRange low high) :: memo) := by
        simp only [ask, StateT.run_bind, StateT.run_get, pure_bind, hlookup]
        rfl
      rw [if_neg hnew, hrun]
  | some fragment =>
      obtain ⟨before, after, hmemo, -⟩ := List.lookup_eq_some_iff.mp hlookup
      have hentry : ((low, high), fragment) ∈ memo :=
        hmemo ▸ List.mem_append_right _ List.mem_cons_self
      have hrun : (ask low high).run memo = (fragment, memo) := by
        simp only [ask, StateT.run_bind, StateT.run_get, pure_bind, hlookup]
        rfl
      rw [if_pos (List.mem_map_of_mem (f := Prod.fst) hentry), hrun]
      exact congrArg (·, memo) (h _ hentry)

/-- The one who answers with `ask`, as long as the fragments kept are right. -/
def answerer : Answerer Memo where
  ask := ask
  note := note
  Valid := Sound
  ask_run := ask_run
  valid_note := sound_note

theorem mem_keys_note {memo : Memo} {request other : Nat × Nat} :
    other ∈ (memo.note request).map Prod.fst ↔ other ∈ memo.map Prod.fst ∨ other = request := by
  unfold note
  split
  next hmem => exact (or_iff_left_of_imp fun heq => heq ▸ hmem).symm
  next => rw [List.map_cons, List.mem_cons, or_comm]

theorem nodup_keys_note {memo : Memo} (h : (memo.map Prod.fst).Nodup) (request : Nat × Nat) :
    ((memo.note request).map Prod.fst).Nodup := by
  unfold note
  split
  next => exact h
  next hmem => exact List.nodup_cons.mpr ⟨hmem, h⟩

theorem mem_keys_foldl {requests : List (Nat × Nat)} {memo : Memo} {other : Nat × Nat} :
    other ∈ (requests.foldl note memo).map Prod.fst ↔
      other ∈ memo.map Prod.fst ∨ other ∈ requests := by
  induction requests generalizing memo with
  | nil => simp
  | cons request requests ih =>
      rw [List.foldl_cons, ih, mem_keys_note, List.mem_cons, or_assoc]

theorem nodup_keys_foldl (requests : List (Nat × Nat)) {memo : Memo}
    (h : (memo.map Prod.fst).Nodup) : ((requests.foldl note memo).map Prod.fst).Nodup := by
  induction requests generalizing memo with
  | nil => exact h
  | cons request requests ih => exact ih (nodup_keys_note h request)

/-- From nothing kept, one fragment is kept for each range that was asked for. -/
theorem length_foldl_note (requests : List (Nat × Nat)) :
    (requests.foldl note []).length = requests.eraseDups.length := by
  have hperm : ((requests.foldl note []).map Prod.fst).Perm requests.eraseDups := by
    have hkeys := @nodup_keys_foldl requests [] List.nodup_nil
    refine (List.perm_ext_iff_of_nodup hkeys (nodup_eraseDups requests)).mpr fun request => ?_
    rw [mem_keys_foldl, List.mem_eraseDups]
    simp
  rw [← hperm.length_eq, List.length_map]

end Memo

/-! ### Sessions -/

/-- A call returns what the library does and keeps the fragments that it asks for. -/
theorem Call.perform_run (call : Call) {memo : Memo} (h : memo.Sound) :
    call.perform.run memo = (call.answer, call.requests.foldl Memo.note memo) :=
  call.asks_requests.run_eq Memo.answerer h

namespace Session

/-- The fragments kept after a series of calls. -/
def memoAfter (calls : List Call) : Memo :=
  calls.foldl (fun memo call => (call.perform.run memo).2) []

/-- The number of fragments kept after a series of calls. -/
def size (calls : List Call) : Nat :=
  (memoAfter calls).length

/-- The ranges of hextets that a series of calls asks for. -/
def requests (calls : List Call) : List (Nat × Nat) :=
  calls.flatMap Call.requests

theorem foldl_perform (calls : List Call) {memo : Memo} (h : memo.Sound) :
    calls.foldl (fun memo call => (call.perform.run memo).2) memo =
      (requests calls).foldl Memo.note memo := by
  induction calls generalizing memo with
  | nil => rfl
  | cons call calls ih =>
      rw [List.foldl_cons, call.perform_run h, requests, List.flatMap_cons, List.foldl_append]
      exact ih (Memo.answerer.valid_foldl call.requests h)

theorem memoAfter_eq (calls : List Call) : memoAfter calls = (requests calls).foldl Memo.note [] :=
  foldl_perform calls Memo.sound_nil

theorem size_eq (calls : List Call) : size calls = (requests calls).eraseDups.length := by
  rw [size, memoAfter_eq, Memo.length_foldl_note]

theorem answers_eq (calls : List Call) {memo : Memo} (h : memo.Sound) :
    answers calls memo = calls.mapIdx fun i call =>
      (call.answer, ((requests (calls.take (i + 1))).foldl Memo.note memo).length) := by
  induction calls generalizing memo with
  | nil => rfl
  | cons call calls ih =>
      have hnext : (call.requests.foldl Memo.note memo).Sound :=
        Memo.answerer.valid_foldl call.requests h
      rw [answers, call.perform_run h, List.mapIdx_cons]
      simp only [ih hnext, requests, List.take_succ_cons, List.flatMap_cons, List.foldl_append,
        List.take_zero, List.flatMap_nil, List.foldl_nil]

/-- What is kept depends on which ranges were asked for and on nothing else. -/
theorem size_le_of_subset {calls others : List Call} (h : requests calls ⊆ requests others) :
    size calls ≤ size others := by
  rw [size_eq, size_eq]
  refine ((nodup_eraseDups _).subperm fun request hrequest => ?_).length_le
  exact List.mem_eraseDups.mpr (h (List.mem_eraseDups.mp hrequest))

theorem requests_subset {calls others : List Call} (h : calls ⊆ others) :
    requests calls ⊆ requests others := by
  intro request hrequest
  obtain ⟨call, hcall, hmem⟩ := List.mem_flatMap.mp hrequest
  exact List.mem_flatMap.mpr ⟨call, h hcall, hmem⟩

theorem size_le_size {calls others : List Call} (h : calls ⊆ others) : size calls ≤ size others :=
  size_le_of_subset (requests_subset h)

/-- A call changes the size only if it asks for something that no call before it did. -/
theorem size_append_singleton {calls : List Call} {call : Call}
    (h : call.requests ⊆ requests calls) : size (calls ++ [call]) = size calls := by
  refine Nat.le_antisymm (size_le_of_subset ?_) (size_le_size (List.subset_append_left _ _))
  rw [requests, List.flatMap_append, List.flatMap_singleton]
  exact List.append_subset.mpr ⟨List.Subset.refl _, h⟩

end Session

/-- The fragments kept are never seen but in their number: every answer of a session is that of the
library, which is also the answer where nothing is kept yet, every fragment kept is that of its
range, and their number is that of the ranges asked for so far, which are read off the bounds of
the ranges of addresses. So the number never decreases, stays as it is for calls that are not about
IPv6 or come again, and depends on no order. -/
theorem memo_seen_only_in_size (calls : List Call) :
    Session.run calls = calls.mapIdx (fun i call =>
      (call.answer, Session.size (calls.take (i + 1)))) ∧
      (∀ call : Call, (call.perform.run []).1 = call.answer) ∧
      (∀ entry ∈ Session.memoAfter calls, entry.2 = Fragment.digitRange 4
        (Positional.digits 16 4 entry.1.1) (Positional.digits 16 4 entry.1.2)) ∧
      ((Session.memoAfter calls).map Prod.fst).Nodup ∧
      Session.size calls = (Session.requests calls).eraseDups.length ∧
      Session.requests calls = calls.flatMap (fun call => call.range?.elim [] Range.requests) ∧
      (∀ more, Session.size calls ≤ Session.size (calls ++ more)) ∧
      (∀ call : Call, call.family? ≠ some .v6 →
        Session.size (calls ++ [call]) = Session.size calls) ∧
      (∀ call ∈ calls, Session.size (calls ++ [call]) = Session.size calls) ∧
      ∀ others, calls.Perm others → Session.size others = Session.size calls := by
  refine ⟨?_, ?_, ?_, ?_, Session.size_eq calls, ?_, ?_, ?_, ?_, ?_⟩
  · rw [Session.run, Session.answers_eq calls Memo.sound_nil]
    simp only [Session.size, Session.memoAfter_eq]
  · exact fun call => congrArg Prod.fst (call.perform_run Memo.sound_nil)
  · rw [Session.memoAfter_eq]
    exact Memo.answerer.valid_foldl _ Memo.sound_nil
  · rw [Session.memoAfter_eq]
    exact Memo.nodup_keys_foldl _ List.nodup_nil
  · exact List.flatMap_congr fun call _ => call.requests_eq
  · exact fun more => Session.size_le_size (List.subset_append_left _ _)
  · intro call hfamily
    apply Session.size_append_singleton
    rw [Call.requests_eq_nil hfamily]
    exact List.nil_subset _
  · intro call hcall
    apply Session.size_append_singleton
    exact fun request hrequest => List.mem_flatMap.mpr ⟨call, hcall, hrequest⟩
  · intro others hperm
    exact Nat.le_antisymm (Session.size_le_size hperm.symm.subset)
      (Session.size_le_size hperm.subset)

/-- A block of IPv6, for which four fragments are kept, asked for twice, with one of IPv4 and a text
that is no block. -/
theorem memo_seen_only_in_size_repeated :
    Session.size [.compile "2001:db8::/30" {}] = 4 ∧
      Session.size [.compile "2001:db8::/30" {}, .compile "10.0.0.0/9" {}] = 4 ∧
      Session.size [.compile "2001:db8::/30" {}, .compile "2001:db8::/129" {}] = 4 ∧
      Session.size [.compile "2001:db8::/30" {}, .compile "2001:db8::/30" {}] = 4 ∧
      Session.size [.compile "10.0.0.0/9" {}, .compile "2001:db8::/30" {}] = 4 := by
  obtain ⟨-, -, -, -, hsize, hrequests, -, hother, hagain, -⟩ :=
    memo_seen_only_in_size [.compile "2001:db8::/30" {}]
  obtain ⟨-, -, -, -, -, -, -, -, -, horder⟩ :=
    memo_seen_only_in_size [.compile "2001:db8::/30" {}, .compile "10.0.0.0/9" {}]
  have hfour : Session.size [.compile "2001:db8::/30" {}] = 4 := by
    rw [hsize, hrequests]
    decide
  have hv4 : (Call.compile "10.0.0.0/9" {}).family? ≠ some .v6 := by decide
  have hfails : (Call.compile "2001:db8::/129" {}).family? ≠ some .v6 := by decide
  exact ⟨hfour, (hother _ hv4).trans hfour, (hother _ hfails).trans hfour,
    (hagain _ List.mem_cons_self).trans hfour,
    (horder _ (.swap _ _ [])).trans ((hother _ hv4).trans hfour)⟩

end NetPattern
