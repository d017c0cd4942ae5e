import NetPattern.CommandLine
import NetPattern.Proofs.Pattern.Case
import NetPattern.Proofs.Pattern.Source

/-!
# Runs of the command line

A run has all its flags before it comes to a block. So only which flags are given counts, and what
is written for a block is what a run with no other block writes.
-/

namespace NetPattern.CommandLine

/-- The arguments that are taken as flags. -/
def flags : List String :=
  ["--all", "--unanchored", "--ignore-case", "--leading-zeros"]

/-- The arguments that are taken as blocks, in their order. -/
def blocks (arguments : List String) : List String :=
  arguments.filter (· ∉ flags)

/-- The options that the flags among some arguments choose. -/
def optionsOf (arguments : List String) : Options where
  anchored := "--unanchored" ∉ arguments
  ignoreCase := "--ignore-case" ∈ arguments
  leadingZeros := "--leading-zeros" ∈ arguments

/-- The flags among some arguments. -/
def flagsOf (arguments : List String) : List String :=
  arguments.filter (· ∈ flags)

theorem not_mem_flags_of_mem_blocks {arguments : List String} {text : String}
    (h : text ∈ blocks arguments) : text ∉ flags :=
  of_decide_eq_true (List.mem_filter.mp h).2

theorem blocks_append (first second : List String) :
    blocks (first ++ second) = blocks first ++ blocks second :=
  List.filter_append ..

theorem blocks_append_cons {text : String} (htext : text ∉ flags) (before after : List String) :
    blocks (before ++ text :: after) = blocks before ++ text :: blocks after := by
  rw [blocks_append]
  simp only [blocks, List.filter_cons, htext, not_false_eq_true, decide_true, if_true]

/-- Flags count by whether they are given, and `--all` does not count. -/
theorem optionsOf_eq {first second : List String}
    (h : ∀ flag ∈ flags, flag ≠ "--all" → (flag ∈ first ↔ flag ∈ second)) :
    optionsOf first = optionsOf second := by
  have hsame : ∀ flag ∈ flags, flag ≠ "--all" → decide (flag ∈ first) = decide (flag ∈ second) :=
    fun flag hflag hall => decide_eq_decide.mpr (h flag hflag hall)
  simp only [optionsOf, decide_not]
  rw [hsame "--unanchored" (by decide) (by decide), hsame "--ignore-case" (by decide) (by decide),
    hsame "--leading-zeros" (by decide) (by decide)]

theorem optionsOf_append_cons {text : String} (htext : text ∉ flags)
    (before after : List String) :
    optionsOf (before ++ text :: after) = optionsOf (before ++ after) := by
  refine optionsOf_eq fun flag hflag _ => ?_
  have hne : flag ≠ text := fun hsame => htext (hsame ▸ hflag)
  simp only [List.mem_append, List.mem_cons, hne, false_or]

/-! ### Requests -/

/-- A request tells which flags are given and no more about them. -/
theorem ofArguments_eq (arguments : List String) :
    Request.ofArguments arguments =
      ⟨decide ("--all" ∈ arguments), optionsOf arguments, blocks arguments⟩ := by
  induction arguments using List.reverseRecOn with
  | nil => rfl
  | append_singleton arguments argument ih =>
      rw [Request.ofArguments, List.foldl_concat, ← Request.ofArguments, ih, Request.add,
        blocks_append]
      split_ifs with hall hunanchored hignore hzeros
      case neg =>
        have hnot : ∀ flag ∈ flags, flag ≠ argument := by
          simp [flags, Ne.symm hall, Ne.symm hunanchored, Ne.symm hignore, Ne.symm hzeros]
        simp_all [optionsOf, blocks, flags]
      all_goals
        subst argument
        simp [optionsOf, blocks, flags]

/-! ### One block -/

/-- There is one pattern for a block, whether each row is to have its own or not. -/
theorem sources_eq (request : Request) (text : String) :
    sources request text = (compile text request.options).map fun pattern => [pattern.source] := by
  rw [sources]
  split
  next =>
    cases hparse : Cidr.parse text with
    | error e => rw [compile_eq_bind, compileEach_eq_bind, hparse]; rfl
    | ok cidr =>
        obtain ⟨pattern, hcompile, hrows, -⟩ := cidr.exists_compile_isSentence request.options
        rw [compile_eq_of_parse hparse, hcompile, compileEach_eq_bind, hparse]
        simp only [bind, Except.bind, hrows]
        rfl
  next => rfl

theorem runOne_of_options_eq {request other : Request} (h : request.options = other.options)
    (text : String) : runOne request text = runOne other text := by
  rw [runOne, runOne, sources_eq, sources_eq, h]

variable {request : Request} {text : String}

theorem runOne_of_compile_eq_error {e : CidrError} (h : compile text request.options = .error e) :
    runOne request text = ⟨1, "", text ++ ": " ++ e.message ++ "\n"⟩ := by
  rw [runOne, sources_eq, h]
  rfl

theorem runOne_of_compile_eq_ok {pattern : Pattern}
    (h : compile text request.options = .ok pattern) :
    runOne request text = ⟨0, pattern.source ++ "\n", ""⟩ := by
  rw [runOne, sources_eq, h]
  simp [Except.map, String.join_cons]

/-- No source goes on into another line. -/
theorem newline_not_mem_source {options : Options} {pattern : Pattern}
    (h : compile text options = .ok pattern) : '\n' ∉ pattern.source.toList := by
  rw [compile_eq_bind] at h
  obtain ⟨cidr, -, hpattern⟩ := exists_of_bind_eq_ok h
  obtain ⟨only, hcompile, -, hsentence⟩ := cidr.exists_compile_isSentence options
  obtain rfl := Except.ok.inj (hcompile.symm.trans hpattern)
  intro hmem
  rcases hsentence.mem_alphabet _ hmem with hc | ⟨-, hc | hc⟩ <;> exact absurd hc (by decide)

theorem code_runOne (request : Request) (text : String) :
    (runOne request text).code = if (compile text request.options).isOk then 0 else 1 := by
  cases h : compile text request.options with
  | error e => rw [runOne_of_compile_eq_error h]; rfl
  | ok pattern => rw [runOne_of_compile_eq_ok h]; rfl

/-- There is a line for each block that is accepted. -/
theorem exists_lines (request : Request) (texts : List String) :
    ∃ lines : List String,
      lines.length = texts.countP (fun text => (compile text request.options).isOk) ∧
        String.join (texts.map fun text => (runOne request text).output) =
          String.join (lines.map (· ++ "\n")) ∧
        ∀ line ∈ lines, '\n' ∉ line.toList := by
  induction texts with
  | nil => exact ⟨[], rfl, rfl, List.forall_mem_nil _⟩
  | cons text texts ih =>
      obtain ⟨lines, hlength, houtput, hlines⟩ := ih
      cases h : compile text request.options with
      | error e =>
          refine ⟨lines, ?_, ?_, hlines⟩
          · rw [List.countP_cons_of_neg (by rw [h]; exact Bool.false_ne_true), hlength]
          · rw [List.map_cons, String.join_cons, houtput, runOne_of_compile_eq_error h,
              String.empty_append]
      | ok pattern =>
          refine ⟨pattern.source :: lines, ?_, ?_, ?_⟩
          · rw [List.countP_cons_of_pos (by rw [h]; rfl), List.length_cons, hlength]
          · rw [List.map_cons, String.join_cons, houtput, runOne_of_compile_eq_ok h,
              List.map_cons, String.join_cons]
          · exact List.forall_mem_cons.mpr ⟨newline_not_mem_source h, hlines⟩

/-! ### Runs -/

theorem foldl_andThen (outcomes : List Outcome) (start : Outcome) :
    outcomes.foldl Outcome.andThen start =
      ⟨(outcomes.map Outcome.code).foldl max start.code,
        start.output ++ String.join (outcomes.map Outcome.output),
        start.errors ++ String.join (outcomes.map Outcome.errors)⟩ := by
  induction outcomes generalizing start with
  | nil => simp
  | cons outcome outcomes ih =>
      rw [List.foldl_cons, ih]
      simp only [Outcome.andThen, List.map_cons, List.foldl_cons, String.join_cons,
        String.append_assoc]

/-- A run gives the outcomes of its blocks together, each by itself under the options chosen. -/
theorem run_eq {arguments : List String} (h : blocks arguments ≠ []) :
    run arguments =
      ((blocks arguments).map (runOne { options := optionsOf arguments })).foldl
        Outcome.andThen ⟨0, "", ""⟩ := by
  have hone : runOne ⟨decide ("--all" ∈ arguments), optionsOf arguments, blocks arguments⟩ =
      runOne { options := optionsOf arguments } :=
    funext fun text => runOne_of_options_eq (by rfl) text
  rw [run, ofArguments_eq]
  split
  next hnil => exact absurd hnil h
  next => rw [hone]

theorem run_of_no_blocks {arguments : List String} (h : blocks arguments = []) :
    run arguments = ⟨2, "", usage⟩ := by
  rw [run, ofArguments_eq]
  split
  next => rfl
  next hne => exact absurd h hne

variable {arguments : List String}

theorem codes_foldl_max (accepted : String → Bool) (texts : List String) :
    (texts.map fun text => if accepted text then 0 else 1).foldl max 0 =
      if texts.all accepted then 0 else 1 := by
  induction texts using List.reverseRecOn with
  | nil => rfl
  | append_singleton texts text ih =>
      rw [List.map_append, List.map_singleton, List.foldl_concat, ih, List.all_append,
        List.all_cons, List.all_nil, Bool.and_true]
      cases texts.all accepted <;> cases accepted text <;> rfl

theorem code_run (h : blocks arguments ≠ []) :
    (run arguments).code =
      if (blocks arguments).all (fun text => (compile text (optionsOf arguments)).isOk) then 0
      else 1 := by
  rw [run_eq h, foldl_andThen, List.map_map, ← codes_foldl_max]
  exact congrArg (List.foldl max 0) (List.map_congr_left fun text _ => code_runOne _ text)

theorem output_run (arguments : List String) :
    (run arguments).output =
      String.join ((blocks arguments).map fun text =>
        (runOne { options := optionsOf arguments } text).output) := by
  by_cases h : blocks arguments = []
  · rw [run_of_no_blocks h, h]
    rfl
  · simp only [run_eq h, foldl_andThen, List.map_map, String.empty_append]
    rfl

theorem errors_run (h : blocks arguments ≠ []) :
    (run arguments).errors =
      String.join ((blocks arguments).map fun text =>
        (runOne { options := optionsOf arguments } text).errors) := by
  simp only [run_eq h, foldl_andThen, List.map_map, String.empty_append]
  rfl

/-- With the same flags and one of the blocks, a run gives the outcome of that block. -/
theorem run_single {text : String} (h : text ∈ blocks arguments) :
    run (flagsOf arguments ++ [text]) = runOne { options := optionsOf arguments } text := by
  have htext := not_mem_flags_of_mem_blocks h
  have hblocks : blocks (flagsOf arguments ++ [text]) = [text] := by
    rw [blocks_append_cons htext]
    simp [blocks, flagsOf]
  have hoptions : optionsOf (flagsOf arguments ++ [text]) = optionsOf arguments := by
    rw [optionsOf_append_cons htext, List.append_nil]
    exact optionsOf_eq fun flag hflag _ => by simp [flagsOf, hflag]
  rw [run_eq (by rw [hblocks]; exact List.cons_ne_nil _ _), hblocks, hoptions]
  simp [Outcome.andThen]

section Failing

variable {before after : List String} {text : String} {e : CidrError} (htext : text ∉ flags)
  (hfails : compile text (optionsOf (before ++ after)) = .error e)

include htext hfails in
theorem output_append_cons :
    (run (before ++ text :: after)).output = (run (before ++ after)).output := by
  have hone : runOne { options := optionsOf (before ++ after) } text =
      ⟨1, "", text ++ ": " ++ e.message ++ "\n"⟩ := runOne_of_compile_eq_error hfails
  rw [output_run, output_run, blocks_append_cons htext, optionsOf_append_cons htext, blocks_append]
  simp only [List.map_append, List.map_cons, String.join_append, String.join_cons, hone,
    String.empty_append]

include htext hfails in
/-- A block that fails is reported between those before and behind it. -/
theorem exists_errors_append_cons (hne : blocks (before ++ after) ≠ []) :
    ∃ front back, (run (before ++ after)).errors = front ++ back ∧
      (run (before ++ text :: after)).errors =
        front ++ (text ++ ": " ++ e.message ++ "\n") ++ back := by
  have hone : runOne { options := optionsOf (before ++ after) } text =
      ⟨1, "", text ++ ": " ++ e.message ++ "\n"⟩ := runOne_of_compile_eq_error hfails
  have hblocks := blocks_append_cons htext before after
  have hmore : blocks (before ++ text :: after) ≠ [] :=
    hblocks ▸ List.append_ne_nil_of_right_ne_nil _ (List.cons_ne_nil _ _)
  rw [errors_run hne, errors_run hmore, blocks_append, hblocks, optionsOf_append_cons htext]
  simp only [List.map_append, List.map_cons, String.join_append, String.join_cons, hone]
  exact ⟨_, _, rfl, by simp only [String.append_assoc]⟩

end Failing

/-- A run is put together from runs with one block each. -/
theorem run_is_per_block :
    (∀ arguments, blocks arguments = [] →
      (run arguments).code = 2 ∧ (run arguments).output = "") ∧
    (∀ arguments, blocks arguments ≠ [] →
      (run arguments).output = String.join ((blocks arguments).map fun text =>
          (run (flagsOf arguments ++ [text])).output) ∧
        (run arguments).errors = String.join ((blocks arguments).map fun text =>
          (run (flagsOf arguments ++ [text])).errors) ∧
        (run arguments).code =
          if (blocks arguments).all fun text => (compile text (optionsOf arguments)).isOk then 0
          else 1) ∧
    (∀ first second, blocks first = blocks second →
      (∀ flag ∈ flags, flag ≠ "--all" → (flag ∈ first ↔ flag ∈ second)) →
        run first = run second) ∧
    (∀ before text after e, text ∉ flags →
      compile text (optionsOf (before ++ after)) = .error e →
        (run (before ++ text :: after)).output = (run (before ++ after)).output ∧
          (blocks (before ++ after) ≠ [] →
            ∃ front back, (run (before ++ after)).errors = front ++ back ∧
              (run (before ++ text :: after)).errors =
                front ++ (text ++ ": " ++ e.message ++ "\n") ++ back)) ∧
    ∀ arguments, ∃ lines : List String,
      lines.length =
          (blocks arguments).countP (fun text => (compile text (optionsOf arguments)).isOk) ∧
        (run arguments).output = String.join (lines.map (· ++ "\n")) ∧
        ∀ line ∈ lines, '\n' ∉ line.toList := by
  refine ⟨?_, ?_, ?_, ?_, ?_⟩
  · intro arguments hnil
    rw [run_of_no_blocks hnil]
    exact ⟨rfl, rfl⟩
  · intro arguments hne
    refine ⟨?_, ?_, code_run hne⟩
    · rw [output_run, List.map_congr_left fun text htext =>
        congrArg Outcome.output (run_single htext)]
    · rw [errors_run hne, List.map_congr_left fun text htext =>
        congrArg Outcome.errors (run_single htext)]
  · intro first second hblocks hflags
    by_cases hnil : blocks first = []
    · rw [run_of_no_blocks hnil, run_of_no_blocks (hblocks ▸ hnil)]
    · rw [run_eq hnil, run_eq (hblocks ▸ hnil), hblocks, optionsOf_eq hflags]
  · intro before text after e htext hfails
    exact ⟨output_append_cons htext hfails, exists_errors_append_cons htext hfails⟩
  · intro arguments
    rw [output_run]
    exact exists_lines { options := optionsOf arguments } (blocks arguments)

/-- A run with a flag that does not count and a block whose prefix length is too large. -/
theorem run_is_per_block_prefix :
    (run ["192.0.2.0/31", "10.0.0.0/33", "--all"]).output = "^(?:192\\.0\\.2\\.(?:0|1))$\n" ∧
      (run ["192.0.2.0/31", "10.0.0.0/33", "--all"]).errors =
        "10.0.0.0/33: prefix length out of range: '33' (max 32)\n" ∧
      (run ["192.0.2.0/31", "10.0.0.0/33", "--all"]).code = 1 ∧ (run ["--all"]).code = 2 := by
  obtain ⟨hnone, hsome, hflags, hfailing, -⟩ := run_is_per_block
  have hfails : compile "10.0.0.0/33" (optionsOf ["192.0.2.0/31", "--all"]) =
      .error (.prefixOutOfRange "33" 32) := by decide +kernel
  have hblock : run ["192.0.2.0/31"] = ⟨0, "^(?:192\\.0\\.2\\.(?:0|1))$\n", ""⟩ := by
    decide +kernel
  have hsame : run ["192.0.2.0/31", "--all"] = run ["192.0.2.0/31"] :=
    hflags _ _ (by decide) (by decide)
  obtain ⟨houtput, herrors⟩ :=
    hfailing ["192.0.2.0/31"] "10.0.0.0/33" ["--all"] _ (by decide) hfails
  obtain ⟨front, back, hothers, hline⟩ := herrors (by decide)
  have hsilent : (run ["192.0.2.0/31", "--all"]).errors = "" := by rw [hsame, hblock]
  obtain ⟨rfl, rfl⟩ := String.append_eq_empty_iff.mp (hothers.symm.trans hsilent)
  refine ⟨houtput.trans ?_, hline, ?_, (hnone _ (by decide)).1⟩
  · exact congrArg Outcome.output (hsame.trans hblock)
  · rw [(hsome _ (by decide)).2.2]
    decide +kernel

/-! ### Lines by themselves -/

/-- A printed line has no flags. Read by itself it matches the written forms in lower case only,
which are all there are for IPv4, while the pattern of a block matches all of them. -/
theorem line_matches_lower_case {text : String} {cidr : Cidr} (htext : text ∈ blocks arguments)
    (hparse : Cidr.parse text = .ok cidr) :
    ∃ pattern alone, compile text (optionsOf arguments) = .ok pattern ∧
      (run (flagsOf arguments ++ [text])).output = pattern.source ++ "\n" ∧
      Program.read? false pattern.source.toList = some alone ∧
      (∀ input : String, pattern.isMatch input = true ↔ Occurs (optionsOf arguments).anchored
        (cidr.range.Written (optionsOf arguments).leadingZeros) input.toList) ∧
      (∀ input : String, alone.isMatch input.toList = true ↔ Occurs (optionsOf arguments).anchored
        (fun piece => cidr.range.Written (optionsOf arguments).leadingZeros piece ∧
          InLowerCase piece) input.toList) ∧
      ((∀ input : String, alone.isMatch input.toList = pattern.isMatch input) ↔
        ∀ piece, cidr.range.Written (optionsOf arguments).leadingZeros piece →
          InLowerCase piece) ∧
      (cidr.family = .v4 →
        ∀ input : String, alone.isMatch input.toList = pattern.isMatch input) := by
  obtain ⟨pattern, hcompile, hsource, hmatch⟩ := cidr.exists_compile_occurs (optionsOf arguments)
  obtain ⟨alone, hread, halone⟩ := cidr.exists_read_sourceOf (optionsOf arguments)
  have hcompile' := (compile_eq_of_parse hparse (optionsOf arguments)).trans hcompile
  have hsame : (∀ input : String, alone.isMatch input.toList = pattern.isMatch input) ↔
      ∀ piece, cidr.range.Written (optionsOf arguments).leadingZeros piece →
        InLowerCase piece := by
    rw [← Range.occurs_iff_inLowerCase _ _ (optionsOf arguments).anchored]
    simp only [Bool.eq_iff_iff, hmatch, halone]
    constructor
    · intro h text
      have htext := h (String.ofList text)
      rwa [String.toList_ofList] at htext
    · exact fun h input => h input.toList
  refine ⟨pattern, alone, hcompile', ?_, ?_, hmatch, fun input => halone input.toList, hsame, ?_⟩
  · have hone : runOne { options := optionsOf arguments } text =
        ⟨0, pattern.source ++ "\n", ""⟩ := runOne_of_compile_eq_ok hcompile'
    rw [run_single htext, hone]
  · rw [hsource, String.toList_ofList, hread]
  · intro hv4
    refine hsame.mpr fun piece hwritten => ?_
    obtain ⟨address, -, hwrites⟩ := hwritten
    have hfamily : cidr.range.family = .v4 := hv4
    rw [hfamily] at hwrites
    exact Family.inLowerCase_of_writes hwrites

/-- The lines of an IPv6 address with letters and of an IPv4 block. -/
theorem line_matches_lower_case_families :
    (∃ pattern alone, compile "2001:db8::ff/128" { ignoreCase := true } = .ok pattern ∧
        Program.read? false pattern.source.toList = some alone ∧
          ¬∀ input : String, alone.isMatch input.toList = pattern.isMatch input) ∧
      ∃ pattern alone, compile "192.0.2.0/30" {} = .ok pattern ∧
        Program.read? false pattern.source.toList = some alone ∧
          ∀ input : String, alone.isMatch input.toList = pattern.isMatch input := by
  constructor
  · have hoptions : optionsOf ["--ignore-case", "2001:db8::ff/128"] = { ignoreCase := true } := by
      decide
    have hline := @line_matches_lower_case ["--ignore-case", "2001:db8::ff/128"]
      "2001:db8::ff/128" ⟨.v6, 0x20010db80000000000000000000000ff, 128⟩ (by decide) (by decide)
    rw [hoptions] at hline
    obtain ⟨pattern, alone, hcompile, -, hread, -, -, hsame, -⟩ := hline
    refine ⟨pattern, alone, hcompile, hread, fun h => ?_⟩
    have hwrites := Family.writes_iff_readAddress.mpr
      ⟨(by decide : Family.v6.FullForm false "2001:0DB8:0000:0000:0000:0000:0000:00FF".toList),
        (by decide : Family.v6.readAddress "2001:0DB8:0000:0000:0000:0000:0000:00FF".toList =
          .ok 0x20010db80000000000000000000000ff)⟩
    exact absurd (hsame.mp h _ ⟨_, by decide, hwrites.1⟩) (by decide)
  · have hoptions : optionsOf ["192.0.2.0/30"] = {} := by decide
    have hline := @line_matches_lower_case ["192.0.2.0/30"] "192.0.2.0/30"
      ⟨.v4, 0xc0000200, 30⟩ (by decide) (by decide)
    rw [hoptions] at hline
    obtain ⟨pattern, alone, hcompile, -, hread, -, -, -, hsame⟩ := hline
    exact ⟨pattern, alone, hcompile, hread, hsame rfl⟩

/-- The line of an address with letters does not match its written form in upper case, even where
case is to be ignored. -/
theorem line_misses_upper_case :
    (run ["--ignore-case", "2001:db8::ff/128"]).output =
        "^(?:2001:0db8:0000:0000:0000:0000:0000:00ff)$\n" ∧
      (Program.read? false "^(?:2001:0db8:0000:0000:0000:0000:0000:00ff)$".toList).map
          (·.isMatch "2001:0DB8:0000:0000:0000:0000:0000:00FF".toList) = some false ∧
      (compile "2001:db8::ff/128" { ignoreCase := true }).toOption.map
          (·.isMatch "2001:0DB8:0000:0000:0000:0000:0000:00FF") = some true := by
  decide +kernel

end NetPattern.CommandLine
