import NetPattern.Cidr
import NetPattern.PatternSet
import NetPattern.Regex.Program

/-!
# Patterns of CIDR blocks

From the text of a CIDR block to a pattern that matches the written addresses of the block: four
decimal octets for IPv4, eight groups of four hexadecimal digits for IPv6. The host bits of the
block do not matter. A pattern is its source, the flags to run it with, and the program that the
source stands for.

What is computed from a block is written once, for whoever answers the requests for fragments of
hextets (`compileWith` and the like). The functions of the library are those of an answerer that
keeps nothing.
-/

namespace NetPattern

/-- A pattern with its source and its program. -/
structure Pattern where
  source : String
  family : Family
  global : Bool
  program : Program
deriving DecidableEq, Repr

namespace Pattern

/-- The source of a pattern with the given body. -/
def sourceOf (body : Fragment) (options : Options) : List Char :=
  if options.anchored then '^' :: body ++ ['$'] else body

/-- The pattern with the given body, if its source can be read. -/
def ofBody (body : Fragment) (family : Family) (options : Options) : Except CidrError Pattern :=
  let source := sourceOf body options
  match Program.read? (options.ignoreCase || family == .v6) source with
  | some program => .ok ⟨String.ofList source, family, options.global, program⟩
  | none => .error (.regexRefused "not a regular expression")

/-- One pattern for all rows of a set. -/
def ofSet (set : PatternSet) (options : Options) : Except CidrError Pattern :=
  ofBody set.alternation set.family options

/-- A pattern for each row of a set. -/
def eachRow (set : PatternSet) (options : Options) : Except CidrError (List Pattern) :=
  set.rows.mapM fun row => ofBody (Fragment.group [row.render set.family]) set.family options

/-- The flags of a pattern: `g` to find all matches, `i` to ignore case. -/
def flags (pattern : Pattern) : String :=
  (if pattern.global then "g" else "") ++ (if pattern.program.ignoreCase then "i" else "")

/-- The source between slashes, and then the flags. -/
def display (pattern : Pattern) : String :=
  "/" ++ pattern.source ++ "/" ++ pattern.flags

/-- Whether the pattern matches a text. -/
def isMatch (pattern : Pattern) (text : String) : Bool :=
  pattern.program.isMatch text.toList

/-- The successive matches in a text. -/
def spans (pattern : Pattern) (text : String) : List Span :=
  pattern.program.spans text.toList

end Pattern

section Asking

variable {m : Type → Type} [Monad m] (ask : Nat → Nat → m Fragment)

/-- The rows of a block, merged, where the fragments of hextets are asked for. -/
def Cidr.patternSetWith (cidr : Cidr) (options : Options) : m PatternSet :=
  return (← PatternSet.ofRangeWith ask cidr.range options).collapse

/-- The pattern of a block, where the fragments of hextets are asked for. -/
def Cidr.compileWith (cidr : Cidr) (options : Options) : ExceptT CidrError m Pattern := do
  let set ← (cidr.patternSetWith ask options : m PatternSet)
  Pattern.ofSet set options

/-- The pattern of the block that a text denotes, where the fragments of hextets are asked for. -/
def compileWith (text : String) (options : Options) : ExceptT CidrError m Pattern := do
  let cidr ← Cidr.parse text
  cidr.compileWith ask options

/-- The patterns, one for each merged row, of the block that a text denotes, where the fragments of
hextets are asked for. -/
def compileEachWith (text : String) (options : Options) : ExceptT CidrError m (List Pattern) := do
  let cidr ← Cidr.parse text
  let set ← (cidr.patternSetWith ask options : m PatternSet)
  Pattern.eachRow set options

/-- The merged rows of the block that a text denotes, where the fragments of hextets are asked
for. -/
def patternSetWith (text : String) (options : Options) : ExceptT CidrError m PatternSet := do
  let cidr ← Cidr.parse text
  (cidr.patternSetWith ask options : m PatternSet)

/-- The pattern of a block that is known to fit its family, where the fragments of hextets are asked
for. -/
def Net.compileWith (net : Net) (options : Options) : ExceptT CidrError m Pattern :=
  net.toCidr.compileWith ask options

end Asking

namespace Cidr

/-- The rows of a block, merged. -/
def patternSet (cidr : Cidr) (options : Options) : PatternSet :=
  Id.run (cidr.patternSetWith Fragment.freshHextets options)

/-- The pattern of a block. -/
def compile (cidr : Cidr) (options : Options) : Except CidrError Pattern :=
  Id.run (cidr.compileWith Fragment.freshHextets options).run

theorem patternSet_eq (cidr : Cidr) (options : Options) :
    cidr.patternSet options = (PatternSet.ofRange cidr.range options).collapse :=
  rfl

theorem compile_eq (cidr : Cidr) (options : Options) :
    cidr.compile options = Pattern.ofSet (cidr.patternSet options) options :=
  rfl

end Cidr

/-- The pattern of the block that a text denotes. -/
def compile (text : String) (options : Options) : Except CidrError Pattern :=
  Id.run (compileWith Fragment.freshHextets text options).run

/-- The patterns, one for each merged row, of the block that a text denotes. -/
def compileEach (text : String) (options : Options) : Except CidrError (List Pattern) :=
  Id.run (compileEachWith Fragment.freshHextets text options).run

/-- The merged rows of the block that a text denotes. -/
def patternSet (text : String) (options : Options) : Except CidrError PatternSet :=
  Id.run (patternSetWith Fragment.freshHextets text options).run

/-- The pattern of a block that is known to fit its family. -/
def Net.compile (net : Net) (options : Options) : Except CidrError Pattern :=
  Id.run (net.compileWith Fragment.freshHextets options).run

theorem compile_eq_bind (text : String) (options : Options) :
    compile text options = Cidr.parse text >>= (·.compile options) := by
  rw [compile, compileWith]
  cases Cidr.parse text <;> rfl

theorem compileEach_eq_bind (text : String) (options : Options) :
    compileEach text options =
      Cidr.parse text >>= fun cidr => Pattern.eachRow (cidr.patternSet options) options := by
  rw [compileEach, compileEachWith]
  cases Cidr.parse text <;> rfl

theorem patternSet_eq_bind (text : String) (options : Options) :
    patternSet text options = Cidr.parse text >>= fun cidr => pure (cidr.patternSet options) := by
  rw [patternSet, patternSetWith]
  cases Cidr.parse text <;> rfl

end NetPattern
