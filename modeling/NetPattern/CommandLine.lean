import NetPattern.Pattern

/-!
# The command line

The arguments are flags, which may stand anywhere, and CIDR blocks. The source of each pattern is
written on a line of its own; a block that fails is reported and does not affect the others.
-/

namespace NetPattern.CommandLine

/-- What the flags and the other arguments ask for. -/
structure Request where
  all : Bool := false
  options : Options := {}
  cidrs : List String := []
deriving DecidableEq, Repr

/-- The request with one more argument: any that is no flag is taken as a block. -/
def Request.add (request : Request) (argument : String) : Request :=
  if argument = "--all" then { request with all := true }
  else if argument = "--unanchored" then
    { request with options := { request.options with anchored := false } }
  else if argument = "--ignore-case" then
    { request with options := { request.options with ignoreCase := true } }
  else if argument = "--leading-zeros" then
    { request with options := { request.options with leadingZeros := true } }
  else { request with cidrs := request.cidrs ++ [argument] }

/-- The request that a list of arguments makes. -/
def Request.ofArguments (arguments : List String) : Request :=
  arguments.foldl Request.add {}

/-- What a run writes, and the code it ends with. -/
structure Outcome where
  code : Nat
  output : String
  errors : String
deriving DecidableEq, Repr

/-- What is written where no block is given. -/
def usage : String :=
  "usage: cidrex [--all] [--unanchored] [--ignore-case] [--leading-zeros] <cidr>...\n"

/-- The sources of the patterns of one block. -/
def sources (request : Request) (cidr : String) : Except CidrError (List String) :=
  if request.all then (compileEach cidr request.options).map (·.map Pattern.source)
  else (compile cidr request.options).map fun pattern => [pattern.source]

/-- What is written for one block, and the code of a run with it alone. -/
def runOne (request : Request) (cidr : String) : Outcome :=
  match sources request cidr with
  | .ok lines => ⟨0, String.join (lines.map (· ++ "\n")), ""⟩
  | .error e => ⟨1, "", cidr ++ ": " ++ e.message ++ "\n"⟩

/-- One outcome and then another; the code tells whether any failed. -/
def Outcome.andThen (first second : Outcome) : Outcome :=
  ⟨max first.code second.code, first.output ++ second.output, first.errors ++ second.errors⟩

/-- The outcome of a run. -/
def run (arguments : List String) : Outcome :=
  let request := Request.ofArguments arguments
  match request.cidrs with
  | [] => ⟨2, "", usage⟩
  | cidrs => (cidrs.map (runOne request)).foldl Outcome.andThen ⟨0, "", ""⟩

end NetPattern.CommandLine
