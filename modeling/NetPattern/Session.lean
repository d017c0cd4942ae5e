import NetPattern.Pattern

/-!
# Sessions

A session answers a series of calls and keeps the fragment of every range of hextets that it has
been asked for. The answers are those of the library itself; only the number of fragments kept
depends on what was called before.
-/

namespace NetPattern

/-- The fragments kept, each under the bounds of its range. -/
abbrev Memo := List ((Nat × Nat) × Fragment)

/-- The fragment of a range of hextets: the one kept, or a new one that is kept from now on. -/
def Memo.ask (low high : Nat) : StateM Memo Fragment := do
  match (← get).lookup (low, high) with
  | some fragment => return fragment
  | none =>
      let fragment := Fragment.hextetRange low high
      modify (((low, high), fragment) :: ·)
      return fragment

/-- A call of the library. -/
inductive Call
  | parse (text : String)
  | compile (text : String) (options : Options)
  | compileEach (text : String) (options : Options)
  | compileNet (net : Net) (options : Options)
  | compileCidr (cidr : Cidr) (options : Options)
  | patternSet (text : String) (options : Options)
  | decompose (family : Family) (first last : Nat) (options : Options)

/-- What a call returns. -/
inductive Answer
  | cidr (result : Except CidrError Cidr)
  | pattern (result : Except CidrError Pattern)
  | patterns (result : Except CidrError (List Pattern))
  | set (result : Except CidrError PatternSet)
  /-- A range with its rows before and after they are merged, if the bounds make a range. -/
  | sets (result : Option (Range × PatternSet × PatternSet))

namespace Call

/-- What the library returns for a call. -/
def answer : Call → Answer
  | parse text => .cidr (Cidr.parse text)
  | compile text options => .pattern (NetPattern.compile text options)
  | compileEach text options => .patterns (NetPattern.compileEach text options)
  | compileNet net options => .pattern (net.compile options)
  | compileCidr cidr options => .pattern (cidr.compile options)
  | patternSet text options => .set (NetPattern.patternSet text options)
  | decompose family first last options => .sets (PatternSet.stages? family first last options)

/-- What the library returns for a call where the fragments of hextets are asked for. -/
def performWith {m : Type → Type} [Monad m] (ask : Nat → Nat → m Fragment) : Call → m Answer
  | parse text => return .cidr (Cidr.parse text)
  | compile text options => return .pattern (← (compileWith ask text options).run)
  | compileEach text options => return .patterns (← (compileEachWith ask text options).run)
  | compileNet net options => return .pattern (← (net.compileWith ask options).run)
  | compileCidr cidr options => return .pattern (← (cidr.compileWith ask options).run)
  | patternSet text options => return .set (← (patternSetWith ask text options).run)
  | decompose family first last options =>
      return .sets (← PatternSet.stagesWith? ask family first last options)

/-- What a session returns for a call. -/
def perform (call : Call) : StateM Memo Answer :=
  call.performWith Memo.ask

end Call

namespace Session

/-- The answers to a series of calls, each with the number of fragments kept after it. -/
def answers : List Call → Memo → List (Answer × Nat)
  | [], _ => []
  | call :: rest, memo =>
      let (answer, next) := call.perform.run memo
      (answer, next.length) :: answers rest next

/-- The answers of a session that starts with nothing kept. -/
def run (calls : List Call) : List (Answer × Nat) :=
  answers calls []

end Session

end NetPattern
