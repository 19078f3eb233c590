import Backtrack.Config.Compile
import Backtrack.Config.Json
import Backtrack.Fixture.Document
import Backtrack.Search.Match

/-!
# Fixtures

A fixture is a rule with the verdicts that it should give, written as a document. Where a document wants a text, any
scalar is taken as it is written; where it wants a truth value, nothing else will do.
-/

set_option autoImplicit false

namespace Backtrack

open Json (Value)

structure TestCase where
  name : Option String
  input : String
  expect : Bool
  deriving DecidableEq

structure Fixture where
  name : String
  description : String
  rule : Config
  cases : List TestCase
  /-- The rule should not compile. -/
  expectError : Bool
  deriving DecidableEq

structure CaseResult where
  label : String
  expected : Bool
  actual : Bool
  deriving DecidableEq

def CaseResult.passed (result : CaseResult) : Bool := result.actual == result.expected

/-- Why a fixture is not kept. -/
inductive FixtureFailure where
  /-- The rule compiled against expectation. It is given as it is shown. -/
  | compiled (rule : String)
  | notCompiled (error : RuleError)
  /-- The first case that failed. -/
  | failed (result : CaseResult)
  deriving DecidableEq

namespace Fixture

/-! ## Loading -/

def text? : Value → Option String
  | .string s => some s
  | .array _ => none
  | .object _ => none
  | v => some (String.ofList v.text)

def truth? : Value → Option Bool
  | .truth b => some b
  | _ => none

def members? : Value → Option (List (String × Value))
  | .object members => some members
  | _ => none

/-- A field that may be missing or null. -/
def optionalText? (members : List (String × Value)) (name : String) : Option (Option String) :=
  match members.lookup name with
  | none => some none
  | some .null => some none
  | some v => (text? v).map some

def caseOfValue? (v : Value) : Option TestCase := do
  let members ← members? v
  let name ← optionalText? members "name"
  let input ← text? (← members.lookup "input")
  let expect ← truth? (← members.lookup "expect")
  return ⟨name, input, expect⟩

def casesOfValue? : Value → Option (List TestCase)
  | .array vs => vs.mapM caseOfValue?
  | _ => none

def ofValue? (v : Value) : Option Fixture := do
  let members ← members? (← Document.value? v)
  let name ← text? (← members.lookup "name")
  let description ← text? (← members.lookup "description")
  let rule ← (Config.ofTokens (← members.lookup "rule").tokens).toOption
  let cases ← match members.lookup "cases" with
    | none => some []
    | some v => casesOfValue? v
  let expectError ← match members.lookup "expect_error" with
    | none => some false
    | some v => truth? v
  return ⟨name, description, rule, cases, expectError⟩

/-- The fixtures of a text of several documents. A text without documents still holds one, which is empty and so no
fixture. -/
def ofDocuments? : List Value → Option (List Fixture)
  | [] => none
  | documents => documents.mapM ofValue?

/-- The fixtures of a text that should hold one document. -/
def ofDocument? : List Value → Option (List Fixture)
  | [document] => (ofValue? document).map ([·])
  | _ => none

/-! ## Running -/

end Fixture

/-- A case goes by its name, or by its quoted input. -/
def TestCase.label (case : TestCase) : String := case.name.getD (Text.quoteString case.input)

namespace Fixture

def runCase (rule : Rule Unit) (case : TestCase) : CaseResult where
  label := case.label
  expected := case.expect
  actual := ((rule.isMatch case.input.toList).run ()).1

/-- The results of all cases, unless the rule does not compile. -/
def run (f : Fixture) : Except RuleError (List CaseResult) := do
  let rule ← f.rule.compile
  return f.cases.map (runCase rule)

/-- The first thing that goes against the fixture. Where the rule should not compile, the cases do not count. -/
def failure? (f : Fixture) : Option FixtureFailure :=
  match (f.rule.compile : Except RuleError (Rule Unit)) with
  | .error e => if f.expectError then none else some (.notCompiled e)
  | .ok rule =>
    if f.expectError then some (.compiled (rule.display ()))
    else ((f.cases.map (runCase rule)).find? (!·.passed)).map .failed

def failureMessage (f : Fixture) : FixtureFailure → String
  | .compiled rule => s!"Fixture '{f.name}' expected a compile error, got {rule}"
  | .notCompiled e => s!"Fixture '{f.name}' failed to compile: {e.message}"
  | .failed result =>
    s!"Fixture '{f.name}' case {result.label} failed: expected {result.expected}, got {result.actual}"

end Fixture

end Backtrack
