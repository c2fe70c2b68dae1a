import Promscale.Lib.Pieces
import Promscale.Lib.Regex

/-!
# Reading the output of pgTAP

`src/pgtap-parse/src/lib.rs`. Every line is tried as a plan first. What is no plan is cut at the
boundaries of table columns, and each piece may be a result.
-/
namespace Promscale.PgTap

open Promscale.Lib

inductive TestResult where
  | pass | fail
  deriving DecidableEq, Repr

structure PgTapTest where
  testName : List Char
  testResult : TestResult
  deriving DecidableEq, Repr

structure PgTapResult where
  plannedTestCount : Nat
  executedTestCount : Nat
  successCount : Nat
  testResults : List PgTapTest
  deriving DecidableEq, Repr

inductive IntErrorKind where
  | empty | invalidDigit | posOverflow
  deriving DecidableEq, Repr

/-- `Option::unwrap`, `Result::unwrap` and `todo!`. -/
inductive Panic where
  | unwrapNone
  | unwrapErr (e : IntErrorKind)
  | todo
  deriving DecidableEq, Repr

/-- `usize` has 64 bits. -/
def USIZE_BOUND : Nat := 18446744073709551616

def parseDigits : Nat → List Char → Except IntErrorKind Nat
  | n, [] => .ok n
  | n, c :: cs =>
    if ¬ c.isDigit then .error .invalidDigit
    else if 10 * n + (c.toNat - '0'.toNat) < USIZE_BOUND then
      parseDigits (10 * n + (c.toNat - '0'.toNat)) cs
    else .error .posOverflow

/-- `str::parse::<usize>` -/
def parseUsize : List Char → Except IntErrorKind Nat
  | [] => .error .empty
  | ['+'] => .error .invalidDigit
  | '+' :: digits => parseDigits 0 digits
  | digits => parseDigits 0 digits

/-- The named groups of the two patterns. -/
inductive Group where
  | nesting | start | «end» | result | number | name
  deriving DecidableEq, Repr

/-- What the parser uses of the crate `regex`: the classes `\d` and `\s`, and what a search
captures under each name. -/
structure RegexCrate where
  digit : Char → Bool
  space : Char → Bool
  captures : Regex Char Group → List Char → Option (Group → Option (List Char))

/-- The classes are those of Unicode, and of the matches that begin first a search takes the one
that backtracking finds first. -/
structure RegexCrate.Documented (crate : RegexCrate) : Prop where
  digit_ascii : ∀ c : Char, c.toNat < 128 → crate.digit c = c.isDigit
  space_ascii : ∀ c : Char, c.toNat < 128 →
    (crate.space c = true ↔ c ∈ [' ', '\t', '\n', '\x0b', '\x0c', '\r'])
  leftmost_first : ∀ (r : Regex Char Group) (text : List Char), r.proper = true →
    crate.captures r text = (r.search text).map fun t => t.name

section Patterns
variable (crate : RegexCrate)

/-- `.` -/
def dot : Regex Char Group := .oneOf (· ≠ '\n')

/-- `(?P<nesting>\s{4})*` -/
def nestings : Regex Char Group :=
  .star true (.group .nesting (.times 4 (.oneOf crate.space)))

/-- `\d+` -/
def digits : Regex Char Group := .oneOrMore (.oneOf crate.digit)

/-- `.*?(?P<nesting>\s{4})*(?P<start>\d+)\.\.(?P<end>\d+)` -/
def planRe : Regex Char Group :=
  .seq (.star false dot) <| .seq (nestings crate) <|
  .seq (.group .start (digits crate)) <| .seq (.literal ['.', '.']) <|
  .group .end (digits crate)

def OK : List Char := ['o', 'k']

def NOT_OK : List Char := ['n', 'o', 't', ' ', 'o', 'k']

def DASH : List Char := [' ', '-', ' ']

/-- `^.*?(?P<nesting>\s{4})*(?P<result>not ok|ok) (?P<number>\d+)( - )?(?P<name>.*)$` -/
def resultRe : Regex Char Group :=
  .seq .textStart <| .seq (.star false dot) <| .seq (nestings crate) <|
  .seq (.group .result (.alt (.literal NOT_OK) (.literal OK))) <| .seq (.literal [' ']) <|
  .seq (.group .number (digits crate)) <| .seq (.zeroOrOne (.literal DASH)) <|
  .seq (.group .name (.star true dot)) .textEnd

end Patterns

/-- `str::len` -/
def utf8Len : List Char → Nat
  | [] => 0
  | c :: cs => c.utf8Size + utf8Len cs

def nestingLevel (captures : Group → Option (List Char)) : Nat :=
  ((captures .nesting).map fun s => utf8Len s / 4).getD 0

def unwrap {α : Type} : Option α → Except Panic α
  | some a => .ok a
  | none => .error .unwrapNone

def testResultOf (text : List Char) : Except Panic TestResult :=
  if text = OK then .ok .pass else if text = NOT_OK then .ok .fail else .error .todo

variable (crate : RegexCrate)

/-- The result in a piece of a line, unless it belongs to a subtest. -/
def readSubline (subline : List Char) : Except Panic (Option PgTapTest) :=
  match crate.captures (resultRe crate) subline with
  | none => .ok none
  | some captures =>
    if nestingLevel captures > 0 then .ok none
    else do
      let testResult ← testResultOf (← unwrap (captures .result))
      let testName ← unwrap (captures .name)
      return some { testName, testResult }

def pushSubline (testResults : List PgTapTest) (subline : List Char) :
    Except Panic (List PgTapTest) := do
  return testResults ++ (← readSubline crate subline).toList

/-- The variables of the parser while it goes through the lines. -/
structure Seen where
  plannedTestCount : Option Nat
  testResults : List PgTapTest
  deriving DecidableEq, Repr

def SEPARATOR : List Char := [' ', '|', ' ']

def inspectLine (seen : Seen) (line : List Char) : Except Panic Seen :=
  match crate.captures (planRe crate) line with
  | some captures =>
    if nestingLevel captures > 0 then .ok seen
    else do
      let planned ← (parseUsize (← unwrap (captures .end))).mapError .unwrapErr
      return { seen with plannedTestCount := some planned }
  | none => do
    let testResults ← (split SEPARATOR line).foldlM (pushSubline crate) seen.testResults
    return { seen with testResults }

def Seen.result (seen : Seen) (plannedTestCount : Nat) : PgTapResult where
  plannedTestCount := plannedTestCount
  executedTestCount := seen.testResults.length
  successCount := seen.testResults.countP (·.testResult = .pass)
  testResults := seen.testResults

def parsePgtapResult (pgtapOutput : List Char) : Except Panic (Option PgTapResult) := do
  let seen ← (lines pgtapOutput).foldlM (inspectLine crate) ⟨none, []⟩
  return seen.plannedTestCount.map seen.result

end Promscale.PgTap
