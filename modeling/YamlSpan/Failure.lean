import YamlSpan.Numeral

/-!
# What goes wrong in a text

A failure is a defect of the text: it is recorded in the document it occurs in and reading goes
on behind it.  A fault stops everything: nothing is returned but the fault.

* `Failure.reason`   the text of a failure
* `Failure.index?`   where it happened
* `Fault.message`    the text of a fault
-/

namespace YamlSpan

/-- A place in a named source, counted from zero. -/
structure Place where
  source : String
  index : Int
  line : Nat
  column : Nat
  deriving DecidableEq, Repr

/-- A place as the reports of failures show it, counted from one. -/
def Place.text (p : Place) : String :=
  "  in \"" ++ p.source ++ "\", line " ++ toString (p.line + 1) ++ ", column "
    ++ toString (p.column + 1)

/-- A defect of a text: with the places of a problem and its context, or with a position only. -/
inductive Failure where
  | marked (context : Option String) (contextPlace : Option Place) (problem : Option String)
      (problemPlace : Option Place)
  | unmarked (text : String) (position : Option Int)
  deriving DecidableEq, Repr

namespace Failure

def ofProblem (problem : String) (place : Place) : Failure :=
  .marked none none (some problem) (some place)

/-- Is the context's place on another line or column than the problem's? -/
def isApart (contextPlace problemPlace : Place) : Bool :=
  contextPlace.source != problemPlace.source || contextPlace.line != problemPlace.line
    || contextPlace.column != problemPlace.column

/-- The place of the context where a report shows it: not when the problem stands there too. -/
def shownContext (contextPlace : Option Place) (problem : Option String)
    (problemPlace : Option Place) : Option Place :=
  match contextPlace, problem, problemPlace with
  | some c, some _, some p => if isApart c p then some c else none
  | c, _, _ => c

/-- The whole report: context and problem, each with its place on a line of its own. -/
def report : Failure → String
  | .marked context contextPlace problem problemPlace =>
    "\n".intercalate (context.toList
      ++ ((shownContext contextPlace problem problemPlace).map Place.text).toList
      ++ problem.toList ++ (problemPlace.map Place.text).toList)
  | .unmarked text _ => text

def nonempty (s : Option String) : Option String := s.filter fun s => s != ""

/-- The problem, else the context, else the whole report. -/
def reason (f : Failure) : String :=
  match f with
  | .marked context _ problem _ => ((nonempty problem).or (nonempty context)).getD f.report
  | .unmarked text _ => text

/-- The index of the problem, else of the context. -/
def index? : Failure → Option Int
  | .marked _ contextPlace _ problemPlace => (problemPlace.or contextPlace).map Place.index
  | .unmarked _ position => position

end Failure

/-- What stops everything. -/
inductive Fault where
  | outsideDocument
  | nothingOpen
  | unsupportedVersion (major minor : Nat)
  | numeral (e : Numeral.Error)
  | notCharacter
  | beyondMachineInteger
  deriving DecidableEq, Repr

def Fault.message : Fault → String
  | .outsideDocument => "YAML node event outside of a document"
  | .nothingOpen => "list index out of range"
  | .unsupportedVersion major minor =>
    "version minor part can only be 2 or 1, got (" ++ toString major ++ ", " ++ toString minor
      ++ ")"
  | .numeral e => e.message
  | .notCharacter => "chr() arg not in range(0x110000)"
  | .beyondMachineInteger => "Python int too large to convert to C int"

/-- Why reading stops before the end of a text. -/
inductive Halt where
  | failure (f : Failure)
  | fault (f : Fault)
  deriving DecidableEq, Repr

end YamlSpan
