import GraphQL.Span

/-!
Diagnostics: what is wrong with a source, and where. A bag keeps diagnostics in
the order in which they were found.
-/

namespace GraphQL

inductive Severity
  | error
  | warning
  deriving DecidableEq, Repr

def Severity.word : Severity → String
  | .error => "error"
  | .warning => "warning"

/-- What a diagnostic is about, as a stable code. -/
inductive DiagnosticCode
  | unexpectedToken
  | unexpectedEnd
  | invalidSource
  | unterminatedString
  | fragmentVariables
  | fragmentConflict
  | other (code : String)
  deriving DecidableEq, Repr

def DiagnosticCode.word : DiagnosticCode → String
  | .unexpectedToken => "E0001"
  | .unexpectedEnd => "E0002"
  | .invalidSource => "E0003"
  | .unterminatedString => "E0004"
  | .fragmentVariables => "E0005"
  | .fragmentConflict => "W0001"
  | .other code => code

/-- A remark on one span of the source. -/
structure Label where
  span : Span
  message : String
  deriving DecidableEq, Repr

structure Diagnostic where
  severity : Severity
  code : DiagnosticCode
  title : String
  labels : List Label
  deriving DecidableEq, Repr

namespace Diagnostic

/-- An error with one label. -/
def error (code : DiagnosticCode) (title : String) (span : Span) (message : String) :
    Diagnostic :=
  ⟨.error, code, title, [⟨span, message⟩]⟩

/-- A warning about no place in particular. -/
def warning (code : DiagnosticCode) (title : String) : Diagnostic :=
  ⟨.warning, code, title, []⟩

def primary? (d : Diagnostic) : Option Label := d.labels.head?

def isError (d : Diagnostic) : Bool := d.severity == .error

def display (d : Diagnostic) : String :=
  s!"{d.severity.word}[{d.code.word}]: {d.title}"

end Diagnostic

/-- Diagnostics in the order in which they were found. -/
structure DiagnosticBag where
  toList : List Diagnostic := []
  deriving DecidableEq, Repr

namespace DiagnosticBag

def empty : DiagnosticBag := ⟨[]⟩

def add (bag : DiagnosticBag) (d : Diagnostic) : DiagnosticBag :=
  ⟨bag.toList ++ [d]⟩

def length (bag : DiagnosticBag) : Nat := bag.toList.length

def isEmpty (bag : DiagnosticBag) : Bool := bag.toList.isEmpty

def errors (bag : DiagnosticBag) : List Diagnostic :=
  bag.toList.filter Diagnostic.isError

def hasErrors (bag : DiagnosticBag) : Bool := !bag.errors.isEmpty

def firstError? (bag : DiagnosticBag) : Option Diagnostic := bag.errors.head?

end DiagnosticBag
end GraphQL
