import GraphQL.Diagnostic
import GraphQL.Token

/-!
What can be wrong with a list of lexemes, and how it is reported. A source has
at most one fault, since reading stops at the first.
-/

namespace GraphQL

namespace Lexeme

/-- How a message shows the lexeme that was found. -/
def describe (l : Lexeme) : String :=
  match l.kind with
  | .endOfInput => l.kind.label
  | .name | .int | .float => l.kind.label ++ " \"" ++ l.text ++ "\""
  | .string | .blockString => l.kind.label ++ " " ++ l.text
  | .keyword _ => TokenKind.name.label ++ " \"" ++ l.text ++ "\""
  | .punctuator _ | .invalid | .unterminated => "\"" ++ l.text ++ "\""

/-- Does the text start as a number does? -/
def looksNumeric (l : Lexeme) : Bool :=
  match l.text.toList with
  | [] => false
  | c :: _ => c == '-' || c.isDigit

end Lexeme

/-- How a message shows the kind that was wanted. -/
def TokenKind.describe (k : TokenKind) : String :=
  match k with
  | .name | .endOfInput => k.label
  | _ => "\"" ++ k.label ++ "\""

inductive Fault
  /-- Nothing that can stand here starts with this lexeme. -/
  | unexpected (found : Lexeme)
  /-- Only one kind can stand here, and this lexeme is not of it. -/
  | expected (wanted : TokenKind) (found : Lexeme)
  /-- A description in front of something that takes none. -/
  | strayDescription
  /-- Variables on a fragment, where they are not allowed. -/
  | fragmentVariables
  /-- An escape in a string that stands for nothing. -/
  | invalidEscape (escape : String)
  /-- An enum value with the name of another kind of value. -/
  | reservedEnumValue (name : String)
  deriving DecidableEq, Repr

namespace Fault

def code : Fault → DiagnosticCode
  | unexpected l | expected _ l =>
      match l.kind with
      | .endOfInput => .unexpectedEnd
      | .unterminated => .unterminatedString
      | .invalid => .invalidSource
      | _ => .unexpectedToken
  | strayDescription | invalidEscape _ | reservedEnumValue _ => .invalidSource
  | fragmentVariables => .fragmentVariables

/-- The title for a lexeme that is not even well formed. -/
def malformed? (l : Lexeme) : Option String :=
  match l.kind with
  | .unterminated => some "Unterminated string."
  | .invalid =>
      if l.looksNumeric then some ("Invalid number \"" ++ l.text ++ "\".")
      else some ("Unexpected character: \"" ++ l.text ++ "\".")
  | _ => none

def title : Fault → String
  | unexpected l =>
      (malformed? l).getD ("Unexpected " ++ l.describe ++ ".")
  | expected wanted l =>
      (malformed? l).getD ("Expected " ++ wanted.describe ++ ", found " ++ l.describe ++ ".")
  | strayDescription =>
      "Unexpected description, descriptions are supported only on type definitions."
  | fragmentVariables => "Expected \"on\", found \"(\"."
  | invalidEscape escape => "Invalid character escape sequence: \"" ++ escape ++ "\"."
  | reservedEnumValue name =>
      "Name \"" ++ name ++ "\" is reserved and cannot be used for an enum value."

/-- The remark on the span of the fault. -/
def remark : Fault → String
  | unexpected l =>
      match l.kind with
      | .endOfInput => "unexpected end of input"
      | .unterminated => "string starts here"
      | .invalid => "invalid token"
      | _ => "unexpected token"
  | expected wanted l =>
      match l.kind with
      | .unterminated => "string starts here"
      | .invalid => "invalid token"
      | _ => "expected " ++ wanted.describe
  | strayDescription => "description"
  | fragmentVariables => "fragment variables require legacy fragment variable parsing"
  | invalidEscape _ => "invalid escape"
  | reservedEnumValue _ => "reserved name"

end Fault

/-- A fault, met when `position` lexemes had been read. -/
structure SyntaxError where
  position : Nat
  fault : Fault
  deriving DecidableEq, Repr

/-- The index of the lexeme at fault: a stray description is the lexeme before
the one that makes it stray. -/
def SyntaxError.culprit (e : SyntaxError) : Nat :=
  match e.fault with
  | .strayDescription => e.position - 1
  | _ => e.position

end GraphQL
