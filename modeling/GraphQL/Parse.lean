import GraphQL.Document.Spans
import GraphQL.Grammar.Definition
import GraphQL.Lexer
import GraphQL.LineIndex

/-!
From a source to a document. The lexemes of the source are read by the grammar,
and then every interval of lexemes is replaced by the bytes that it covers.
-/

namespace GraphQL

structure ParseOptions where
  /-- Whether a fragment may have variables. -/
  legacyFragmentVariables : Bool := false
  deriving DecidableEq, Repr

/-! ### Placing lexemes in the source -/

/-- The offset at which the lexeme with an index starts. -/
def startOf (tokens : Array Token) (index : Nat) : Nat :=
  match tokens[index]? with
  | some t => t.span.start
  | none => 0

/-- The offset at which the first `count` lexemes end: zero for none. -/
def endOf (tokens : Array Token) : Nat → Nat
  | 0 => 0
  | count + 1 =>
      match tokens[count]? with
      | some t => t.span.stop
      | none => 0

/-- The bytes that an interval of lexemes covers. -/
def placeSpan (tokens : Array Token) (s : Span) : Span :=
  ⟨startOf tokens s.start, endOf tokens s.stop⟩

/-- The report of a fault, on the lexeme that is to blame. -/
def SyntaxError.diagnostic (tokens : Array Token) (e : SyntaxError) : Diagnostic :=
  .error e.fault.code e.fault.title
    (placeSpan tokens ⟨e.culprit, e.culprit + 1⟩) e.fault.remark

/-! ### Parsing -/

/-- A document, complete if there is no diagnostic. Otherwise it holds the
definitions before the fault. -/
structure ParseResult where
  document : Document
  diagnostics : DiagnosticBag

/-- The document, or else the first error. -/
def ParseResult.toExcept (r : ParseResult) : Except Diagnostic Document :=
  match r.diagnostics.firstError? with
  | some d => .error d
  | none => .ok r.document

/-- Reads a source. -/
def parse (options : ParseOptions) (source : String) : ParseResult :=
  let tokens := tokenize source
  let placed := tokens.toArray
  let reading :=
    Grammar.read options.legacyFragmentVariables (tokens.dropLast.map Token.toLexeme)
  { document :=
      { definitions := reading.definitions.map (·.mapSpans (Option.map (placeSpan placed))),
        location := some ⟨some ⟨0, endOf placed reading.consumed⟩, source⟩ }
    diagnostics := ⟨(reading.error?.map (·.diagnostic placed)).toList⟩ }

/-- A source that is no document: why, and where. -/
structure ParseError where
  code : DiagnosticCode
  title : String
  position : Option Position
  source : String
  label : Option Label
  deriving DecidableEq, Repr

namespace ParseError

/-- The place of a diagnostic is where its first label starts. -/
def ofDiagnostic (d : Diagnostic) (source : String) : ParseError :=
  { code := d.code
    title := d.title
    position := d.primary?.map fun l => (LineIndex.ofSource source).position l.span.start
    source := source
    label := d.primary? }

def message (e : ParseError) : String := "Syntax Error: " ++ e.title

/-- The name under which such errors are reported. -/
def diagnosticCode : String := "gqltag::syntax_error"

end ParseError

/-- Reads a source that must be a document. -/
def parseDocument (options : ParseOptions) (source : String) : Except ParseError Document :=
  match (parse options source).toExcept with
  | .ok d => .ok d
  | .error d => .error (.ofDiagnostic d source)

end GraphQL
