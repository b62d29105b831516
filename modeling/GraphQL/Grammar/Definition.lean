import GraphQL.Grammar.TypeSystem

/-!
Definitions of all kinds, and documents as lists of them. Reading a document
stops at its first fault and keeps the definitions before it.
-/

namespace GraphQL.Grammar

/-- Does a definition say nothing? For an extension that is a fault. -/
def isEmptyExtension : Definition → Bool
  | .schema d => d.directives.isEmpty && d.operations.isEmpty
  | .type d => d.directives.isEmpty && d.body.isEmpty
  | _ => false

/-- What follows `extend`. -/
def extended : Parser (Option Span → Definition) := do
  match (← current).kind with
  | .keyword .schema =>
      let build ← schema none true
      return fun span => .schema (build span)
  | .keyword k =>
      if isTypeKeyword k then
        let build ← typeDefinition none true k
        return fun span => .type (build span)
      else unexpected
  | _ => unexpected

/-- An extension, which must add something. -/
def extension : Parser (Option Span → Definition) := do
  let _ ← expect (.keyword .extend)
  let build ← extended
  if isEmptyExtension (build none) then unexpected else return build

/-- The keywords that start a definition without a description. -/
def takesNoDescription : Keyword → Bool
  | .query | .mutation | .subscription | .fragment | .extend => true
  | _ => false

/-- A definition that a keyword introduces, after its description. -/
def keywordDefinition (variablesAllowed : Bool) (about : Option StringValue) (k : Keyword) :
    Parser (Option Span → Definition) := do
  if about.isSome ∧ takesNoDescription k then fail fun _ => .strayDescription
  else
    match k with
    | .query | .mutation | .subscription =>
        let build ← operation
        return fun span => .operation (build span)
    | .fragment =>
        let build ← fragment variablesAllowed
        return fun span => .fragment (build span)
    | .schema =>
        let build ← schema about false
        return fun span => .schema (build span)
    | .directive =>
        let build ← directiveDefinition about
        return fun span => .directive (build span)
    | .extend => extension
    | k =>
        if isTypeKeyword k then
          let build ← typeDefinition about false k
          return fun span => .type (build span)
        else unexpected

/-- A definition. Its span includes the description in front of it. -/
def definition (variablesAllowed : Bool) : Parser Definition := spanned do
  if ← sees (.punctuator .braceOpen) then
    let build ← shorthandQuery
    return fun span => .operation (build span)
  else
    let about ← description
    match (← current).kind with
    | .keyword k => keywordDefinition variablesAllowed about k
    | _ => unexpected

/-- Definitions up to the end of the input or the first fault, given the parser
for those after the first. -/
def definitionsBody (variablesAllowed : Bool)
    (again : Parser (List Definition × Option SyntaxError)) :
    Parser (List Definition × Option SyntaxError) := do
  match ← attempt (definition variablesAllowed) with
  | .error e => return ([], some e)
  | .ok d =>
      if ← sees .endOfInput then return ([d], none)
      else
        let (ds, e) ← again
        return (d :: ds, e)

/-- The definitions up to the end of the input or the first fault. There must be
at least one. -/
def definitions (variablesAllowed : Bool) : Parser (List Definition × Option SyntaxError) :=
  fix (definitionsBody variablesAllowed)

/-- What was read from a list of lexemes. Spans count lexemes. -/
structure Reading where
  definitions : List Definition
  error? : Option SyntaxError
  /-- How many lexemes were read before the end or the fault. -/
  consumed : Nat

/-- Reads a list of lexemes. The end of the input is not in the list. -/
def read (variablesAllowed : Bool) (lexemes : List Lexeme) : Reading :=
  match definitions variablesAllowed ⟨0, lexemes⟩ with
  | .ok ((ds, none), c) => ⟨ds, none, c.position⟩
  | .ok ((ds, some e), _) => ⟨ds, some e, e.position⟩
  | .error e => ⟨[], some e, e.position⟩

end GraphQL.Grammar
