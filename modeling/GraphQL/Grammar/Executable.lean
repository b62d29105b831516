import GraphQL.Grammar.Value

/-!
Operations, fragments and what they select.
-/

namespace GraphQL.Grammar

/-! ### Selections -/

/-- A field, given the parser for the selections under it. -/
def field (selectionSet : Parser SelectionSet) : Parser Field := spanned do
  let first ← name
  let second ← after (.punctuator .colon) name
  let args ← arguments false
  let dirs ← directives false
  let set ← onlyIf (sees (.punctuator .braceOpen)) selectionSet
  match second with
  | some n => return fun span => ⟨some first, n, args, dirs, set, span⟩
  | none => return fun span => ⟨none, first, args, dirs, set, span⟩

/-- What follows the three dots: a name other than `on` is that of a fragment,
and anything else starts a fragment written in place. -/
def spread (selectionSet : Parser SelectionSet) : Parser (Option Span → Selection) := do
  let _ ← expect (.punctuator .spread)
  let l ← current
  if l.kind.isName ∧ l.kind ≠ .keyword .on then
    let n ← name
    let dirs ← directives false
    return fun span => .fragmentSpread ⟨n, dirs, span⟩
  else
    let condition ← after (.keyword .on) name
    let dirs ← directives false
    let set ← selectionSet
    return fun span => .inlineFragment ⟨condition, dirs, set, span⟩

def selection (selectionSet : Parser SelectionSet) : Parser Selection := do
  if ← sees (.punctuator .spread) then spanned (spread selectionSet)
  else .field <$> field selectionSet

/-- A selection set, given the parser for the sets inside it. -/
def selectionSetBody (inner : Parser SelectionSet) : Parser SelectionSet := spanned do
  return .mk (← many (.punctuator .braceOpen) (.punctuator .braceClose) (selection inner))

def selectionSet : Parser SelectionSet := fix selectionSetBody

/-! ### Definitions -/

def variableDefinition : Parser VariableDefinition := spanned do
  let _ ← expect (.punctuator .dollar)
  let n ← name
  let _ ← expect (.punctuator .colon)
  let type ← typeRef
  let default ← after (.punctuator .equals) (value true)
  let dirs ← directives true
  return fun span => ⟨n, type, default, dirs, span⟩

def variableDefinitions : Parser (List VariableDefinition) :=
  optionalMany (.punctuator .parenOpen) (.punctuator .parenClose) variableDefinition

def operationType : Parser OperationType := do
  match (← current).kind with
  | .keyword .query =>
      let _ ← expect (.keyword .query)
      return .query
  | .keyword .mutation =>
      let _ ← expect (.keyword .mutation)
      return .mutation
  | .keyword .subscription =>
      let _ ← expect (.keyword .subscription)
      return .subscription
  | _ => unexpected

/-- A selection set alone is a query without a name. -/
def shorthandQuery : Parser (Option Span → OperationDefinition) := do
  let set ← selectionSet
  return fun span => ⟨.query, none, [], [], set, span⟩

def operation : Parser (Option Span → OperationDefinition) := do
  let type ← operationType
  let n ← onlyIf seesName name
  let vars ← variableDefinitions
  let dirs ← directives false
  let set ← selectionSet
  return fun span => ⟨type, n, vars, dirs, set, span⟩

/-- The variables of a fragment, which take an option to be allowed. -/
def fragmentVariables (allowed : Bool) : Parser (Option (List VariableDefinition)) := do
  if ← sees (.punctuator .parenOpen) then
    if allowed then some <$> variableDefinitions else fail fun _ => .fragmentVariables
  else return none

def fragment (variablesAllowed : Bool) : Parser (Option Span → FragmentDefinition) := do
  let _ ← expect (.keyword .fragment)
  if ← sees (.keyword .on) then unexpected
  else
    let n ← name
    let vars ← fragmentVariables variablesAllowed
    let _ ← expect (.keyword .on)
    let condition ← name
    let dirs ← directives false
    let set ← selectionSet
    return fun span => ⟨n, vars, condition, dirs, set, span⟩

end GraphQL.Grammar
