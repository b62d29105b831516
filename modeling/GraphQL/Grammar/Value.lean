import GraphQL.Grammar.Parser
import GraphQL.Text.Block
import GraphQL.Text.Quoted

/-!
Names, values, arguments, directives and type references. In a constant context
no variable can stand for a value, at any depth.
-/

namespace GraphQL.Grammar

def name : Parser Name := spanned do
  let l ← expectName
  return fun span => ⟨l.text, span⟩

/-- A string or block string. A string with an invalid escape is not read. -/
def stringValueNode : Parser StringValue := spanned do
  let l ← current
  match l.kind with
  | .blockString =>
      let _ ← expect .blockString
      return fun span => ⟨blockStringValue l.text, true, span⟩
  | .string =>
      match stringValue l.text with
      | .ok value =>
          let _ ← expect .string
          return fun span => ⟨value, false, span⟩
      | .error escape => fail fun _ => .invalidEscape escape
  | _ => unexpected

/-- Does a string or block string come next? -/
def seesString : Parser Bool := do
  match (← current).kind with
  | .string | .blockString => return true
  | _ => return false

/-- A description, if one stands here. -/
def description : Parser (Option StringValue) := onlyIf seesString stringValueNode

/-! ### Values -/

/-- A name, a colon and a value. -/
def argumentOf (value : Parser Value) : Parser Argument := spanned do
  let n ← name
  let _ ← expect (.punctuator .colon)
  let v ← value
  return fun span => ⟨n, v, span⟩

/-- A value, given the parser for the values inside it. -/
def valueBody (const : Bool) (inner : Parser Value) : Parser Value := do
  let l ← current
  match l.kind with
  | .punctuator .dollar =>
      if const then unexpected
      else
        let _ ← expect (.punctuator .dollar)
        return .variable (← name)
  | .int => spanned do
      let l ← expect .int
      return .int l.text
  | .float => spanned do
      let l ← expect .float
      return .float l.text
  | .string | .blockString => return .string (← stringValueNode)
  | .keyword .trueWord => spanned do
      let _ ← expect (.keyword .trueWord)
      return .boolean true
  | .keyword .falseWord => spanned do
      let _ ← expect (.keyword .falseWord)
      return .boolean false
  | .keyword .nullWord => spanned do
      let _ ← expect (.keyword .nullWord)
      return .null
  | .punctuator .bracketOpen => spanned do
      let _ ← expect (.punctuator .bracketOpen)
      return .list (← upTo (.punctuator .bracketClose) inner)
  | .punctuator .braceOpen => spanned do
      let _ ← expect (.punctuator .braceOpen)
      return .object (← upTo (.punctuator .braceClose) (argumentOf inner))
  | .name | .keyword _ => return .enum (← name)
  | _ => unexpected

def value (const : Bool) : Parser Value := fix (valueBody const)

def arguments (const : Bool) : Parser (List Argument) :=
  optionalMany (.punctuator .parenOpen) (.punctuator .parenClose) (argumentOf (value const))

def directive (const : Bool) : Parser Directive := spanned do
  let _ ← expect (.punctuator .atSign)
  let n ← name
  let args ← arguments const
  return fun span => ⟨n, args, span⟩

def directives (const : Bool) : Parser (List Directive) :=
  whileSees (.punctuator .atSign) (directive const)

/-! ### Types -/

/-- A type without an exclamation mark after it, given the parser for the item
type of a list. -/
def nullableTypeRef (inner : Parser TypeRef) : Parser TypeRef := do
  if ← sees (.punctuator .bracketOpen) then
    spanned do
      let _ ← expect (.punctuator .bracketOpen)
      let item ← inner
      let _ ← expect (.punctuator .bracketClose)
      return .list item
  else return .named (← name)

/-- A type reference, given the parser for the item type of a list. -/
def typeRefBody (inner : Parser TypeRef) : Parser TypeRef := do
  let start ← position
  let base ← nullableTypeRef inner
  if ← accept (.punctuator .bang) then
    let stop ← position
    return .nonNull base (some ⟨start, stop⟩)
  else return base

def typeRef : Parser TypeRef := fix typeRefBody

end GraphQL.Grammar
