import GraphQL.Grammar.Executable

/-!
Definitions and extensions of the type system. Values in them are constant.
-/

namespace GraphQL.Grammar

/-! ### Members of types -/

def inputValueDefinition : Parser InputValueDefinition := spanned do
  let about ← description
  let n ← name
  let _ ← expect (.punctuator .colon)
  let type ← typeRef
  let default ← after (.punctuator .equals) (value true)
  let dirs ← directives true
  return fun span => ⟨about, n, type, default, dirs, span⟩

def argumentDefinitions : Parser (List InputValueDefinition) :=
  optionalMany (.punctuator .parenOpen) (.punctuator .parenClose) inputValueDefinition

def fieldDefinition : Parser FieldDefinition := spanned do
  let about ← description
  let n ← name
  let args ← argumentDefinitions
  let _ ← expect (.punctuator .colon)
  let type ← typeRef
  let dirs ← directives true
  return fun span => ⟨about, n, args, type, dirs, span⟩

/-- Names that an enum value cannot have. -/
def isReserved (kind : TokenKind) : Bool :=
  kind == .keyword .trueWord || kind == .keyword .falseWord || kind == .keyword .nullWord

def enumValueDefinition : Parser EnumValueDefinition := spanned do
  let about ← description
  let l ← current
  if isReserved l.kind then fail fun l => .reservedEnumValue l.text
  else
    let n ← name
    let dirs ← directives true
    return fun span => ⟨about, n, dirs, span⟩

/-- Items between braces, or nothing at all. -/
def optionalBlock {α : Type} (item : Parser α) : Parser (List α) :=
  optionalMany (.punctuator .braceOpen) (.punctuator .braceClose) item

/-- The names after a lexeme, with another between any two, or none at all. -/
def namesAfter (kind separator : TokenKind) : Parser (List Name) := do
  return (← after kind (separatedBy separator name)).getD []

def interfaces : Parser (List Name) :=
  namesAfter (.keyword .implements) (.punctuator .ampersand)

/-! ### Definitions -/

def operationTypeDefinition : Parser OperationTypeDefinition := spanned do
  let type ← operationType
  let _ ← expect (.punctuator .colon)
  let n ← name
  return fun span => ⟨type, n, span⟩

/-- The operations of a schema. An extension may be without them. -/
def schemaOperations (extend : Bool) : Parser (List OperationTypeDefinition) :=
  if extend then optionalBlock operationTypeDefinition
  else many (.punctuator .braceOpen) (.punctuator .braceClose) operationTypeDefinition

/-- A schema after its description. -/
def schema (about : Option StringValue) (extend : Bool) :
    Parser (Option Span → SchemaDefinition) := do
  let _ ← expect (.keyword .schema)
  let dirs ← directives true
  let ops ← schemaOperations extend
  return fun span => ⟨about, extend, dirs, ops, span⟩

/-- What follows the name of an object type or interface. -/
def fieldsBody (body : List Name → List FieldDefinition → TypeBody) :
    Parser (List Directive × TypeBody) := do
  let implemented ← interfaces
  let dirs ← directives true
  let fields ← optionalBlock fieldDefinition
  return (dirs, body implemented fields)

/-- The keywords that start a type definition. -/
def isTypeKeyword : Keyword → Bool
  | .scalar | .type | .interface | .union | .enum | .input => true
  | _ => false

/-- What follows the name of a type that was introduced by a keyword. -/
def typeBody : Keyword → Parser (List Directive × TypeBody)
  | .scalar => do return (← directives true, .scalar)
  | .type => fieldsBody .object
  | .interface => fieldsBody .interface
  | .union => do
      let dirs ← directives true
      return (dirs, .union (← namesAfter (.punctuator .equals) (.punctuator .pipe)))
  | .enum => do
      let dirs ← directives true
      return (dirs, .enum (← optionalBlock enumValueDefinition))
  | .input => do
      let dirs ← directives true
      return (dirs, .input (← optionalBlock inputValueDefinition))
  | _ => unexpected

/-- A type after its description. -/
def typeDefinition (about : Option StringValue) (extend : Bool) (k : Keyword) :
    Parser (Option Span → TypeDefinition) := do
  let _ ← expect (.keyword k)
  let n ← name
  let (dirs, body) ← typeBody k
  return fun span => ⟨about, extend, n, dirs, body, span⟩

def directiveLocation : Parser DirectiveLocation := do
  let l ← current
  if l.kind.isName then
    match DirectiveLocation.ofWord? l.text with
    | some location =>
        let _ ← expectName
        return location
    | none => unexpected
  else fail (.expected .name)

/-- A directive definition after its description. -/
def directiveDefinition (about : Option StringValue) :
    Parser (Option Span → DirectiveDefinition) := do
  let _ ← expect (.keyword .directive)
  let _ ← expect (.punctuator .atSign)
  let n ← name
  let args ← argumentDefinitions
  let repeatable ← accept (.keyword .repeatable)
  let _ ← expect (.keyword .on)
  let locations ← separatedBy (.punctuator .pipe) directiveLocation
  return fun span => ⟨about, n, args, repeatable, locations, span⟩

end GraphQL.Grammar
