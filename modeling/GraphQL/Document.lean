import GraphQL.Span

/-!
Documents. Every node may carry the span it was read from; a document whose
spans have been cleared is one that no longer depends on formatting. The
location of a document keeps the source even then.
-/

namespace GraphQL

structure Name where
  value : String
  span : Option Span
  deriving DecidableEq, Repr

/-- The value of a string or block string. -/
structure StringValue where
  value : String
  block : Bool
  span : Option Span
  deriving DecidableEq, Repr

mutual

/-- Values. Numbers keep their text. -/
inductive Value
  | variable (name : Name)
  | int (text : String) (span : Option Span)
  | float (text : String) (span : Option Span)
  | string (value : StringValue)
  | boolean (value : Bool) (span : Option Span)
  | null (span : Option Span)
  | enum (name : Name)
  | list (items : List Value) (span : Option Span)
  | object (fields : List Argument) (span : Option Span)

/-- A name with a value: an argument, or a field of an object value. -/
structure Argument where
  name : Name
  value : Value
  span : Option Span

end

inductive TypeRef
  | named (name : Name)
  | list (item : TypeRef) (span : Option Span)
  | nonNull (item : TypeRef) (span : Option Span)
  deriving DecidableEq, Repr

/-- A directive as it is applied to a node. -/
structure Directive where
  name : Name
  arguments : List Argument
  span : Option Span

/-! ### What is executed -/

inductive OperationType
  | query
  | mutation
  | subscription
  deriving DecidableEq, Repr

def OperationType.word : OperationType → String
  | query => "query"
  | mutation => "mutation"
  | subscription => "subscription"

structure VariableDefinition where
  name : Name
  type : TypeRef
  defaultValue : Option Value
  directives : List Directive
  span : Option Span

structure FragmentSpread where
  name : Name
  directives : List Directive
  span : Option Span

mutual

inductive Selection
  | field (field : Field)
  | fragmentSpread (spread : FragmentSpread)
  | inlineFragment (fragment : InlineFragment)

structure Field where
  aliasName : Option Name
  name : Name
  arguments : List Argument
  directives : List Directive
  selectionSet : Option SelectionSet
  span : Option Span

structure InlineFragment where
  typeCondition : Option Name
  directives : List Directive
  selectionSet : SelectionSet
  span : Option Span

structure SelectionSet where
  selections : List Selection
  span : Option Span

end

structure OperationDefinition where
  operation : OperationType
  name : Option Name
  variableDefinitions : List VariableDefinition
  directives : List Directive
  selectionSet : SelectionSet
  span : Option Span

/-- A fragment. It has variables, possibly none of them, only where it was
written with parentheses. -/
structure FragmentDefinition where
  name : Name
  variableDefinitions : Option (List VariableDefinition)
  typeCondition : Name
  directives : List Directive
  selectionSet : SelectionSet
  span : Option Span

/-! ### The type system -/

inductive DirectiveLocation
  | query
  | mutation
  | subscription
  | field
  | fragmentDefinition
  | fragmentSpread
  | inlineFragment
  | variableDefinition
  | schema
  | scalar
  | object
  | fieldDefinition
  | argumentDefinition
  | interface
  | union
  | enum
  | enumValue
  | inputObject
  | inputFieldDefinition
  deriving DecidableEq, Repr

namespace DirectiveLocation

def word : DirectiveLocation → String
  | query => "QUERY"
  | mutation => "MUTATION"
  | subscription => "SUBSCRIPTION"
  | field => "FIELD"
  | fragmentDefinition => "FRAGMENT_DEFINITION"
  | fragmentSpread => "FRAGMENT_SPREAD"
  | inlineFragment => "INLINE_FRAGMENT"
  | variableDefinition => "VARIABLE_DEFINITION"
  | schema => "SCHEMA"
  | scalar => "SCALAR"
  | object => "OBJECT"
  | fieldDefinition => "FIELD_DEFINITION"
  | argumentDefinition => "ARGUMENT_DEFINITION"
  | interface => "INTERFACE"
  | union => "UNION"
  | enum => "ENUM"
  | enumValue => "ENUM_VALUE"
  | inputObject => "INPUT_OBJECT"
  | inputFieldDefinition => "INPUT_FIELD_DEFINITION"

def all : List DirectiveLocation :=
  [query, mutation, subscription, field, fragmentDefinition, fragmentSpread, inlineFragment,
    variableDefinition, schema, scalar, object, fieldDefinition, argumentDefinition,
    interface, union, enum, enumValue, inputObject, inputFieldDefinition]

def ofWord? (w : String) : Option DirectiveLocation :=
  all.find? (·.word == w)

theorem mem_all (l : DirectiveLocation) : l ∈ all := by
  cases l <;> decide

theorem ofWord?_word (l : DirectiveLocation) : ofWord? l.word = some l := by
  cases l <;> decide

theorem word_of_ofWord? {w : String} {l : DirectiveLocation} (h : ofWord? w = some l) :
    l.word = w := by
  simpa using List.find?_some h

end DirectiveLocation

structure OperationTypeDefinition where
  operation : OperationType
  typeName : Name
  span : Option Span
  deriving DecidableEq, Repr

/-- A schema definition, or an extension of one. -/
structure SchemaDefinition where
  description : Option StringValue
  extend : Bool
  directives : List Directive
  operations : List OperationTypeDefinition
  span : Option Span

/-- An argument of a field or directive, or a field of an input object. -/
structure InputValueDefinition where
  description : Option StringValue
  name : Name
  type : TypeRef
  defaultValue : Option Value
  directives : List Directive
  span : Option Span

structure FieldDefinition where
  description : Option StringValue
  name : Name
  arguments : List InputValueDefinition
  type : TypeRef
  directives : List Directive
  span : Option Span

structure EnumValueDefinition where
  description : Option StringValue
  name : Name
  directives : List Directive
  span : Option Span

/-- What the kinds of types have each for themselves. -/
inductive TypeBody
  | scalar
  | object (interfaces : List Name) (fields : List FieldDefinition)
  | interface (interfaces : List Name) (fields : List FieldDefinition)
  | union (members : List Name)
  | enum (values : List EnumValueDefinition)
  | input (fields : List InputValueDefinition)

/-- The interfaces that a type is declared to implement. -/
def TypeBody.interfaces : TypeBody → List Name
  | object interfaces _ | interface interfaces _ => interfaces
  | _ => []

/-- Does a body declare nothing? -/
def TypeBody.isEmpty : TypeBody → Bool
  | scalar => true
  | object interfaces fields | interface interfaces fields =>
      interfaces.isEmpty && fields.isEmpty
  | union members => members.isEmpty
  | enum values => values.isEmpty
  | input fields => fields.isEmpty

/-- A type definition, or an extension of one. -/
structure TypeDefinition where
  description : Option StringValue
  extend : Bool
  name : Name
  directives : List Directive
  body : TypeBody
  span : Option Span

structure DirectiveDefinition where
  description : Option StringValue
  name : Name
  arguments : List InputValueDefinition
  repeatable : Bool
  locations : List DirectiveLocation
  span : Option Span

/-! ### Documents -/

inductive Definition
  | operation (definition : OperationDefinition)
  | fragment (definition : FragmentDefinition)
  | schema (definition : SchemaDefinition)
  | type (definition : TypeDefinition)
  | directive (definition : DirectiveDefinition)

def Definition.span : Definition → Option Span
  | operation d => d.span
  | fragment d => d.span
  | schema d => d.span
  | type d => d.span
  | directive d => d.span

/-- Where a document was read from. The source outlives the span. -/
structure Location where
  span : Option Span
  source : String
  deriving DecidableEq, Repr

structure Document where
  definitions : List Definition
  location : Option Location

namespace Document

/-- The text that a document was read from. -/
def source? (d : Document) : Option String :=
  d.location.map Location.source

def operations (d : Document) : List OperationDefinition :=
  d.definitions.filterMap fun
    | .operation o => some o
    | _ => none

def fragments (d : Document) : List FragmentDefinition :=
  d.definitions.filterMap fun
    | .fragment f => some f
    | _ => none

end Document
end GraphQL
