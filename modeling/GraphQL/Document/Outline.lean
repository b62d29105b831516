import GraphQL.Document
import GraphQL.Outline

/-!
The outline of a document: every node as a record whose fields stand in the
order of the source.
-/

namespace GraphQL

open Outline

def Span.outline (s : Span) : Outline :=
  record "Span" [("start", number s.start), ("end", number s.stop)]

/-- The outline of a node's span. -/
def spanOutline (s : Option Span) : Outline := optional Span.outline s

def Name.outline (n : Name) : Outline :=
  record "Name" [("value", text n.value), ("span", spanOutline n.span)]

def StringValue.outline (v : StringValue) : Outline :=
  record "StringValue"
    [("value", text v.value), ("block", flag v.block), ("span", spanOutline v.span)]

/-! ### Values -/

mutual

def Value.outline : Value → Outline
  | .variable n => choice "Variable" [n.outline]
  | .int t s => choice "Int" [text t, spanOutline s]
  | .float t s => choice "Float" [text t, spanOutline s]
  | .string v => choice "String" [v.outline]
  | .boolean b s => choice "Boolean" [flag b, spanOutline s]
  | .null s => choice "Null" [spanOutline s]
  | .enum n => choice "Enum" [n.outline]
  | .list vs s => choice "List" [list (Value.outlineList vs), spanOutline s]
  | .object fs s => choice "Object" [list (Argument.outlineList "ObjectField" fs), spanOutline s]

def Value.outlineList : List Value → List Outline
  | [] => []
  | v :: vs => v.outline :: Value.outlineList vs

/-- The outline of a name with a value, which is called by its role. -/
def Argument.outline (role : String) : Argument → Outline
  | ⟨n, v, s⟩ =>
      record role [("name", n.outline), ("value", v.outline), ("span", spanOutline s)]

def Argument.outlineList (role : String) : List Argument → List Outline
  | [] => []
  | a :: as => a.outline role :: Argument.outlineList role as

end

def TypeRef.outline : TypeRef → Outline
  | .named n => choice "Named" [n.outline]
  | .list t s => choice "List" [t.outline, spanOutline s]
  | .nonNull t s => choice "NonNull" [t.outline, spanOutline s]

def argumentsOutline (as : List Argument) : Outline :=
  list (Argument.outlineList "Argument" as)

def Directive.outline (d : Directive) : Outline :=
  record "Directive"
    [("name", d.name.outline), ("arguments", argumentsOutline d.arguments),
      ("span", spanOutline d.span)]

def directivesOutline (ds : List Directive) : Outline :=
  listOf Directive.outline ds

/-! ### What is executed -/

def OperationType.outline : OperationType → Outline
  | query => .word "Query"
  | mutation => .word "Mutation"
  | subscription => .word "Subscription"

def VariableDefinition.outline (d : VariableDefinition) : Outline :=
  record "VariableDefinition"
    [("name", d.name.outline), ("ty", d.type.outline),
      ("default_value", optional Value.outline d.defaultValue),
      ("directives", directivesOutline d.directives), ("span", spanOutline d.span)]

def FragmentSpread.outline (s : FragmentSpread) : Outline :=
  record "FragmentSpread"
    [("name", s.name.outline), ("directives", directivesOutline s.directives),
      ("span", spanOutline s.span)]

mutual

def Selection.outline : Selection → Outline
  | .field f => choice "Field" [f.outline]
  | .fragmentSpread s => choice "FragmentSpread" [s.outline]
  | .inlineFragment f => choice "InlineFragment" [f.outline]

def Selection.outlineList : List Selection → List Outline
  | [] => []
  | s :: ss => s.outline :: Selection.outlineList ss

def Field.outline : Field → Outline
  | ⟨a, n, as, ds, none, s⟩ =>
      record "Field"
        [("alias", optional Name.outline a), ("name", n.outline),
          ("arguments", argumentsOutline as), ("directives", directivesOutline ds),
          ("selection_set", absent), ("span", spanOutline s)]
  | ⟨a, n, as, ds, some set, s⟩ =>
      record "Field"
        [("alias", optional Name.outline a), ("name", n.outline),
          ("arguments", argumentsOutline as), ("directives", directivesOutline ds),
          ("selection_set", present set.outline), ("span", spanOutline s)]

def InlineFragment.outline : InlineFragment → Outline
  | ⟨c, ds, set, s⟩ =>
      record "InlineFragment"
        [("type_condition", optional Name.outline c), ("directives", directivesOutline ds),
          ("selection_set", set.outline), ("span", spanOutline s)]

def SelectionSet.outline : SelectionSet → Outline
  | ⟨ss, s⟩ =>
      record "SelectionSet"
        [("selections", list (Selection.outlineList ss)), ("span", spanOutline s)]

end

def OperationDefinition.outline (d : OperationDefinition) : Outline :=
  record "OperationDefinition"
    [("operation", d.operation.outline), ("name", optional Name.outline d.name),
      ("variables", listOf VariableDefinition.outline d.variableDefinitions),
      ("directives", directivesOutline d.directives),
      ("selection_set", d.selectionSet.outline), ("span", spanOutline d.span)]

def FragmentDefinition.outline (d : FragmentDefinition) : Outline :=
  record "FragmentDefinition"
    [("name", d.name.outline),
      ("variables", optional (listOf VariableDefinition.outline) d.variableDefinitions),
      ("type_condition", d.typeCondition.outline),
      ("directives", directivesOutline d.directives),
      ("selection_set", d.selectionSet.outline), ("span", spanOutline d.span)]

/-! ### The type system -/

def DirectiveLocation.outline : DirectiveLocation → Outline
  | query => .word "Query"
  | mutation => .word "Mutation"
  | subscription => .word "Subscription"
  | field => .word "Field"
  | fragmentDefinition => .word "FragmentDefinition"
  | fragmentSpread => .word "FragmentSpread"
  | inlineFragment => .word "InlineFragment"
  | variableDefinition => .word "VariableDefinition"
  | schema => .word "Schema"
  | scalar => .word "Scalar"
  | object => .word "Object"
  | fieldDefinition => .word "FieldDefinition"
  | argumentDefinition => .word "ArgumentDefinition"
  | interface => .word "Interface"
  | union => .word "Union"
  | enum => .word "Enum"
  | enumValue => .word "EnumValue"
  | inputObject => .word "InputObject"
  | inputFieldDefinition => .word "InputFieldDefinition"

/-- The outline of a description, the first field of what can have one. -/
def descriptionField (d : Option StringValue) : String × Outline :=
  ("description", optional StringValue.outline d)

def OperationTypeDefinition.outline (d : OperationTypeDefinition) : Outline :=
  record "OperationTypeDefinition"
    [("operation", d.operation.outline), ("type_name", d.typeName.outline),
      ("span", spanOutline d.span)]

def SchemaDefinition.outline (d : SchemaDefinition) : Outline :=
  record "SchemaDefinition"
    [descriptionField d.description, ("extend", flag d.extend),
      ("directives", directivesOutline d.directives),
      ("operations", listOf OperationTypeDefinition.outline d.operations),
      ("span", spanOutline d.span)]

def InputValueDefinition.outline (d : InputValueDefinition) : Outline :=
  record "InputValueDefinition"
    [descriptionField d.description, ("name", d.name.outline), ("ty", d.type.outline),
      ("default_value", optional Value.outline d.defaultValue),
      ("directives", directivesOutline d.directives), ("span", spanOutline d.span)]

def FieldDefinition.outline (d : FieldDefinition) : Outline :=
  record "FieldDefinition"
    [descriptionField d.description, ("name", d.name.outline),
      ("arguments", listOf InputValueDefinition.outline d.arguments), ("ty", d.type.outline),
      ("directives", directivesOutline d.directives), ("span", spanOutline d.span)]

def EnumValueDefinition.outline (d : EnumValueDefinition) : Outline :=
  record "EnumValueDefinition"
    [descriptionField d.description, ("name", d.name.outline),
      ("directives", directivesOutline d.directives), ("span", spanOutline d.span)]

namespace TypeBody

/-- What a kind of type is called, alone and as a definition. -/
def outlineNames : TypeBody → String × String
  | scalar => ("Scalar", "ScalarTypeDefinition")
  | object .. => ("Object", "ObjectTypeDefinition")
  | interface .. => ("Interface", "ObjectTypeDefinition")
  | union .. => ("Union", "UnionTypeDefinition")
  | enum .. => ("Enum", "EnumTypeDefinition")
  | input .. => ("Input", "InputObjectTypeDefinition")

/-- What stands before the directives. -/
def interfaceFields : TypeBody → List (String × Outline)
  | object interfaces _ | interface interfaces _ =>
      [("implements", listOf Name.outline interfaces)]
  | _ => []

/-- What stands after the directives. -/
def memberFields : TypeBody → List (String × Outline)
  | scalar => []
  | object _ fields | interface _ fields => [("fields", listOf FieldDefinition.outline fields)]
  | union members => [("members", listOf Name.outline members)]
  | enum values => [("values", listOf EnumValueDefinition.outline values)]
  | input fields => [("fields", listOf InputValueDefinition.outline fields)]

end TypeBody

def TypeDefinition.outline (d : TypeDefinition) : Outline :=
  let (kind, definition) := d.body.outlineNames
  choice kind
    [record definition
      ([descriptionField d.description, ("extend", flag d.extend), ("name", d.name.outline)] ++
        d.body.interfaceFields ++ [("directives", directivesOutline d.directives)] ++
        d.body.memberFields ++ [("span", spanOutline d.span)])]

def DirectiveDefinition.outline (d : DirectiveDefinition) : Outline :=
  record "DirectiveDefinition"
    [descriptionField d.description, ("name", d.name.outline),
      ("arguments", listOf InputValueDefinition.outline d.arguments),
      ("repeatable", flag d.repeatable),
      ("locations", listOf DirectiveLocation.outline d.locations), ("span", spanOutline d.span)]

/-! ### Documents -/

def Definition.outline : Definition → Outline
  | operation d => choice "Operation" [d.outline]
  | fragment d => choice "Fragment" [d.outline]
  | schema d => choice "Schema" [d.outline]
  | type d => choice "Type" [d.outline]
  | directive d => choice "Directive" [d.outline]

/-- The source of a document is not shown. -/
def Location.outline (l : Location) : Outline :=
  record "Location" [("span", spanOutline l.span)]

def Document.outline (d : Document) : Outline :=
  record "Document"
    [("definitions", listOf Definition.outline d.definitions),
      ("loc", optional Location.outline d.location)]

end GraphQL
