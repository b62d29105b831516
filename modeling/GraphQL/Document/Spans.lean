import GraphQL.Document

/-!
The spans of a document. `spans` lists the span of every node, children before
their parent and in the order of the source; `mapSpans` changes each of them
and nothing else. Stripping a document clears them all.
-/

namespace GraphQL

namespace Name

def mapSpans (f : Option Span → Option Span) (n : Name) : Name :=
  { n with span := f n.span }

def spans (n : Name) : List (Option Span) := [n.span]

end Name

namespace StringValue

def mapSpans (f : Option Span → Option Span) (v : StringValue) : StringValue :=
  { v with span := f v.span }

def spans (v : StringValue) : List (Option Span) := [v.span]

end StringValue

/-! ### Values -/

mutual

def Value.mapSpans (f : Option Span → Option Span) : Value → Value
  | .variable n => .variable (n.mapSpans f)
  | .int t s => .int t (f s)
  | .float t s => .float t (f s)
  | .string v => .string (v.mapSpans f)
  | .boolean b s => .boolean b (f s)
  | .null s => .null (f s)
  | .enum n => .enum (n.mapSpans f)
  | .list vs s => .list (Value.mapSpansList f vs) (f s)
  | .object fs s => .object (Argument.mapSpansList f fs) (f s)

def Value.mapSpansList (f : Option Span → Option Span) : List Value → List Value
  | [] => []
  | v :: vs => v.mapSpans f :: Value.mapSpansList f vs

def Argument.mapSpans (f : Option Span → Option Span) : Argument → Argument
  | ⟨n, v, s⟩ => ⟨n.mapSpans f, v.mapSpans f, f s⟩

def Argument.mapSpansList (f : Option Span → Option Span) : List Argument → List Argument
  | [] => []
  | a :: as => a.mapSpans f :: Argument.mapSpansList f as

end

mutual

def Value.spans : Value → List (Option Span)
  | .variable n => n.spans
  | .int _ s => [s]
  | .float _ s => [s]
  | .string v => v.spans
  | .boolean _ s => [s]
  | .null s => [s]
  | .enum n => n.spans
  | .list vs s => Value.spansList vs ++ [s]
  | .object fs s => Argument.spansList fs ++ [s]

def Value.spansList : List Value → List (Option Span)
  | [] => []
  | v :: vs => v.spans ++ Value.spansList vs

def Argument.spans : Argument → List (Option Span)
  | ⟨n, v, s⟩ => n.spans ++ v.spans ++ [s]

def Argument.spansList : List Argument → List (Option Span)
  | [] => []
  | a :: as => a.spans ++ Argument.spansList as

end

@[simp] theorem Value.mapSpansList_eq_map (f : Option Span → Option Span) (vs : List Value) :
    Value.mapSpansList f vs = vs.map (·.mapSpans f) := by
  induction vs with
  | nil => rfl
  | cons v vs ih => simp [Value.mapSpansList, ih]

@[simp] theorem Argument.mapSpansList_eq_map (f : Option Span → Option Span)
    (as : List Argument) : Argument.mapSpansList f as = as.map (·.mapSpans f) := by
  induction as with
  | nil => rfl
  | cons a as ih => simp [Argument.mapSpansList, ih]

@[simp] theorem Value.spansList_eq_flatMap (vs : List Value) :
    Value.spansList vs = vs.flatMap Value.spans := by
  induction vs with
  | nil => rfl
  | cons v vs ih => simp [Value.spansList, ih]

@[simp] theorem Argument.spansList_eq_flatMap (as : List Argument) :
    Argument.spansList as = as.flatMap Argument.spans := by
  induction as with
  | nil => rfl
  | cons a as ih => simp [Argument.spansList, ih]

namespace TypeRef

def mapSpans (f : Option Span → Option Span) : TypeRef → TypeRef
  | named n => named (n.mapSpans f)
  | list t s => list (t.mapSpans f) (f s)
  | nonNull t s => nonNull (t.mapSpans f) (f s)

def spans : TypeRef → List (Option Span)
  | named n => n.spans
  | list t s => t.spans ++ [s]
  | nonNull t s => t.spans ++ [s]

end TypeRef

namespace Directive

def mapSpans (f : Option Span → Option Span) (d : Directive) : Directive :=
  ⟨d.name.mapSpans f, d.arguments.map (·.mapSpans f), f d.span⟩

def spans (d : Directive) : List (Option Span) :=
  d.name.spans ++ d.arguments.flatMap Argument.spans ++ [d.span]

end Directive

/-- The spans of a node that may be absent. -/
def optionalSpans {α : Type} (spans : α → List (Option Span)) : Option α → List (Option Span)
  | none => []
  | some a => spans a

/-! ### What is executed -/

namespace VariableDefinition

def mapSpans (f : Option Span → Option Span) (d : VariableDefinition) : VariableDefinition :=
  ⟨d.name.mapSpans f, d.type.mapSpans f, d.defaultValue.map (·.mapSpans f),
    d.directives.map (·.mapSpans f), f d.span⟩

def spans (d : VariableDefinition) : List (Option Span) :=
  d.name.spans ++ d.type.spans ++ optionalSpans Value.spans d.defaultValue ++
    d.directives.flatMap Directive.spans ++ [d.span]

end VariableDefinition

namespace FragmentSpread

def mapSpans (f : Option Span → Option Span) (s : FragmentSpread) : FragmentSpread :=
  ⟨s.name.mapSpans f, s.directives.map (·.mapSpans f), f s.span⟩

def spans (s : FragmentSpread) : List (Option Span) :=
  s.name.spans ++ s.directives.flatMap Directive.spans ++ [s.span]

end FragmentSpread

mutual

def Selection.mapSpans (f : Option Span → Option Span) : Selection → Selection
  | .field x => .field (x.mapSpans f)
  | .fragmentSpread x => .fragmentSpread (x.mapSpans f)
  | .inlineFragment x => .inlineFragment (x.mapSpans f)

def Selection.mapSpansList (f : Option Span → Option Span) : List Selection → List Selection
  | [] => []
  | s :: ss => s.mapSpans f :: Selection.mapSpansList f ss

def Field.mapSpans (f : Option Span → Option Span) : Field → Field
  | ⟨a, n, as, ds, none, s⟩ =>
      ⟨a.map (·.mapSpans f), n.mapSpans f, as.map (·.mapSpans f), ds.map (·.mapSpans f), none,
        f s⟩
  | ⟨a, n, as, ds, some set, s⟩ =>
      ⟨a.map (·.mapSpans f), n.mapSpans f, as.map (·.mapSpans f), ds.map (·.mapSpans f),
        some (set.mapSpans f), f s⟩

def InlineFragment.mapSpans (f : Option Span → Option Span) : InlineFragment → InlineFragment
  | ⟨c, ds, set, s⟩ =>
      ⟨c.map (·.mapSpans f), ds.map (·.mapSpans f), set.mapSpans f, f s⟩

def SelectionSet.mapSpans (f : Option Span → Option Span) : SelectionSet → SelectionSet
  | ⟨ss, s⟩ => ⟨Selection.mapSpansList f ss, f s⟩

end

mutual

def Selection.spans : Selection → List (Option Span)
  | .field x => x.spans
  | .fragmentSpread x => x.spans
  | .inlineFragment x => x.spans

def Selection.spansList : List Selection → List (Option Span)
  | [] => []
  | s :: ss => s.spans ++ Selection.spansList ss

def Field.spans : Field → List (Option Span)
  | ⟨a, n, as, ds, none, s⟩ =>
      optionalSpans Name.spans a ++ n.spans ++ as.flatMap Argument.spans ++
        ds.flatMap Directive.spans ++ [s]
  | ⟨a, n, as, ds, some set, s⟩ =>
      optionalSpans Name.spans a ++ n.spans ++ as.flatMap Argument.spans ++
        ds.flatMap Directive.spans ++ set.spans ++ [s]

def InlineFragment.spans : InlineFragment → List (Option Span)
  | ⟨c, ds, set, s⟩ =>
      optionalSpans Name.spans c ++ ds.flatMap Directive.spans ++ set.spans ++ [s]

def SelectionSet.spans : SelectionSet → List (Option Span)
  | ⟨ss, s⟩ => Selection.spansList ss ++ [s]

end

@[simp] theorem Selection.mapSpansList_eq_map (f : Option Span → Option Span)
    (ss : List Selection) : Selection.mapSpansList f ss = ss.map (·.mapSpans f) := by
  induction ss with
  | nil => rfl
  | cons s ss ih => simp [Selection.mapSpansList, ih]

@[simp] theorem Selection.spansList_eq_flatMap (ss : List Selection) :
    Selection.spansList ss = ss.flatMap Selection.spans := by
  induction ss with
  | nil => rfl
  | cons s ss ih => simp [Selection.spansList, ih]

namespace OperationDefinition

def mapSpans (f : Option Span → Option Span) (d : OperationDefinition) : OperationDefinition :=
  ⟨d.operation, d.name.map (·.mapSpans f), d.variableDefinitions.map (·.mapSpans f),
    d.directives.map (·.mapSpans f), d.selectionSet.mapSpans f, f d.span⟩

def spans (d : OperationDefinition) : List (Option Span) :=
  optionalSpans Name.spans d.name ++ d.variableDefinitions.flatMap VariableDefinition.spans ++
    d.directives.flatMap Directive.spans ++ d.selectionSet.spans ++ [d.span]

end OperationDefinition

namespace FragmentDefinition

def mapSpans (f : Option Span → Option Span) (d : FragmentDefinition) : FragmentDefinition :=
  ⟨d.name.mapSpans f, d.variableDefinitions.map (·.map (·.mapSpans f)), d.typeCondition.mapSpans f,
    d.directives.map (·.mapSpans f), d.selectionSet.mapSpans f, f d.span⟩

def spans (d : FragmentDefinition) : List (Option Span) :=
  d.name.spans ++ optionalSpans (·.flatMap VariableDefinition.spans) d.variableDefinitions ++
    d.typeCondition.spans ++ d.directives.flatMap Directive.spans ++ d.selectionSet.spans ++
    [d.span]

end FragmentDefinition

/-! ### The type system -/

namespace OperationTypeDefinition

def mapSpans (f : Option Span → Option Span) (d : OperationTypeDefinition) :
    OperationTypeDefinition :=
  ⟨d.operation, d.typeName.mapSpans f, f d.span⟩

def spans (d : OperationTypeDefinition) : List (Option Span) :=
  d.typeName.spans ++ [d.span]

end OperationTypeDefinition

namespace SchemaDefinition

def mapSpans (f : Option Span → Option Span) (d : SchemaDefinition) : SchemaDefinition :=
  ⟨d.description.map (·.mapSpans f), d.extend, d.directives.map (·.mapSpans f),
    d.operations.map (·.mapSpans f), f d.span⟩

def spans (d : SchemaDefinition) : List (Option Span) :=
  optionalSpans StringValue.spans d.description ++ d.directives.flatMap Directive.spans ++
    d.operations.flatMap OperationTypeDefinition.spans ++ [d.span]

end SchemaDefinition

namespace InputValueDefinition

def mapSpans (f : Option Span → Option Span) (d : InputValueDefinition) :
    InputValueDefinition :=
  ⟨d.description.map (·.mapSpans f), d.name.mapSpans f, d.type.mapSpans f,
    d.defaultValue.map (·.mapSpans f), d.directives.map (·.mapSpans f), f d.span⟩

def spans (d : InputValueDefinition) : List (Option Span) :=
  optionalSpans StringValue.spans d.description ++ d.name.spans ++ d.type.spans ++
    optionalSpans Value.spans d.defaultValue ++ d.directives.flatMap Directive.spans ++ [d.span]

end InputValueDefinition

namespace FieldDefinition

def mapSpans (f : Option Span → Option Span) (d : FieldDefinition) : FieldDefinition :=
  ⟨d.description.map (·.mapSpans f), d.name.mapSpans f, d.arguments.map (·.mapSpans f),
    d.type.mapSpans f, d.directives.map (·.mapSpans f), f d.span⟩

def spans (d : FieldDefinition) : List (Option Span) :=
  optionalSpans StringValue.spans d.description ++ d.name.spans ++
    d.arguments.flatMap InputValueDefinition.spans ++ d.type.spans ++
    d.directives.flatMap Directive.spans ++ [d.span]

end FieldDefinition

namespace EnumValueDefinition

def mapSpans (f : Option Span → Option Span) (d : EnumValueDefinition) : EnumValueDefinition :=
  ⟨d.description.map (·.mapSpans f), d.name.mapSpans f, d.directives.map (·.mapSpans f),
    f d.span⟩

def spans (d : EnumValueDefinition) : List (Option Span) :=
  optionalSpans StringValue.spans d.description ++ d.name.spans ++
    d.directives.flatMap Directive.spans ++ [d.span]

end EnumValueDefinition

namespace TypeBody

def mapSpans (f : Option Span → Option Span) : TypeBody → TypeBody
  | scalar => scalar
  | object interfaces fields =>
      object (interfaces.map (·.mapSpans f)) (fields.map (·.mapSpans f))
  | interface interfaces fields =>
      interface (interfaces.map (·.mapSpans f)) (fields.map (·.mapSpans f))
  | union members => union (members.map (·.mapSpans f))
  | enum values => enum (values.map (·.mapSpans f))
  | input fields => input (fields.map (·.mapSpans f))

@[simp] theorem interfaces_mapSpans (f : Option Span → Option Span) (b : TypeBody) :
    (b.mapSpans f).interfaces = b.interfaces.map (·.mapSpans f) := by
  cases b <;> rfl

/-- The spans of what stands after the directives. -/
def memberSpans : TypeBody → List (Option Span)
  | scalar => []
  | object _ fields | interface _ fields => fields.flatMap FieldDefinition.spans
  | union members => members.flatMap Name.spans
  | enum values => values.flatMap EnumValueDefinition.spans
  | input fields => fields.flatMap InputValueDefinition.spans

end TypeBody

namespace TypeDefinition

def mapSpans (f : Option Span → Option Span) (d : TypeDefinition) : TypeDefinition :=
  ⟨d.description.map (·.mapSpans f), d.extend, d.name.mapSpans f,
    d.directives.map (·.mapSpans f), d.body.mapSpans f, f d.span⟩

/-- Interfaces stand before the directives, other members after them. -/
def spans (d : TypeDefinition) : List (Option Span) :=
  optionalSpans StringValue.spans d.description ++ d.name.spans ++
    d.body.interfaces.flatMap Name.spans ++ d.directives.flatMap Directive.spans ++
    d.body.memberSpans ++ [d.span]

end TypeDefinition

namespace DirectiveDefinition

def mapSpans (f : Option Span → Option Span) (d : DirectiveDefinition) : DirectiveDefinition :=
  ⟨d.description.map (·.mapSpans f), d.name.mapSpans f, d.arguments.map (·.mapSpans f),
    d.repeatable, d.locations, f d.span⟩

def spans (d : DirectiveDefinition) : List (Option Span) :=
  optionalSpans StringValue.spans d.description ++ d.name.spans ++
    d.arguments.flatMap InputValueDefinition.spans ++ [d.span]

end DirectiveDefinition

/-! ### Documents -/

namespace Definition

def mapSpans (f : Option Span → Option Span) : Definition → Definition
  | operation d => operation (d.mapSpans f)
  | fragment d => fragment (d.mapSpans f)
  | schema d => schema (d.mapSpans f)
  | type d => type (d.mapSpans f)
  | directive d => directive (d.mapSpans f)

def spans : Definition → List (Option Span)
  | operation d => d.spans
  | fragment d => d.spans
  | schema d => d.spans
  | type d => d.spans
  | directive d => d.spans

/-- Clears every span of a definition. -/
def strip (d : Definition) : Definition := d.mapSpans fun _ => none

/-- How many spans a definition carries. -/
def locationCount (d : Definition) : Nat := d.spans.countP Option.isSome

end Definition

namespace Document

def mapSpans (f : Option Span → Option Span) (d : Document) : Document :=
  ⟨d.definitions.map (·.mapSpans f), d.location.map fun l => { l with span := f l.span }⟩

/-- The span of the document itself comes last. -/
def spans (d : Document) : List (Option Span) :=
  d.definitions.flatMap Definition.spans ++ optionalSpans (fun l => [l.span]) d.location

/-- Clears every span of a document. -/
def strip (d : Document) : Document := d.mapSpans fun _ => none

/-- How many spans a document carries. -/
def locationCount (d : Document) : Nat := d.spans.countP Option.isSome

@[simp] theorem source?_mapSpans (f : Option Span → Option Span) (d : Document) :
    (d.mapSpans f).source? = d.source? := by
  cases h : d.location <;> simp [source?, mapSpans, h]

end Document
end GraphQL
