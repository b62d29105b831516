import Mathlib.Data.List.Basic
import GraphQL.Proofs.Document.Induction

/-!
Documents taken apart by their types. The anatomy of a node is its constructor with all of
its fields, in the order in which they are declared, down to texts and spans. It says
nothing of what a field is for, so it can be used to check the functions that go through
the spans of a document field by field. Nothing is lost in it: a document can be told from
its anatomy.
-/

namespace GraphQL

/-- A field taken apart. The places of spans are leaves, whether a span is there or not. -/
inductive Anatomy
  | slot (span : Option Span)
  | text (value : String)
  | flag (value : Bool)
  | word (operation : OperationType)
  | place (location : DirectiveLocation)
  | node (constructor : String) (fields : List Anatomy)

namespace Anatomy

/-- The anatomy of a list. -/
def items {α : Type} (anatomy : α → Anatomy) (xs : List α) : Anatomy :=
  node "list" (xs.map anatomy)

/-- The anatomy of a field that may be absent. -/
def optional {α : Type} (anatomy : α → Anatomy) : Option α → Anatomy
  | none => node "none" []
  | some a => node "some" [anatomy a]

mutual

/-- The places of spans, in the order of the fields. -/
def slots : Anatomy → List (Option Span)
  | slot span => [span]
  | text _ | flag _ | word _ | place _ => []
  | node _ fields => slotsList fields

def slotsList : List Anatomy → List (Option Span)
  | [] => []
  | a :: as => a.slots ++ slotsList as

end

mutual

/-- Changes what stands in the places of spans. -/
def mapSlots (f : Option Span → Option Span) : Anatomy → Anatomy
  | slot span => slot (f span)
  | text value => text value
  | flag value => flag value
  | word operation => word operation
  | place location => place location
  | node constructor fields => node constructor (mapSlotsList f fields)

def mapSlotsList (f : Option Span → Option Span) : List Anatomy → List Anatomy
  | [] => []
  | a :: as => a.mapSlots f :: mapSlotsList f as

end

end Anatomy

open Anatomy

/-! ### Values -/

def Name.anatomy (n : Name) : Anatomy := node "Name" [text n.value, slot n.span]

def StringValue.anatomy (v : StringValue) : Anatomy :=
  node "StringValue" [text v.value, flag v.block, slot v.span]

mutual

def Value.anatomy : Value → Anatomy
  | .variable n => node "variable" [n.anatomy]
  | .int t s => node "int" [text t, slot s]
  | .float t s => node "float" [text t, slot s]
  | .string v => node "string" [v.anatomy]
  | .boolean b s => node "boolean" [flag b, slot s]
  | .null s => node "null" [slot s]
  | .enum n => node "enum" [n.anatomy]
  | .list vs s => node "list" [node "list" (Value.anatomyList vs), slot s]
  | .object fs s => node "object" [node "list" (Argument.anatomyList fs), slot s]

def Value.anatomyList : List Value → List Anatomy
  | [] => []
  | v :: vs => v.anatomy :: Value.anatomyList vs

def Argument.anatomy : Argument → Anatomy
  | ⟨n, v, s⟩ => node "Argument" [n.anatomy, v.anatomy, slot s]

def Argument.anatomyList : List Argument → List Anatomy
  | [] => []
  | a :: as => a.anatomy :: Argument.anatomyList as

end

def TypeRef.anatomy : TypeRef → Anatomy
  | .named n => node "named" [n.anatomy]
  | .list t s => node "list" [t.anatomy, slot s]
  | .nonNull t s => node "nonNull" [t.anatomy, slot s]

def Directive.anatomy (d : Directive) : Anatomy :=
  node "Directive" [d.name.anatomy, items Argument.anatomy d.arguments, slot d.span]

/-! ### What is executed -/

def VariableDefinition.anatomy (d : VariableDefinition) : Anatomy :=
  node "VariableDefinition" [d.name.anatomy, d.type.anatomy,
    optional Value.anatomy d.defaultValue, items Directive.anatomy d.directives, slot d.span]

def FragmentSpread.anatomy (s : FragmentSpread) : Anatomy :=
  node "FragmentSpread" [s.name.anatomy, items Directive.anatomy s.directives, slot s.span]

mutual

def Selection.anatomy : Selection → Anatomy
  | .field x => node "field" [x.anatomy]
  | .fragmentSpread x => node "fragmentSpread" [x.anatomy]
  | .inlineFragment x => node "inlineFragment" [x.anatomy]

def Selection.anatomyList : List Selection → List Anatomy
  | [] => []
  | x :: xs => x.anatomy :: Selection.anatomyList xs

def Field.anatomy : Field → Anatomy
  | ⟨a, n, as, ds, none, s⟩ =>
      node "Field" [optional Name.anatomy a, n.anatomy, items Argument.anatomy as,
        items Directive.anatomy ds, node "none" [], slot s]
  | ⟨a, n, as, ds, some set, s⟩ =>
      node "Field" [optional Name.anatomy a, n.anatomy, items Argument.anatomy as,
        items Directive.anatomy ds, node "some" [set.anatomy], slot s]

def InlineFragment.anatomy : InlineFragment → Anatomy
  | ⟨c, ds, set, s⟩ =>
      node "InlineFragment" [optional Name.anatomy c, items Directive.anatomy ds, set.anatomy,
        slot s]

def SelectionSet.anatomy : SelectionSet → Anatomy
  | ⟨xs, s⟩ => node "SelectionSet" [node "list" (Selection.anatomyList xs), slot s]

end

def OperationDefinition.anatomy (d : OperationDefinition) : Anatomy :=
  node "OperationDefinition" [word d.operation, optional Name.anatomy d.name,
    items VariableDefinition.anatomy d.variableDefinitions, items Directive.anatomy d.directives,
    d.selectionSet.anatomy, slot d.span]

def FragmentDefinition.anatomy (d : FragmentDefinition) : Anatomy :=
  node "FragmentDefinition" [d.name.anatomy,
    optional (items VariableDefinition.anatomy) d.variableDefinitions, d.typeCondition.anatomy,
    items Directive.anatomy d.directives, d.selectionSet.anatomy, slot d.span]

/-! ### The type system -/

def OperationTypeDefinition.anatomy (d : OperationTypeDefinition) : Anatomy :=
  node "OperationTypeDefinition" [word d.operation, d.typeName.anatomy, slot d.span]

def SchemaDefinition.anatomy (d : SchemaDefinition) : Anatomy :=
  node "SchemaDefinition" [optional StringValue.anatomy d.description, flag d.extend,
    items Directive.anatomy d.directives, items OperationTypeDefinition.anatomy d.operations,
    slot d.span]

def InputValueDefinition.anatomy (d : InputValueDefinition) : Anatomy :=
  node "InputValueDefinition" [optional StringValue.anatomy d.description, d.name.anatomy,
    d.type.anatomy, optional Value.anatomy d.defaultValue, items Directive.anatomy d.directives,
    slot d.span]

def FieldDefinition.anatomy (d : FieldDefinition) : Anatomy :=
  node "FieldDefinition" [optional StringValue.anatomy d.description, d.name.anatomy,
    items InputValueDefinition.anatomy d.arguments, d.type.anatomy,
    items Directive.anatomy d.directives, slot d.span]

def EnumValueDefinition.anatomy (d : EnumValueDefinition) : Anatomy :=
  node "EnumValueDefinition" [optional StringValue.anatomy d.description, d.name.anatomy,
    items Directive.anatomy d.directives, slot d.span]

def TypeBody.anatomy : TypeBody → Anatomy
  | .scalar => node "scalar" []
  | .object interfaces fields =>
      node "object" [items Name.anatomy interfaces, items FieldDefinition.anatomy fields]
  | .interface interfaces fields =>
      node "interface" [items Name.anatomy interfaces, items FieldDefinition.anatomy fields]
  | .union members => node "union" [items Name.anatomy members]
  | .enum values => node "enum" [items EnumValueDefinition.anatomy values]
  | .input fields => node "input" [items InputValueDefinition.anatomy fields]

def TypeDefinition.anatomy (d : TypeDefinition) : Anatomy :=
  node "TypeDefinition" [optional StringValue.anatomy d.description, flag d.extend,
    d.name.anatomy, items Directive.anatomy d.directives, d.body.anatomy, slot d.span]

def DirectiveDefinition.anatomy (d : DirectiveDefinition) : Anatomy :=
  node "DirectiveDefinition" [optional StringValue.anatomy d.description, d.name.anatomy,
    items InputValueDefinition.anatomy d.arguments, flag d.repeatable, items place d.locations,
    slot d.span]

/-! ### Documents -/

def Definition.anatomy : Definition → Anatomy
  | .operation d => node "operation" [d.anatomy]
  | .fragment d => node "fragment" [d.anatomy]
  | .schema d => node "schema" [d.anatomy]
  | .type d => node "type" [d.anatomy]
  | .directive d => node "directive" [d.anatomy]

def Location.anatomy (l : Location) : Anatomy :=
  node "Location" [slot l.span, text l.source]

def Document.anatomy (d : Document) : Anatomy :=
  node "Document" [items Definition.anatomy d.definitions, optional Location.anatomy d.location]

/-! ### The nodes that nest -/

@[simp] theorem Value.anatomyList_eq_map (vs : List Value) :
    Value.anatomyList vs = vs.map Value.anatomy := by
  induction vs with
  | nil => rfl
  | cons v vs ih => simp [Value.anatomyList, ih]

@[simp] theorem Argument.anatomyList_eq_map (as : List Argument) :
    Argument.anatomyList as = as.map Argument.anatomy := by
  induction as with
  | nil => rfl
  | cons a as ih => simp [Argument.anatomyList, ih]

@[simp] theorem Selection.anatomyList_eq_map (xs : List Selection) :
    Selection.anatomyList xs = xs.map Selection.anatomy := by
  induction xs with
  | nil => rfl
  | cons x xs ih => simp [Selection.anatomyList, ih]

theorem Argument.anatomy_eq (a : Argument) :
    a.anatomy = node "Argument" [a.name.anatomy, a.value.anatomy, slot a.span] := by
  cases a
  rfl

theorem Field.anatomy_eq (x : Field) :
    x.anatomy = node "Field" [optional Name.anatomy x.aliasName, x.name.anatomy,
      items Argument.anatomy x.arguments, items Directive.anatomy x.directives,
      optional SelectionSet.anatomy x.selectionSet, slot x.span] := by
  obtain ⟨a, n, as, ds, set, s⟩ := x
  cases set <;> rfl

theorem InlineFragment.anatomy_eq (x : InlineFragment) :
    x.anatomy = node "InlineFragment" [optional Name.anatomy x.typeCondition,
      items Directive.anatomy x.directives, x.selectionSet.anatomy, slot x.span] := by
  cases x
  rfl

/-! ### A node can be told from its anatomy -/

/-- Lists can be told apart by what their items can be told apart by. -/
theorem map_inj_of_forall {α β : Type} {f : α → β} {xs ys : List α}
    (h : ∀ x ∈ xs, ∀ y, f x = f y ↔ x = y) : xs.map f = ys.map f ↔ xs = ys := by
  induction xs generalizing ys with
  | nil => cases ys <;> simp
  | cons x xs ih =>
      rw [List.forall_mem_cons] at h
      cases ys <;> simp [h.1, ih h.2]

@[simp] theorem Anatomy.items_inj {α : Type} {anatomy : α → Anatomy}
    (h : ∀ a b, anatomy a = anatomy b ↔ a = b) (xs ys : List α) :
    items anatomy xs = items anatomy ys ↔ xs = ys := by
  simp [items, map_inj_of_forall fun x _ => h x]

theorem Anatomy.optional_inj_of_forall {α : Type} {anatomy : α → Anatomy} {o : Option α}
    (h : ∀ a ∈ o, ∀ b, anatomy a = anatomy b ↔ a = b) (p : Option α) :
    optional anatomy o = optional anatomy p ↔ o = p := by
  cases o with
  | none => cases p <;> simp [optional]
  | some a => cases p <;> simp [optional, h a rfl]

@[simp] theorem Anatomy.optional_inj {α : Type} {anatomy : α → Anatomy}
    (h : ∀ a b, anatomy a = anatomy b ↔ a = b) (o p : Option α) :
    optional anatomy o = optional anatomy p ↔ o = p :=
  optional_inj_of_forall (fun a _ => h a) p

@[simp] theorem Name.anatomy_inj (n m : Name) : n.anatomy = m.anatomy ↔ n = m := by
  cases n; cases m; simp [Name.anatomy]

@[simp] theorem StringValue.anatomy_inj (v w : StringValue) :
    v.anatomy = w.anatomy ↔ v = w := by
  cases v; cases w; simp [StringValue.anatomy]

@[simp] theorem Value.anatomy_inj (v w : Value) : v.anatomy = w.anatomy ↔ v = w := by
  induction v using Value.inductionOn generalizing w with
  | list vs s ih =>
      cases w <;> simp [Value.anatomy, map_inj_of_forall ih]
  | object fs s ih =>
      have hfs : ∀ a ∈ fs, ∀ b : Argument, a.anatomy = b.anatomy ↔ a = b := fun a ha b => by
        cases a
        cases b
        simp [Argument.anatomy, ih _ ha]
      cases w <;> simp [Value.anatomy, map_inj_of_forall hfs]
  | _ => cases w <;> simp [Value.anatomy]

@[simp] theorem Argument.anatomy_inj (a b : Argument) : a.anatomy = b.anatomy ↔ a = b := by
  cases a; cases b; simp [Argument.anatomy]

@[simp] theorem TypeRef.anatomy_inj (t u : TypeRef) : t.anatomy = u.anatomy ↔ t = u := by
  induction t generalizing u with
  | named n => cases u <;> simp [TypeRef.anatomy]
  | list t s ih => cases u <;> simp [TypeRef.anatomy, ih]
  | nonNull t s ih => cases u <;> simp [TypeRef.anatomy, ih]

@[simp] theorem Directive.anatomy_inj (d e : Directive) : d.anatomy = e.anatomy ↔ d = e := by
  cases d; cases e; simp [Directive.anatomy]

@[simp] theorem VariableDefinition.anatomy_inj (d e : VariableDefinition) :
    d.anatomy = e.anatomy ↔ d = e := by
  cases d; cases e; simp [VariableDefinition.anatomy]

@[simp] theorem FragmentSpread.anatomy_inj (s t : FragmentSpread) :
    s.anatomy = t.anatomy ↔ s = t := by
  cases s; cases t; simp [FragmentSpread.anatomy]

/-- A selection can be told from its anatomy if the set under it can. -/
theorem Selection.anatomy_inj_of_inner (x y : Selection)
    (h : ∀ set ∈ x.inner?, ∀ other : SelectionSet, set.anatomy = other.anatomy ↔ set = other) :
    x.anatomy = y.anatomy ↔ x = y := by
  cases x with
  | field x =>
      have hset (other : Option SelectionSet) : optional SelectionSet.anatomy x.selectionSet =
          optional SelectionSet.anatomy other ↔ x.selectionSet = other :=
        optional_inj_of_forall h other
      have hx (z : Field) : x.anatomy = z.anatomy ↔ x = z := by
        rw [Field.anatomy_eq, Field.anatomy_eq]
        cases x
        cases z
        simp [hset]
      cases y <;> simp [Selection.anatomy, hx]
  | fragmentSpread x => cases y <;> simp [Selection.anatomy]
  | inlineFragment x =>
      have hx (z : InlineFragment) : x.anatomy = z.anatomy ↔ x = z := by
        rw [InlineFragment.anatomy_eq, InlineFragment.anatomy_eq]
        cases x
        cases z
        simp [h _ rfl]
      cases y <;> simp [Selection.anatomy, hx]

@[simp] theorem SelectionSet.anatomy_inj (set other : SelectionSet) :
    set.anatomy = other.anatomy ↔ set = other := by
  induction set using SelectionSet.inductionOn generalizing other with
  | mk xs s ih =>
      have hxs := fun x hx y => Selection.anatomy_inj_of_inner x y (ih x hx)
      cases other
      simp [SelectionSet.anatomy, map_inj_of_forall hxs]

@[simp] theorem OperationDefinition.anatomy_inj (d e : OperationDefinition) :
    d.anatomy = e.anatomy ↔ d = e := by
  cases d; cases e; simp [OperationDefinition.anatomy]

@[simp] theorem FragmentDefinition.anatomy_inj (d e : FragmentDefinition) :
    d.anatomy = e.anatomy ↔ d = e := by
  cases d; cases e; simp [FragmentDefinition.anatomy]

@[simp] theorem OperationTypeDefinition.anatomy_inj (d e : OperationTypeDefinition) :
    d.anatomy = e.anatomy ↔ d = e := by
  cases d; cases e; simp [OperationTypeDefinition.anatomy]

@[simp] theorem SchemaDefinition.anatomy_inj (d e : SchemaDefinition) :
    d.anatomy = e.anatomy ↔ d = e := by
  cases d; cases e; simp [SchemaDefinition.anatomy]

@[simp] theorem InputValueDefinition.anatomy_inj (d e : InputValueDefinition) :
    d.anatomy = e.anatomy ↔ d = e := by
  cases d; cases e; simp [InputValueDefinition.anatomy]

@[simp] theorem FieldDefinition.anatomy_inj (d e : FieldDefinition) :
    d.anatomy = e.anatomy ↔ d = e := by
  cases d; cases e; simp [FieldDefinition.anatomy]

@[simp] theorem EnumValueDefinition.anatomy_inj (d e : EnumValueDefinition) :
    d.anatomy = e.anatomy ↔ d = e := by
  cases d; cases e; simp [EnumValueDefinition.anatomy]

@[simp] theorem TypeBody.anatomy_inj (b c : TypeBody) : b.anatomy = c.anatomy ↔ b = c := by
  cases b <;> cases c <;> simp [TypeBody.anatomy]

@[simp] theorem TypeDefinition.anatomy_inj (d e : TypeDefinition) :
    d.anatomy = e.anatomy ↔ d = e := by
  cases d; cases e; simp [TypeDefinition.anatomy]

@[simp] theorem DirectiveDefinition.anatomy_inj (d e : DirectiveDefinition) :
    d.anatomy = e.anatomy ↔ d = e := by
  cases d; cases e; simp [DirectiveDefinition.anatomy]

@[simp] theorem Definition.anatomy_inj (d e : Definition) : d.anatomy = e.anatomy ↔ d = e := by
  cases d <;> cases e <;> simp [Definition.anatomy]

@[simp] theorem Location.anatomy_inj (l m : Location) : l.anatomy = m.anatomy ↔ l = m := by
  cases l; cases m; simp [Location.anatomy]

/-- A document can be told from its anatomy. -/
@[simp] theorem Document.anatomy_inj (d e : Document) : d.anatomy = e.anatomy ↔ d = e := by
  cases d; cases e; simp [Document.anatomy]

end GraphQL
