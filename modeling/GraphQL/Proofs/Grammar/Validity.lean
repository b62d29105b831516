import GraphQL.Proofs.Document.Spans

/-!
What holds of a tree beyond its shape: which lists are not empty, which names
are not allowed, where values are constant. These are the conditions under
which a tree is one that the grammar knows; none of them looks at a span.
-/

namespace GraphQL

/-- Names that are values of other kinds when they stand alone. -/
def Name.Unreserved (n : Name) : Prop :=
  n.value ≠ "true" ∧ n.value ≠ "false" ∧ n.value ≠ "null"

/-- Values without variables where they must be constant, at any depth. -/
inductive Value.Valid (const : Bool) : Value → Prop
  | var (n : Name) : const = false → Valid const (.variable n)
  | int (t : String) (s : Option Span) : Valid const (.int t s)
  | float (t : String) (s : Option Span) : Valid const (.float t s)
  | string (v : StringValue) : Valid const (.string v)
  | boolean (b : Bool) (s : Option Span) : Valid const (.boolean b s)
  | null (s : Option Span) : Valid const (.null s)
  | enum (n : Name) : n.Unreserved → Valid const (.enum n)
  | list (vs : List Value) (s : Option Span) : (∀ v ∈ vs, Valid const v) →
      Valid const (.list vs s)
  | object (fs : List Argument) (s : Option Span) : (∀ a ∈ fs, Valid const a.value) →
      Valid const (.object fs s)

def Argument.Valid (const : Bool) (a : Argument) : Prop := a.value.Valid const

structure Directive.Valid (const : Bool) (d : Directive) : Prop where
  arguments : ∀ a ∈ d.arguments, a.Valid const

namespace TypeRef

def isNonNull : TypeRef → Bool
  | nonNull .. => true
  | _ => false

/-- No exclamation mark follows another. -/
def Valid : TypeRef → Prop
  | named _ => True
  | list t _ => t.Valid
  | nonNull t _ => t.isNonNull = false ∧ t.Valid

end TypeRef

/-! ### What is executed -/

structure VariableDefinition.Valid (d : VariableDefinition) : Prop where
  type : d.type.Valid
  defaultValue : ∀ v ∈ d.defaultValue, v.Valid true
  directives : ∀ x ∈ d.directives, x.Valid true

/-- The conditions on a selection that do not concern the set under it. -/
def Selection.OwnValid : Selection → Prop
  | .field x => (∀ a ∈ x.arguments, a.Valid false) ∧ ∀ d ∈ x.directives, d.Valid false
  | .fragmentSpread x => x.name.value ≠ "on" ∧ ∀ d ∈ x.directives, d.Valid false
  | .inlineFragment x => ∀ d ∈ x.directives, d.Valid false

/-- Selection sets that select something, at any depth. -/
inductive SelectionSet.Valid : SelectionSet → Prop
  | mk (ss : List Selection) (s : Option Span) : ss ≠ [] → (∀ x ∈ ss, x.OwnValid) →
      (∀ x ∈ ss, ∀ set ∈ x.inner?, Valid set) → Valid ⟨ss, s⟩

structure OperationDefinition.Valid (d : OperationDefinition) : Prop where
  variableDefinitions : ∀ v ∈ d.variableDefinitions, v.Valid
  directives : ∀ x ∈ d.directives, x.Valid false
  selectionSet : d.selectionSet.Valid

/-- Variables of a fragment, where they are allowed and there are some. -/
structure FragmentDefinition.Valid (variablesAllowed : Bool) (d : FragmentDefinition) :
    Prop where
  name : d.name.value ≠ "on"
  variableDefinitions : ∀ vs ∈ d.variableDefinitions,
    variablesAllowed = true ∧ vs ≠ [] ∧ ∀ v ∈ vs, v.Valid
  directives : ∀ x ∈ d.directives, x.Valid false
  selectionSet : d.selectionSet.Valid

/-- What is valid without variables is valid where they are allowed. -/
theorem FragmentDefinition.Valid.allow {variablesAllowed : Bool} {d : FragmentDefinition}
    (h : d.Valid variablesAllowed) : d.Valid true :=
  ⟨h.name, fun vs hvs => ⟨rfl, (h.variableDefinitions vs hvs).2⟩, h.directives, h.selectionSet⟩

/-! ### The type system -/

/-- An extension adds something; only a definition of its own needs operations. -/
structure SchemaDefinition.Valid (d : SchemaDefinition) : Prop where
  directives : ∀ x ∈ d.directives, x.Valid true
  operations : d.extend = false → d.operations ≠ []
  extension : d.extend = true →
    d.description = none ∧ (d.directives ≠ [] ∨ d.operations ≠ [])

structure InputValueDefinition.Valid (d : InputValueDefinition) : Prop where
  type : d.type.Valid
  defaultValue : ∀ v ∈ d.defaultValue, v.Valid true
  directives : ∀ x ∈ d.directives, x.Valid true

structure FieldDefinition.Valid (d : FieldDefinition) : Prop where
  arguments : ∀ a ∈ d.arguments, a.Valid
  type : d.type.Valid
  directives : ∀ x ∈ d.directives, x.Valid true

structure EnumValueDefinition.Valid (d : EnumValueDefinition) : Prop where
  name : d.name.Unreserved
  directives : ∀ x ∈ d.directives, x.Valid true

def TypeBody.Valid : TypeBody → Prop
  | scalar => True
  | object _ fields | interface _ fields => ∀ x ∈ fields, x.Valid
  | union _ => True
  | enum values => ∀ x ∈ values, x.Valid
  | input fields => ∀ x ∈ fields, x.Valid

structure TypeDefinition.Valid (d : TypeDefinition) : Prop where
  directives : ∀ x ∈ d.directives, x.Valid true
  body : d.body.Valid
  extension : d.extend = true →
    d.description = none ∧ (d.directives ≠ [] ∨ d.body.isEmpty = false)

structure DirectiveDefinition.Valid (d : DirectiveDefinition) : Prop where
  arguments : ∀ a ∈ d.arguments, a.Valid
  locations : d.locations ≠ []

/-- The conditions on a definition, given whether fragments may have variables. -/
def Definition.Valid (variablesAllowed : Bool) : Definition → Prop
  | operation d => d.Valid
  | fragment d => d.Valid variablesAllowed
  | schema d => d.Valid
  | type d => d.Valid
  | directive d => d.Valid

theorem Definition.Valid.allow {variablesAllowed : Bool} {d : Definition}
    (h : d.Valid variablesAllowed) : d.Valid true := by
  cases d with
  | fragment d => exact FragmentDefinition.Valid.allow h
  | _ => exact h

/-- An extension says something as soon as one of its parts does. -/
theorem isEmpty_and_eq_false {ds : List Directive} {b : Bool} :
    (ds.isEmpty && b) = false ↔ ds ≠ [] ∨ b = false := by
  cases ds <;> simp

/-! ### Blocks that may be left out -/

/-- Could a type have members in braces, and has none? -/
def TypeBody.lacksBlock : TypeBody → Bool
  | object _ fields | interface _ fields => fields.isEmpty
  | enum values => values.isEmpty
  | input fields => fields.isEmpty
  | scalar | union _ => false

/-- Could a definition go on with a block in braces that it does not have? -/
def Definition.lacksBlock : Definition → Bool
  | schema d => d.operations.isEmpty
  | type d => d.body.lacksBlock
  | _ => false

/-! ### Spans do not matter -/

section
variable {α : Type} {P : α → Prop} {g : α → α}

theorem forall_mem_map {xs : List α} (hx : ∀ x ∈ xs, P x) (h : ∀ x, P x → P (g x)) :
    ∀ x ∈ xs.map g, P x :=
  List.forall_mem_map.2 fun x hmem => h x (hx x hmem)

theorem forall_mem_option_map {o : Option α} (hx : ∀ x ∈ o, P x) (h : ∀ x, P x → P (g x)) :
    ∀ x ∈ o.map g, P x := by
  intro y hy
  obtain ⟨x, hmem, rfl⟩ := Option.map_eq_some_iff.1 hy
  exact h x (hx x hmem)

end

variable (f : Option Span → Option Span) {const : Bool}

theorem Value.Valid.mapSpans {v : Value} (h : v.Valid const) : (v.mapSpans f).Valid const := by
  induction h with
  | var n hn => exact .var _ hn
  | int t s => exact .int _ _
  | float t s => exact .float _ _
  | string v => exact .string _
  | boolean b s => exact .boolean _ _
  | null s => exact .null _
  | enum n hn => exact .enum _ hn
  | list vs s _ ih =>
      rw [Value.mapSpans, Value.mapSpansList_eq_map]
      refine .list _ _ fun w hw => ?_
      obtain ⟨v, hv, rfl⟩ := List.mem_map.1 hw
      exact ih v hv
  | object fs s _ ih =>
      rw [Value.mapSpans, Argument.mapSpansList_eq_map]
      refine .object _ _ fun b hb => ?_
      obtain ⟨a, ha, rfl⟩ := List.mem_map.1 hb
      rw [Argument.mapSpans_eq]
      exact ih a ha

theorem Argument.Valid.mapSpans {a : Argument} (h : a.Valid const) :
    (a.mapSpans f).Valid const := by
  rw [Argument.mapSpans_eq]
  exact Value.Valid.mapSpans f h

theorem Directive.Valid.mapSpans {d : Directive} (h : d.Valid const) :
    (d.mapSpans f).Valid const where
  arguments := forall_mem_map h.arguments (fun _ => Argument.Valid.mapSpans f)

theorem TypeRef.Valid.mapSpans {t : TypeRef} (h : t.Valid) : (t.mapSpans f).Valid := by
  induction t with
  | named n => trivial
  | list t s ih => exact ih h
  | nonNull t s ih =>
      refine ⟨?_, ih h.2⟩
      cases t with
      | nonNull t s => exact h.1
      | _ => rfl

theorem VariableDefinition.Valid.mapSpans {d : VariableDefinition} (h : d.Valid) :
    (d.mapSpans f).Valid where
  type := h.type.mapSpans f
  defaultValue := forall_mem_option_map h.defaultValue (fun _ => Value.Valid.mapSpans f)
  directives := forall_mem_map h.directives (fun _ => Directive.Valid.mapSpans f)

theorem Selection.OwnValid.mapSpans {x : Selection} (h : x.OwnValid) :
    (x.mapSpans f).OwnValid := by
  cases x with
  | field x =>
      rw [Selection.mapSpans, Field.mapSpans_eq]
      exact ⟨forall_mem_map h.1 (fun _ => Argument.Valid.mapSpans f),
        forall_mem_map h.2 (fun _ => Directive.Valid.mapSpans f)⟩
  | fragmentSpread x =>
      exact ⟨h.1, forall_mem_map h.2 (fun _ => Directive.Valid.mapSpans f)⟩
  | inlineFragment x =>
      rw [Selection.mapSpans, InlineFragment.mapSpans_eq]
      exact forall_mem_map h (fun _ => Directive.Valid.mapSpans f)

theorem Selection.inner?_mapSpans (x : Selection) :
    (x.mapSpans f).inner? = x.inner?.map (·.mapSpans f) := by
  cases x with
  | field x =>
      rw [Selection.mapSpans, Field.mapSpans_eq]
      rfl
  | fragmentSpread x => rfl
  | inlineFragment x =>
      rw [Selection.mapSpans, InlineFragment.mapSpans_eq]
      rfl

theorem SelectionSet.Valid.mapSpans {set : SelectionSet} (h : set.Valid) :
    (set.mapSpans f).Valid := by
  induction h with
  | mk ss s hne hown _ ih =>
      rw [SelectionSet.mapSpans, Selection.mapSpansList_eq_map]
      refine .mk _ _ (by simpa using hne)
        (forall_mem_map hown (fun _ => Selection.OwnValid.mapSpans f)) fun y hy => ?_
      obtain ⟨x, hx, rfl⟩ := List.mem_map.1 hy
      rw [Selection.inner?_mapSpans]
      intro inner hinner
      obtain ⟨set, hset, rfl⟩ := Option.map_eq_some_iff.1 hinner
      exact ih x hx set hset

theorem OperationDefinition.Valid.mapSpans {d : OperationDefinition} (h : d.Valid) :
    (d.mapSpans f).Valid where
  variableDefinitions :=
    forall_mem_map h.variableDefinitions (fun _ => VariableDefinition.Valid.mapSpans f)
  directives := forall_mem_map h.directives (fun _ => Directive.Valid.mapSpans f)
  selectionSet := h.selectionSet.mapSpans f

theorem FragmentDefinition.Valid.mapSpans {allowed : Bool} {d : FragmentDefinition}
    (h : d.Valid allowed) : (d.mapSpans f).Valid allowed where
  name := h.name
  variableDefinitions := by
    intro ws hws
    obtain ⟨vs, hvs, rfl⟩ := Option.map_eq_some_iff.1 hws
    obtain ⟨hallowed, hne, hvalid⟩ := h.variableDefinitions vs hvs
    exact ⟨hallowed, by simpa using hne,
      forall_mem_map hvalid (fun _ => VariableDefinition.Valid.mapSpans f)⟩
  directives := forall_mem_map h.directives (fun _ => Directive.Valid.mapSpans f)
  selectionSet := h.selectionSet.mapSpans f

theorem SchemaDefinition.Valid.mapSpans {d : SchemaDefinition} (h : d.Valid) :
    (d.mapSpans f).Valid where
  directives := forall_mem_map h.directives (fun _ => Directive.Valid.mapSpans f)
  operations he := by simpa [SchemaDefinition.mapSpans] using h.operations he
  extension he := by simpa [SchemaDefinition.mapSpans] using h.extension he

theorem InputValueDefinition.Valid.mapSpans {d : InputValueDefinition} (h : d.Valid) :
    (d.mapSpans f).Valid where
  type := h.type.mapSpans f
  defaultValue := forall_mem_option_map h.defaultValue (fun _ => Value.Valid.mapSpans f)
  directives := forall_mem_map h.directives (fun _ => Directive.Valid.mapSpans f)

theorem FieldDefinition.Valid.mapSpans {d : FieldDefinition} (h : d.Valid) :
    (d.mapSpans f).Valid where
  arguments := forall_mem_map h.arguments (fun _ => InputValueDefinition.Valid.mapSpans f)
  type := h.type.mapSpans f
  directives := forall_mem_map h.directives (fun _ => Directive.Valid.mapSpans f)

theorem EnumValueDefinition.Valid.mapSpans {d : EnumValueDefinition} (h : d.Valid) :
    (d.mapSpans f).Valid where
  name := h.name
  directives := forall_mem_map h.directives (fun _ => Directive.Valid.mapSpans f)

theorem TypeBody.Valid.mapSpans {b : TypeBody} (h : b.Valid) : (b.mapSpans f).Valid := by
  cases b with
  | scalar => trivial
  | object is fs => exact forall_mem_map h (fun _ => FieldDefinition.Valid.mapSpans f)
  | interface is fs => exact forall_mem_map h (fun _ => FieldDefinition.Valid.mapSpans f)
  | union ms => trivial
  | enum vs => exact forall_mem_map h (fun _ => EnumValueDefinition.Valid.mapSpans f)
  | input fs => exact forall_mem_map h (fun _ => InputValueDefinition.Valid.mapSpans f)

@[simp] theorem TypeBody.isEmpty_mapSpans (b : TypeBody) :
    (b.mapSpans f).isEmpty = b.isEmpty := by
  cases b <;> simp [TypeBody.mapSpans, TypeBody.isEmpty]

theorem TypeDefinition.Valid.mapSpans {d : TypeDefinition} (h : d.Valid) :
    (d.mapSpans f).Valid where
  directives := forall_mem_map h.directives (fun _ => Directive.Valid.mapSpans f)
  body := h.body.mapSpans f
  extension he := by simpa [TypeDefinition.mapSpans] using h.extension he

theorem DirectiveDefinition.Valid.mapSpans {d : DirectiveDefinition} (h : d.Valid) :
    (d.mapSpans f).Valid where
  arguments := forall_mem_map h.arguments (fun _ => InputValueDefinition.Valid.mapSpans f)
  locations := h.locations

theorem Definition.Valid.mapSpans {allowed : Bool} {d : Definition} (h : d.Valid allowed) :
    (d.mapSpans f).Valid allowed := by
  cases d with
  | operation d => exact OperationDefinition.Valid.mapSpans f h
  | fragment d => exact FragmentDefinition.Valid.mapSpans f h
  | schema d => exact SchemaDefinition.Valid.mapSpans f h
  | type d => exact TypeDefinition.Valid.mapSpans f h
  | directive d => exact DirectiveDefinition.Valid.mapSpans f h

end GraphQL
