import GraphQL.Proofs.Document.Induction

/-!
Changing the spans of a tree twice is changing them once. Hence stripping
forgets whatever was done to the spans before: a tree that was placed in a
source strips to the tree that was read.
-/

namespace GraphQL

variable (f g : Option Span → Option Span)

@[simp] theorem Name.mapSpans_mapSpans (n : Name) :
    (n.mapSpans f).mapSpans g = n.mapSpans (g ∘ f) := rfl

@[simp] theorem StringValue.mapSpans_mapSpans (v : StringValue) :
    (v.mapSpans f).mapSpans g = v.mapSpans (g ∘ f) := rfl

/-- A law of the items of a list is a law of the list. -/
theorem map_map_of_forall {α : Type} {h h' k : α → α} {xs : List α}
    (hx : ∀ x ∈ xs, h' (h x) = k x) : (xs.map h).map h' = xs.map k := by
  rw [List.map_map]
  exact List.map_congr_left hx

/-- Arguments nest through their values. -/
theorem Argument.mapSpans_eq (a : Argument) :
    a.mapSpans f = ⟨a.name.mapSpans f, a.value.mapSpans f, f a.span⟩ := by
  cases a
  rfl

@[simp] theorem Value.mapSpans_mapSpans (v : Value) :
    (v.mapSpans f).mapSpans g = v.mapSpans (g ∘ f) := by
  induction v using Value.inductionOn with
  | list vs s ih =>
      simp only [Value.mapSpans, Value.mapSpansList_eq_map, map_map_of_forall ih,
        Function.comp_apply]
  | object fs s ih =>
      have hfs : (fs.map (·.mapSpans f)).map (·.mapSpans g) = fs.map (·.mapSpans (g ∘ f)) :=
        map_map_of_forall fun a ha => by simp [Argument.mapSpans_eq, ih a ha]
      simp only [Value.mapSpans, Argument.mapSpansList_eq_map, hfs, Function.comp_apply]
  | _ => rfl

@[simp] theorem Argument.mapSpans_mapSpans (a : Argument) :
    (a.mapSpans f).mapSpans g = a.mapSpans (g ∘ f) := by
  simp [Argument.mapSpans_eq]

@[simp] theorem TypeRef.mapSpans_mapSpans (t : TypeRef) :
    (t.mapSpans f).mapSpans g = t.mapSpans (g ∘ f) := by
  induction t with
  | named n => rfl
  | list t s ih => simp [TypeRef.mapSpans, ih]
  | nonNull t s ih => simp [TypeRef.mapSpans, ih]

@[simp] theorem Directive.mapSpans_mapSpans (d : Directive) :
    (d.mapSpans f).mapSpans g = d.mapSpans (g ∘ f) := by
  simp [Directive.mapSpans, Function.comp_def]

/-! ### What is executed -/

@[simp] theorem VariableDefinition.mapSpans_mapSpans (d : VariableDefinition) :
    (d.mapSpans f).mapSpans g = d.mapSpans (g ∘ f) := by
  simp [VariableDefinition.mapSpans, Function.comp_def]

@[simp] theorem FragmentSpread.mapSpans_mapSpans (s : FragmentSpread) :
    (s.mapSpans f).mapSpans g = s.mapSpans (g ∘ f) := by
  simp [FragmentSpread.mapSpans, Function.comp_def]

/-- Fields nest through their selection sets. -/
theorem Field.mapSpans_eq (x : Field) :
    x.mapSpans f = ⟨x.aliasName.map (·.mapSpans f), x.name.mapSpans f,
      x.arguments.map (·.mapSpans f), x.directives.map (·.mapSpans f),
      x.selectionSet.map (·.mapSpans f), f x.span⟩ := by
  obtain ⟨a, n, as, ds, set, s⟩ := x
  cases set <;> rfl

/-- Inline fragments nest through their selection sets. -/
theorem InlineFragment.mapSpans_eq (x : InlineFragment) :
    x.mapSpans f = ⟨x.typeCondition.map (·.mapSpans f), x.directives.map (·.mapSpans f),
      x.selectionSet.mapSpans f, f x.span⟩ := by
  cases x
  rfl

/-- A law of the sets under a selection is a law of the selection. -/
theorem Selection.mapSpans_mapSpans_of_inner (x : Selection)
    (h : ∀ set ∈ x.inner?, (set.mapSpans f).mapSpans g = set.mapSpans (g ∘ f)) :
    (x.mapSpans f).mapSpans g = x.mapSpans (g ∘ f) := by
  cases x with
  | field x =>
      have hset : (x.selectionSet.map (·.mapSpans f)).map (·.mapSpans g) =
          x.selectionSet.map (·.mapSpans (g ∘ f)) := by
        rw [Option.map_map]
        exact Option.map_congr h
      simp [Selection.mapSpans, Field.mapSpans_eq, hset, Function.comp_def]
  | fragmentSpread x => simp [Selection.mapSpans]
  | inlineFragment x =>
      have hset := h x.selectionSet rfl
      simp [Selection.mapSpans, InlineFragment.mapSpans_eq, hset, Function.comp_def]

@[simp] theorem SelectionSet.mapSpans_mapSpans (set : SelectionSet) :
    (set.mapSpans f).mapSpans g = set.mapSpans (g ∘ f) := by
  induction set using SelectionSet.inductionOn with
  | mk ss s ih =>
      have hss := map_map_of_forall fun x hx =>
        Selection.mapSpans_mapSpans_of_inner f g x (ih x hx)
      simp only [SelectionSet.mapSpans, Selection.mapSpansList_eq_map, hss, Function.comp_apply]

@[simp] theorem OperationDefinition.mapSpans_mapSpans (d : OperationDefinition) :
    (d.mapSpans f).mapSpans g = d.mapSpans (g ∘ f) := by
  simp [OperationDefinition.mapSpans, Function.comp_def]

@[simp] theorem FragmentDefinition.mapSpans_mapSpans (d : FragmentDefinition) :
    (d.mapSpans f).mapSpans g = d.mapSpans (g ∘ f) := by
  simp [FragmentDefinition.mapSpans, Function.comp_def]

/-! ### The type system -/

@[simp] theorem OperationTypeDefinition.mapSpans_mapSpans (d : OperationTypeDefinition) :
    (d.mapSpans f).mapSpans g = d.mapSpans (g ∘ f) := rfl

@[simp] theorem SchemaDefinition.mapSpans_mapSpans (d : SchemaDefinition) :
    (d.mapSpans f).mapSpans g = d.mapSpans (g ∘ f) := by
  simp [SchemaDefinition.mapSpans, Function.comp_def]

@[simp] theorem InputValueDefinition.mapSpans_mapSpans (d : InputValueDefinition) :
    (d.mapSpans f).mapSpans g = d.mapSpans (g ∘ f) := by
  simp [InputValueDefinition.mapSpans, Function.comp_def]

@[simp] theorem FieldDefinition.mapSpans_mapSpans (d : FieldDefinition) :
    (d.mapSpans f).mapSpans g = d.mapSpans (g ∘ f) := by
  simp [FieldDefinition.mapSpans, Function.comp_def]

@[simp] theorem EnumValueDefinition.mapSpans_mapSpans (d : EnumValueDefinition) :
    (d.mapSpans f).mapSpans g = d.mapSpans (g ∘ f) := by
  simp [EnumValueDefinition.mapSpans, Function.comp_def]

@[simp] theorem TypeBody.mapSpans_mapSpans (b : TypeBody) :
    (b.mapSpans f).mapSpans g = b.mapSpans (g ∘ f) := by
  cases b <;> simp [TypeBody.mapSpans, Function.comp_def]

@[simp] theorem TypeDefinition.mapSpans_mapSpans (d : TypeDefinition) :
    (d.mapSpans f).mapSpans g = d.mapSpans (g ∘ f) := by
  simp [TypeDefinition.mapSpans, Function.comp_def]

@[simp] theorem DirectiveDefinition.mapSpans_mapSpans (d : DirectiveDefinition) :
    (d.mapSpans f).mapSpans g = d.mapSpans (g ∘ f) := by
  simp [DirectiveDefinition.mapSpans, Function.comp_def]

/-! ### Definitions -/

@[simp] theorem Definition.mapSpans_mapSpans (d : Definition) :
    (d.mapSpans f).mapSpans g = d.mapSpans (g ∘ f) := by
  cases d <;> simp [Definition.mapSpans]

/-- Definitions that are moved twice. -/
theorem Definition.map_mapSpans_map (f g : Span → Span) (ds : List Definition) :
    (ds.map (·.mapSpans (Option.map f))).map (·.mapSpans (Option.map g)) =
      ds.map (·.mapSpans (Option.map (g ∘ f))) := by
  refine map_map_of_forall fun d _ => ?_
  rw [Definition.mapSpans_mapSpans, Option.map_comp_map]

/-- Stripping forgets what was done to the spans before. -/
@[simp] theorem Definition.strip_mapSpans (d : Definition) :
    (d.mapSpans f).strip = d.strip := by
  rw [Definition.strip, Definition.mapSpans_mapSpans]
  rfl

end GraphQL
