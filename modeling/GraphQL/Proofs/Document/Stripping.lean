import Mathlib.Data.List.Perm.Basic
import GraphQL.Proofs.Document.Anatomy
import GraphQL.Proofs.Document.Spans

/-!
What stripping does to a document, by its anatomy. Changing the spans of a document
changes what stands in the places of its spans, each of them, and leaves every other
field as it is; and the spans that a document lists are what stands in those places. So a
document that has been stripped is the one that differs from what it was in that
all of the places are empty.
-/

namespace GraphQL

namespace Anatomy

@[simp] theorem slotsList_eq_flatMap (as : List Anatomy) :
    slotsList as = as.flatMap slots := by
  induction as with
  | nil => rfl
  | cons a as ih => simp [slotsList, ih]

@[simp] theorem mapSlotsList_eq_map (f : Option Span → Option Span) (as : List Anatomy) :
    mapSlotsList f as = as.map (·.mapSlots f) := by
  induction as with
  | nil => rfl
  | cons a as ih => simp [mapSlotsList, ih]

@[elab_as_elim]
theorem inductionOn {P : Anatomy → Prop} (a : Anatomy) (slot : ∀ span, P (slot span))
    (text : ∀ value, P (text value)) (flag : ∀ value, P (flag value))
    (word : ∀ operation, P (word operation)) (place : ∀ location, P (place location))
    (node : ∀ constructor fields, (∀ a ∈ fields, P a) → P (node constructor fields)) : P a :=
  @Anatomy.rec P (fun as => ∀ a ∈ as, P a) slot text flag word place
    (fun constructor fields ih => node constructor fields ih)
    (List.forall_mem_nil _) (fun _ _ ha has => List.forall_mem_cons.2 ⟨ha, has⟩) a

/-- Changing what stands in the places changes it in each place. -/
@[simp] theorem slots_mapSlots (f : Option Span → Option Span) (a : Anatomy) :
    (a.mapSlots f).slots = a.slots.map f := by
  induction a using inductionOn with
  | node constructor fields ih =>
      have hfields : (fields.map (·.mapSlots f)).flatMap slots = (fields.flatMap slots).map f := by
        rw [List.flatMap_map, List.map_flatMap]
        exact List.flatMap_congr ih
      simp [mapSlots, slots, hfields]
  | _ => rfl

@[simp] theorem mapSlots_id (a : Anatomy) : a.mapSlots id = a := by
  induction a using inductionOn with
  | node constructor fields ih =>
      rw [mapSlots, mapSlotsList_eq_map, List.map_congr_left ih, List.map_id'']
      exact fun _ => rfl
  | _ => rfl

@[simp] theorem slots_items {α : Type} (anatomy : α → Anatomy) (xs : List α) :
    (items anatomy xs).slots = xs.flatMap fun x => (anatomy x).slots := by
  simp [items, slots, List.flatMap_map]

@[simp] theorem slots_optional {α : Type} (anatomy : α → Anatomy) (o : Option α) :
    (optional anatomy o).slots = optionalSpans (fun x => (anatomy x).slots) o := by
  cases o <;> simp [optional, slots, optionalSpans]

section
variable (f : Option Span → Option Span)

@[simp] theorem items_map {α : Type} (anatomy : α → Anatomy) (change : α → α) (xs : List α) :
    items anatomy (xs.map change) = items (fun x => anatomy (change x)) xs := by
  simp [items]

@[simp] theorem mapSlots_items {α : Type} (anatomy : α → Anatomy) (xs : List α) :
    (items anatomy xs).mapSlots f = items (fun x => (anatomy x).mapSlots f) xs := by
  simp [items, mapSlots]

@[simp] theorem optional_map {α : Type} (anatomy : α → Anatomy) (change : α → α)
    (o : Option α) :
    optional anatomy (o.map change) = optional (fun x => anatomy (change x)) o := by
  cases o <;> rfl

@[simp] theorem mapSlots_optional {α : Type} (anatomy : α → Anatomy) (o : Option α) :
    (optional anatomy o).mapSlots f = optional (fun x => (anatomy x).mapSlots f) o := by
  cases o <;> simp [optional, mapSlots]

end

end Anatomy

open Anatomy

/-! ### Changing spans -/

section
variable (f : Option Span → Option Span)

@[simp] theorem Name.anatomy_mapSpans (n : Name) :
    (n.mapSpans f).anatomy = n.anatomy.mapSlots f := rfl

@[simp] theorem StringValue.anatomy_mapSpans (v : StringValue) :
    (v.mapSpans f).anatomy = v.anatomy.mapSlots f := rfl

@[simp] theorem Value.anatomy_mapSpans (v : Value) :
    (v.mapSpans f).anatomy = v.anatomy.mapSlots f := by
  induction v using Value.inductionOn with
  | list vs s ih =>
      simp [Value.mapSpans, Value.anatomy, mapSlots, Function.comp_def, List.map_congr_left ih]
  | object fs s ih =>
      have hfs : ∀ a ∈ fs, (a.mapSpans f).anatomy = a.anatomy.mapSlots f := fun a ha => by
        simp [Argument.mapSpans_eq, Argument.anatomy_eq, mapSlots, ih a ha]
      simp [Value.mapSpans, Value.anatomy, mapSlots, Function.comp_def, List.map_congr_left hfs]
  | _ => rfl

@[simp] theorem Argument.anatomy_mapSpans (a : Argument) :
    (a.mapSpans f).anatomy = a.anatomy.mapSlots f := by
  simp [Argument.mapSpans_eq, Argument.anatomy_eq, mapSlots]

@[simp] theorem TypeRef.anatomy_mapSpans (t : TypeRef) :
    (t.mapSpans f).anatomy = t.anatomy.mapSlots f := by
  induction t with
  | named n => rfl
  | list t s ih => simp [TypeRef.mapSpans, TypeRef.anatomy, mapSlots, ih]
  | nonNull t s ih => simp [TypeRef.mapSpans, TypeRef.anatomy, mapSlots, ih]

@[simp] theorem Directive.anatomy_mapSpans (d : Directive) :
    (d.mapSpans f).anatomy = d.anatomy.mapSlots f := by
  simp [Directive.mapSpans, Directive.anatomy, mapSlots]

@[simp] theorem VariableDefinition.anatomy_mapSpans (d : VariableDefinition) :
    (d.mapSpans f).anatomy = d.anatomy.mapSlots f := by
  simp [VariableDefinition.mapSpans, VariableDefinition.anatomy, mapSlots]

@[simp] theorem FragmentSpread.anatomy_mapSpans (s : FragmentSpread) :
    (s.mapSpans f).anatomy = s.anatomy.mapSlots f := by
  simp [FragmentSpread.mapSpans, FragmentSpread.anatomy, mapSlots]

/-- A law of the sets under a selection is a law of the selection. -/
theorem Selection.anatomy_mapSpans_of_inner (x : Selection)
    (h : ∀ set ∈ x.inner?, (set.mapSpans f).anatomy = set.anatomy.mapSlots f) :
    (x.mapSpans f).anatomy = x.anatomy.mapSlots f := by
  cases x with
  | field x =>
      obtain ⟨a, n, as, ds, set, s⟩ := x
      cases set with
      | none =>
          simp [Selection.mapSpans, Selection.anatomy, Field.mapSpans, Field.anatomy, mapSlots]
      | some set =>
          simp [Selection.mapSpans, Selection.anatomy, Field.mapSpans, Field.anatomy, mapSlots,
            h set rfl]
  | fragmentSpread x => simp [Selection.mapSpans, Selection.anatomy, mapSlots]
  | inlineFragment x =>
      simp [Selection.mapSpans, Selection.anatomy, InlineFragment.mapSpans_eq,
        InlineFragment.anatomy_eq, mapSlots, h _ rfl]

@[simp] theorem SelectionSet.anatomy_mapSpans (set : SelectionSet) :
    (set.mapSpans f).anatomy = set.anatomy.mapSlots f := by
  induction set using SelectionSet.inductionOn with
  | mk xs s ih =>
      have hxs : ∀ x ∈ xs, (x.mapSpans f).anatomy = x.anatomy.mapSlots f := fun x hx =>
        x.anatomy_mapSpans_of_inner f (ih x hx)
      simp [SelectionSet.mapSpans, SelectionSet.anatomy, mapSlots, Function.comp_def,
        List.map_congr_left hxs]

@[simp] theorem OperationDefinition.anatomy_mapSpans (d : OperationDefinition) :
    (d.mapSpans f).anatomy = d.anatomy.mapSlots f := by
  simp [OperationDefinition.mapSpans, OperationDefinition.anatomy, mapSlots]

@[simp] theorem FragmentDefinition.anatomy_mapSpans (d : FragmentDefinition) :
    (d.mapSpans f).anatomy = d.anatomy.mapSlots f := by
  simp [FragmentDefinition.mapSpans, FragmentDefinition.anatomy, mapSlots]

@[simp] theorem OperationTypeDefinition.anatomy_mapSpans (d : OperationTypeDefinition) :
    (d.mapSpans f).anatomy = d.anatomy.mapSlots f := rfl

@[simp] theorem SchemaDefinition.anatomy_mapSpans (d : SchemaDefinition) :
    (d.mapSpans f).anatomy = d.anatomy.mapSlots f := by
  simp [SchemaDefinition.mapSpans, SchemaDefinition.anatomy, mapSlots]

@[simp] theorem InputValueDefinition.anatomy_mapSpans (d : InputValueDefinition) :
    (d.mapSpans f).anatomy = d.anatomy.mapSlots f := by
  simp [InputValueDefinition.mapSpans, InputValueDefinition.anatomy, mapSlots]

@[simp] theorem FieldDefinition.anatomy_mapSpans (d : FieldDefinition) :
    (d.mapSpans f).anatomy = d.anatomy.mapSlots f := by
  simp [FieldDefinition.mapSpans, FieldDefinition.anatomy, mapSlots]

@[simp] theorem EnumValueDefinition.anatomy_mapSpans (d : EnumValueDefinition) :
    (d.mapSpans f).anatomy = d.anatomy.mapSlots f := by
  simp [EnumValueDefinition.mapSpans, EnumValueDefinition.anatomy, mapSlots]

@[simp] theorem TypeBody.anatomy_mapSpans (b : TypeBody) :
    (b.mapSpans f).anatomy = b.anatomy.mapSlots f := by
  cases b <;> simp [TypeBody.mapSpans, TypeBody.anatomy, mapSlots]

@[simp] theorem TypeDefinition.anatomy_mapSpans (d : TypeDefinition) :
    (d.mapSpans f).anatomy = d.anatomy.mapSlots f := by
  simp [TypeDefinition.mapSpans, TypeDefinition.anatomy, mapSlots]

@[simp] theorem DirectiveDefinition.anatomy_mapSpans (d : DirectiveDefinition) :
    (d.mapSpans f).anatomy = d.anatomy.mapSlots f := by
  simp [DirectiveDefinition.mapSpans, DirectiveDefinition.anatomy, mapSlots]

@[simp] theorem Definition.anatomy_mapSpans (d : Definition) :
    (d.mapSpans f).anatomy = d.anatomy.mapSlots f := by
  cases d <;> simp [Definition.mapSpans, Definition.anatomy, mapSlots]

@[simp] theorem Definition.mapSpans_id (d : Definition) : d.mapSpans id = d := by
  rw [← Definition.anatomy_inj, Definition.anatomy_mapSpans, mapSlots_id]

/-- Changing the spans of a document changes what stands in the places of spans, and no
other field. -/
@[simp] theorem Document.anatomy_mapSpans (d : Document) :
    (d.mapSpans f).anatomy = d.anatomy.mapSlots f := by
  have hlocation (l : Location) :
      ({ l with span := f l.span } : Location).anatomy = l.anatomy.mapSlots f := rfl
  simp [Document.mapSpans, Document.anatomy, mapSlots, hlocation]

end

/-! ### Listing spans -/

@[simp] theorem Name.slots_anatomy (n : Name) : n.anatomy.slots = n.spans := rfl

@[simp] theorem StringValue.slots_anatomy (v : StringValue) : v.anatomy.slots = v.spans := rfl

@[simp] theorem Value.slots_anatomy (v : Value) : v.anatomy.slots = v.spans := by
  induction v using Value.inductionOn with
  | list vs s ih =>
      simp [Value.anatomy, Value.spans, Anatomy.slots, List.flatMap_map, List.flatMap_congr ih]
  | object fs s ih =>
      have hfs : ∀ a ∈ fs, a.anatomy.slots = a.spans := fun a ha => by
        cases a
        simp [Argument.anatomy, Argument.spans, Anatomy.slots, ih _ ha]
      simp [Value.anatomy, Value.spans, Anatomy.slots, List.flatMap_map, List.flatMap_congr hfs]
  | _ => rfl

@[simp] theorem Argument.slots_anatomy (a : Argument) : a.anatomy.slots = a.spans := by
  cases a
  simp [Argument.anatomy, Argument.spans, Anatomy.slots]

@[simp] theorem TypeRef.slots_anatomy (t : TypeRef) : t.anatomy.slots = t.spans := by
  induction t with
  | named n => rfl
  | list t s ih => simp [TypeRef.anatomy, TypeRef.spans, Anatomy.slots, ih]
  | nonNull t s ih => simp [TypeRef.anatomy, TypeRef.spans, Anatomy.slots, ih]

@[simp] theorem Directive.slots_anatomy (d : Directive) : d.anatomy.slots = d.spans := by
  simp [Directive.anatomy, Directive.spans, Anatomy.slots]

@[simp] theorem VariableDefinition.slots_anatomy (d : VariableDefinition) :
    d.anatomy.slots = d.spans := by
  simp [VariableDefinition.anatomy, VariableDefinition.spans, Anatomy.slots]

@[simp] theorem FragmentSpread.slots_anatomy (s : FragmentSpread) :
    s.anatomy.slots = s.spans := by
  simp [FragmentSpread.anatomy, FragmentSpread.spans, Anatomy.slots]

/-- A law of the sets under a selection is a law of the selection. -/
theorem Selection.slots_anatomy_of_inner (x : Selection)
    (h : ∀ set ∈ x.inner?, set.anatomy.slots = set.spans) : x.anatomy.slots = x.spans := by
  cases x with
  | field x =>
      obtain ⟨a, n, as, ds, set, s⟩ := x
      cases set with
      | none => simp [Selection.anatomy, Selection.spans, Field.anatomy, Field.spans, Anatomy.slots]
      | some set =>
          simp [Selection.anatomy, Selection.spans, Field.anatomy, Field.spans, Anatomy.slots,
            h set rfl]
  | fragmentSpread x => simp [Selection.anatomy, Selection.spans, Anatomy.slots]
  | inlineFragment x =>
      obtain ⟨c, ds, set, s⟩ := x
      simp [Selection.anatomy, Selection.spans, InlineFragment.anatomy, InlineFragment.spans,
        Anatomy.slots, h set rfl]

@[simp] theorem SelectionSet.slots_anatomy (set : SelectionSet) :
    set.anatomy.slots = set.spans := by
  induction set using SelectionSet.inductionOn with
  | mk xs s ih =>
      have hxs : ∀ x ∈ xs, x.anatomy.slots = x.spans := fun x hx =>
        x.slots_anatomy_of_inner (ih x hx)
      simp [SelectionSet.anatomy, SelectionSet.spans, Anatomy.slots, List.flatMap_map,
        List.flatMap_congr hxs]

@[simp] theorem OperationDefinition.slots_anatomy (d : OperationDefinition) :
    d.anatomy.slots = d.spans := by
  simp [OperationDefinition.anatomy, OperationDefinition.spans, Anatomy.slots]

@[simp] theorem FragmentDefinition.slots_anatomy (d : FragmentDefinition) :
    d.anatomy.slots = d.spans := by
  simp [FragmentDefinition.anatomy, FragmentDefinition.spans, Anatomy.slots]

@[simp] theorem OperationTypeDefinition.slots_anatomy (d : OperationTypeDefinition) :
    d.anatomy.slots = d.spans := rfl

@[simp] theorem SchemaDefinition.slots_anatomy (d : SchemaDefinition) :
    d.anatomy.slots = d.spans := by
  simp [SchemaDefinition.anatomy, SchemaDefinition.spans, Anatomy.slots]

@[simp] theorem InputValueDefinition.slots_anatomy (d : InputValueDefinition) :
    d.anatomy.slots = d.spans := by
  simp [InputValueDefinition.anatomy, InputValueDefinition.spans, Anatomy.slots]

@[simp] theorem FieldDefinition.slots_anatomy (d : FieldDefinition) :
    d.anatomy.slots = d.spans := by
  simp [FieldDefinition.anatomy, FieldDefinition.spans, Anatomy.slots]

@[simp] theorem EnumValueDefinition.slots_anatomy (d : EnumValueDefinition) :
    d.anatomy.slots = d.spans := by
  simp [EnumValueDefinition.anatomy, EnumValueDefinition.spans, Anatomy.slots]

@[simp] theorem TypeBody.slots_anatomy (b : TypeBody) :
    b.anatomy.slots = b.interfaces.flatMap Name.spans ++ b.memberSpans := by
  cases b <;> simp [TypeBody.anatomy, TypeBody.interfaces, TypeBody.memberSpans, Anatomy.slots]

/-- A type lists the spans of its interfaces where they are written, in front of those of
its directives, although they belong to its body. -/
theorem TypeDefinition.slots_anatomy (d : TypeDefinition) : d.anatomy.slots.Perm d.spans := by
  have hswap : (d.directives.flatMap Directive.spans ++ d.body.interfaces.flatMap Name.spans).Perm
      (d.body.interfaces.flatMap Name.spans ++ d.directives.flatMap Directive.spans) :=
    List.perm_append_comm
  simpa [TypeDefinition.anatomy, TypeDefinition.spans, Anatomy.slots] using
    ((hswap.append_right _).append_left _).append_left _

@[simp] theorem DirectiveDefinition.slots_anatomy (d : DirectiveDefinition) :
    d.anatomy.slots = d.spans := by
  simp [DirectiveDefinition.anatomy, DirectiveDefinition.spans, Anatomy.slots]

theorem Definition.slots_anatomy (d : Definition) : d.anatomy.slots.Perm d.spans := by
  cases d with
  | type d => simpa [Definition.anatomy, Definition.spans, Anatomy.slots] using d.slots_anatomy
  | _ => simp [Definition.anatomy, Definition.spans, Anatomy.slots]

/-- The spans that a document lists are what stands in the places of spans. -/
theorem Document.slots_anatomy (d : Document) : d.anatomy.slots.Perm d.spans := by
  have hlocation : (fun l : Location => l.anatomy.slots) = fun l => [l.span] := rfl
  have hdefinitions : (d.definitions.flatMap fun x => x.anatomy.slots).Perm
      (d.definitions.flatMap Definition.spans) :=
    List.Perm.flatMap_left _ fun x _ => x.slots_anatomy
  simpa [Document.anatomy, Document.spans, Anatomy.slots, hlocation] using
    hdefinitions.append_right _

/-! ### Stripping -/

/-- A stripped document has nothing in the places of spans, and is what it was in every other
field, its source among them: it is the only document of which that can be said. What is
counted in a document is the places where a span stands, so nothing is counted once it has been
stripped, and there is nothing left to strip. -/
theorem Document.strip_exact (d : Document) :
    (∀ slot ∈ d.strip.anatomy.slots, slot = none) ∧
      (∀ e : Document, e = d.strip ↔ e.anatomy = d.anatomy.mapSlots fun _ => none) ∧
      d.strip.source? = d.source? ∧
      d.locationCount = d.anatomy.slots.countP Option.isSome ∧
      d.strip.locationCount = 0 ∧ d.strip.strip = d.strip := by
  have hanatomy : d.strip.anatomy = d.anatomy.mapSlots fun _ => none :=
    Document.anatomy_mapSpans _ d
  have hslots : ∀ slot ∈ d.strip.anatomy.slots, slot = none := fun slot hslot => by
    rw [hanatomy, slots_mapSlots] at hslot
    obtain ⟨_, -, rfl⟩ := List.mem_map.1 hslot
    rfl
  have hcount (e : Document) : e.locationCount = e.anatomy.slots.countP Option.isSome :=
    (e.slots_anatomy.countP_eq _).symm
  refine ⟨hslots, fun e => ?_, Document.source?_mapSpans _ d, hcount d, ?_, ?_⟩
  · rw [← hanatomy, Document.anatomy_inj]
  · rw [hcount, List.countP_eq_zero]
    intro slot hslot
    simp [hslots slot hslot]
  · simp [Document.strip, Document.mapSpans, Function.comp_def]

end GraphQL
