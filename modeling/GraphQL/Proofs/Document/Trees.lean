import Mathlib.Data.List.Basic
import GraphQL.Proofs.Document.Induction

/-!
The spans of a node as a tree, which has the shape of the node. Listing the spans of a
node is going through that tree, children before their parent; changing them is changing
the tree, and no span is passed over or changed twice.
-/

namespace GraphQL

/-- The span of a node, above the trees of the nodes inside it. A name has its value with
its span. -/
inductive SpanTree
  | node (name : Option String) (span : Option Span) (children : List SpanTree)

namespace SpanTree

/-- The tree of a node other than a name. -/
def plain (span : Option Span) (children : List SpanTree) : SpanTree := node none span children

mutual

/-- The spans of a tree, children before their parent. -/
def postorder : SpanTree → List (Option Span)
  | node _ span ts => postorderList ts ++ [span]

def postorderList : List SpanTree → List (Option Span)
  | [] => []
  | t :: ts => t.postorder ++ postorderList ts

end

mutual

def mapSpans (f : Option Span → Option Span) : SpanTree → SpanTree
  | node name span ts => node name (f span) (mapSpansList f ts)

def mapSpansList (f : Option Span → Option Span) : List SpanTree → List SpanTree
  | [] => []
  | t :: ts => t.mapSpans f :: mapSpansList f ts

end

@[simp] theorem postorderList_eq_flatMap (ts : List SpanTree) :
    postorderList ts = ts.flatMap postorder := by
  induction ts with
  | nil => rfl
  | cons t ts ih => simp [postorderList, ih]

@[simp] theorem mapSpansList_eq_map (f : Option Span → Option Span) (ts : List SpanTree) :
    mapSpansList f ts = ts.map (·.mapSpans f) := by
  induction ts with
  | nil => rfl
  | cons t ts ih => simp [mapSpansList, ih]

@[simp] theorem postorder_plain (span : Option Span) (ts : List SpanTree) :
    (plain span ts).postorder = ts.flatMap postorder ++ [span] := by
  rw [plain, postorder, postorderList_eq_flatMap]

@[simp] theorem mapSpans_plain (f : Option Span → Option Span) (span : Option Span)
    (ts : List SpanTree) :
    (plain span ts).mapSpans f = plain (f span) (ts.map (·.mapSpans f)) := by
  rw [plain, mapSpans, mapSpansList_eq_map, plain]

@[elab_as_elim]
theorem inductionOn {P : SpanTree → Prop} (t : SpanTree)
    (node : ∀ name span ts, (∀ t ∈ ts, P t) → P (node name span ts)) : P t :=
  @SpanTree.rec P (fun ts => ∀ t ∈ ts, P t) (fun name span ts ih => node name span ts ih)
    (List.forall_mem_nil _) (fun _ _ ht hts => List.forall_mem_cons.2 ⟨ht, hts⟩) t

@[simp] theorem postorder_mapSpans (f : Option Span → Option Span) (t : SpanTree) :
    (t.mapSpans f).postorder = t.postorder.map f := by
  induction t using inductionOn with
  | node name span ts ih =>
      have hts : (ts.map (·.mapSpans f)).flatMap postorder = (ts.flatMap postorder).map f := by
        rw [List.flatMap_map, List.map_flatMap]
        exact List.flatMap_congr ih
      simp [mapSpans, postorder, hts]

end SpanTree

open SpanTree

/-! ### The trees of nodes -/

def Name.tree (n : Name) : SpanTree := .node (some n.value) n.span []

def StringValue.tree (v : StringValue) : SpanTree := .plain v.span []

mutual

/-- Where a value is a name or a string, it has no span of its own. -/
def Value.tree : Value → SpanTree
  | .variable n => n.tree
  | .int _ s => .plain s []
  | .float _ s => .plain s []
  | .string v => v.tree
  | .boolean _ s => .plain s []
  | .null s => .plain s []
  | .enum n => n.tree
  | .list vs s => .plain s (Value.treeList vs)
  | .object fs s => .plain s (Argument.treeList fs)

def Value.treeList : List Value → List SpanTree
  | [] => []
  | v :: vs => v.tree :: Value.treeList vs

def Argument.tree : Argument → SpanTree
  | ⟨n, v, s⟩ => .plain s [n.tree, v.tree]

def Argument.treeList : List Argument → List SpanTree
  | [] => []
  | a :: as => a.tree :: Argument.treeList as

end

@[simp] theorem Value.treeList_eq_map (vs : List Value) :
    Value.treeList vs = vs.map Value.tree := by
  induction vs with
  | nil => rfl
  | cons v vs ih => simp [Value.treeList, ih]

@[simp] theorem Argument.treeList_eq_map (as : List Argument) :
    Argument.treeList as = as.map Argument.tree := by
  induction as with
  | nil => rfl
  | cons a as ih => simp [Argument.treeList, ih]

def TypeRef.tree : TypeRef → SpanTree
  | .named n => n.tree
  | .list t s => .plain s [t.tree]
  | .nonNull t s => .plain s [t.tree]

def Directive.tree (d : Directive) : SpanTree :=
  .plain d.span (d.name.tree :: d.arguments.map Argument.tree)

/-- The tree of a node that may be absent. -/
def optionalTree {α : Type} (tree : α → SpanTree) (o : Option α) : List SpanTree :=
  (o.map tree).toList

def VariableDefinition.tree (d : VariableDefinition) : SpanTree :=
  .plain d.span ([d.name.tree, d.type.tree] ++ optionalTree Value.tree d.defaultValue ++
    d.directives.map Directive.tree)

def FragmentSpread.tree (s : FragmentSpread) : SpanTree :=
  .plain s.span (s.name.tree :: s.directives.map Directive.tree)

mutual

def Selection.tree : Selection → SpanTree
  | .field x => x.tree
  | .fragmentSpread x => x.tree
  | .inlineFragment x => x.tree

def Selection.treeList : List Selection → List SpanTree
  | [] => []
  | s :: ss => s.tree :: Selection.treeList ss

def Field.tree : Field → SpanTree
  | ⟨a, n, as, ds, none, s⟩ =>
      .plain s (optionalTree Name.tree a ++ n.tree :: as.map Argument.tree ++
        ds.map Directive.tree)
  | ⟨a, n, as, ds, some set, s⟩ =>
      .plain s (optionalTree Name.tree a ++ n.tree :: as.map Argument.tree ++
        ds.map Directive.tree ++ [set.tree])

def InlineFragment.tree : InlineFragment → SpanTree
  | ⟨c, ds, set, s⟩ =>
      .plain s (optionalTree Name.tree c ++ ds.map Directive.tree ++ [set.tree])

def SelectionSet.tree : SelectionSet → SpanTree
  | ⟨ss, s⟩ => .plain s (Selection.treeList ss)

end

@[simp] theorem Selection.treeList_eq_map (ss : List Selection) :
    Selection.treeList ss = ss.map Selection.tree := by
  induction ss with
  | nil => rfl
  | cons s ss ih => simp [Selection.treeList, ih]

def OperationDefinition.tree (d : OperationDefinition) : SpanTree :=
  .plain d.span (optionalTree Name.tree d.name ++
    d.variableDefinitions.map VariableDefinition.tree ++ d.directives.map Directive.tree ++
    [d.selectionSet.tree])

def FragmentDefinition.tree (d : FragmentDefinition) : SpanTree :=
  .plain d.span (d.name.tree ::
    (d.variableDefinitions.getD []).map VariableDefinition.tree ++ d.typeCondition.tree ::
    d.directives.map Directive.tree ++ [d.selectionSet.tree])

def OperationTypeDefinition.tree (d : OperationTypeDefinition) : SpanTree :=
  .plain d.span [d.typeName.tree]

def SchemaDefinition.tree (d : SchemaDefinition) : SpanTree :=
  .plain d.span (optionalTree StringValue.tree d.description ++
    d.directives.map Directive.tree ++ d.operations.map OperationTypeDefinition.tree)

def InputValueDefinition.tree (d : InputValueDefinition) : SpanTree :=
  .plain d.span (optionalTree StringValue.tree d.description ++
    [d.name.tree, d.type.tree] ++ optionalTree Value.tree d.defaultValue ++
    d.directives.map Directive.tree)

def FieldDefinition.tree (d : FieldDefinition) : SpanTree :=
  .plain d.span (optionalTree StringValue.tree d.description ++ d.name.tree ::
    d.arguments.map InputValueDefinition.tree ++ d.type.tree :: d.directives.map Directive.tree)

def EnumValueDefinition.tree (d : EnumValueDefinition) : SpanTree :=
  .plain d.span (optionalTree StringValue.tree d.description ++ d.name.tree ::
    d.directives.map Directive.tree)

/-- The trees of what stands after the directives. -/
def TypeBody.memberTrees : TypeBody → List SpanTree
  | .scalar => []
  | .object _ fields | .interface _ fields => fields.map FieldDefinition.tree
  | .union members => members.map Name.tree
  | .enum values => values.map EnumValueDefinition.tree
  | .input fields => fields.map InputValueDefinition.tree

def TypeDefinition.tree (d : TypeDefinition) : SpanTree :=
  .plain d.span (optionalTree StringValue.tree d.description ++ d.name.tree ::
    d.body.interfaces.map Name.tree ++ d.directives.map Directive.tree ++ d.body.memberTrees)

def DirectiveDefinition.tree (d : DirectiveDefinition) : SpanTree :=
  .plain d.span (optionalTree StringValue.tree d.description ++ d.name.tree ::
    d.arguments.map InputValueDefinition.tree)

def Definition.tree : Definition → SpanTree
  | .operation d => d.tree
  | .fragment d => d.tree
  | .schema d => d.tree
  | .type d => d.tree
  | .directive d => d.tree

/-! ### Listing spans -/

@[simp] theorem flatMap_postorder_map {α : Type} (tree : α → SpanTree) (xs : List α) :
    (xs.map tree).flatMap postorder = xs.flatMap fun x => (tree x).postorder :=
  List.flatMap_map ..

@[simp] theorem flatMap_postorder_optionalTree {α : Type} (tree : α → SpanTree) (o : Option α) :
    (optionalTree tree o).flatMap postorder = optionalSpans (fun x => (tree x).postorder) o := by
  cases o with
  | none => rfl
  | some x => exact List.append_nil _

@[simp] theorem Name.postorder_tree (n : Name) : n.tree.postorder = n.spans := rfl

@[simp] theorem StringValue.postorder_tree (v : StringValue) : v.tree.postorder = v.spans := rfl

@[simp] theorem Value.postorder_tree (v : Value) : v.tree.postorder = v.spans := by
  induction v using Value.inductionOn with
  | list vs s ih => simp [Value.tree, Value.spans, List.flatMap_congr ih]
  | object fs s ih =>
      have hfs : ∀ a ∈ fs, a.tree.postorder = a.spans := fun a ha => by
        cases a
        simp [Argument.tree, Argument.spans, ih _ ha]
      simp [Value.tree, Value.spans, List.flatMap_congr hfs]
  | _ => rfl

@[simp] theorem Argument.postorder_tree (a : Argument) : a.tree.postorder = a.spans := by
  cases a
  simp [Argument.tree, Argument.spans]

@[simp] theorem TypeRef.postorder_tree (t : TypeRef) : t.tree.postorder = t.spans := by
  induction t with
  | named n => rfl
  | list t s ih => simp [TypeRef.tree, TypeRef.spans, ih]
  | nonNull t s ih => simp [TypeRef.tree, TypeRef.spans, ih]

@[simp] theorem Directive.postorder_tree (d : Directive) : d.tree.postorder = d.spans := by
  simp [Directive.tree, Directive.spans]

@[simp] theorem VariableDefinition.postorder_tree (d : VariableDefinition) :
    d.tree.postorder = d.spans := by
  simp [VariableDefinition.tree, VariableDefinition.spans]

@[simp] theorem FragmentSpread.postorder_tree (s : FragmentSpread) :
    s.tree.postorder = s.spans := by
  simp [FragmentSpread.tree, FragmentSpread.spans]

/-- A law of the sets under a selection is a law of the selection. -/
theorem Selection.postorder_tree_of_inner (x : Selection)
    (h : ∀ set ∈ x.inner?, set.tree.postorder = set.spans) : x.tree.postorder = x.spans := by
  cases x with
  | field x =>
      obtain ⟨a, n, as, ds, set, s⟩ := x
      cases set with
      | none => simp [Selection.tree, Selection.spans, Field.tree, Field.spans]
      | some set => simp [Selection.tree, Selection.spans, Field.tree, Field.spans, h set rfl]
  | fragmentSpread x => simp [Selection.tree, Selection.spans]
  | inlineFragment x =>
      obtain ⟨c, ds, set, s⟩ := x
      simp [Selection.tree, Selection.spans, InlineFragment.tree, InlineFragment.spans, h set rfl]

@[simp] theorem SelectionSet.postorder_tree (set : SelectionSet) :
    set.tree.postorder = set.spans := by
  induction set using SelectionSet.inductionOn with
  | mk ss s ih =>
      have hss : ∀ x ∈ ss, x.tree.postorder = x.spans := fun x hx =>
        x.postorder_tree_of_inner (ih x hx)
      simp [SelectionSet.tree, SelectionSet.spans, List.flatMap_congr hss]

@[simp] theorem OperationDefinition.postorder_tree (d : OperationDefinition) :
    d.tree.postorder = d.spans := by
  simp [OperationDefinition.tree, OperationDefinition.spans]

@[simp] theorem FragmentDefinition.postorder_tree (d : FragmentDefinition) :
    d.tree.postorder = d.spans := by
  obtain ⟨n, vs, c, ds, set, s⟩ := d
  cases vs <;> simp [FragmentDefinition.tree, FragmentDefinition.spans, optionalSpans]

@[simp] theorem OperationTypeDefinition.postorder_tree (d : OperationTypeDefinition) :
    d.tree.postorder = d.spans := rfl

@[simp] theorem SchemaDefinition.postorder_tree (d : SchemaDefinition) :
    d.tree.postorder = d.spans := by
  simp [SchemaDefinition.tree, SchemaDefinition.spans]

@[simp] theorem InputValueDefinition.postorder_tree (d : InputValueDefinition) :
    d.tree.postorder = d.spans := by
  simp [InputValueDefinition.tree, InputValueDefinition.spans]

@[simp] theorem FieldDefinition.postorder_tree (d : FieldDefinition) :
    d.tree.postorder = d.spans := by
  simp [FieldDefinition.tree, FieldDefinition.spans]

@[simp] theorem EnumValueDefinition.postorder_tree (d : EnumValueDefinition) :
    d.tree.postorder = d.spans := by
  simp [EnumValueDefinition.tree, EnumValueDefinition.spans]

@[simp] theorem TypeBody.flatMap_postorder_memberTrees (b : TypeBody) :
    b.memberTrees.flatMap postorder = b.memberSpans := by
  cases b <;> simp [TypeBody.memberTrees, TypeBody.memberSpans]

@[simp] theorem TypeDefinition.postorder_tree (d : TypeDefinition) :
    d.tree.postorder = d.spans := by
  simp [TypeDefinition.tree, TypeDefinition.spans]

@[simp] theorem DirectiveDefinition.postorder_tree (d : DirectiveDefinition) :
    d.tree.postorder = d.spans := by
  simp [DirectiveDefinition.tree, DirectiveDefinition.spans]

/-- The spans of a definition are listed in the order of its tree. -/
@[simp] theorem Definition.postorder_tree (d : Definition) : d.tree.postorder = d.spans := by
  cases d <;> simp [Definition.tree, Definition.spans]

/-! ### Changing spans -/

section
variable (f : Option Span → Option Span)

@[simp] theorem optionalTree_map {α : Type} (tree : α → SpanTree) (change : α → α)
    (o : Option α) :
    optionalTree tree (o.map change) = optionalTree (fun x => tree (change x)) o := by
  cases o <;> rfl

@[simp] theorem map_mapSpans_optionalTree {α : Type} (tree : α → SpanTree) (o : Option α) :
    (optionalTree tree o).map (·.mapSpans f) = optionalTree (fun x => (tree x).mapSpans f) o := by
  cases o <;> rfl

@[simp] theorem Name.tree_mapSpans (n : Name) : (n.mapSpans f).tree = n.tree.mapSpans f := rfl

@[simp] theorem StringValue.tree_mapSpans (v : StringValue) :
    (v.mapSpans f).tree = v.tree.mapSpans f := by
  simp [StringValue.mapSpans, StringValue.tree]

@[simp] theorem Value.tree_mapSpans (v : Value) : (v.mapSpans f).tree = v.tree.mapSpans f := by
  induction v using Value.inductionOn with
  | list vs s ih =>
      simp [Value.mapSpans, Value.tree, Function.comp_def, List.map_congr_left ih]
  | object fs s ih =>
      have hfs : ∀ a ∈ fs, (a.mapSpans f).tree = a.tree.mapSpans f := fun a ha => by
        cases a
        simp [Argument.mapSpans, Argument.tree, ih _ ha]
      simp [Value.mapSpans, Value.tree, Function.comp_def, List.map_congr_left hfs]
  | _ => simp [Value.mapSpans, Value.tree]

@[simp] theorem Argument.tree_mapSpans (a : Argument) :
    (a.mapSpans f).tree = a.tree.mapSpans f := by
  cases a
  simp [Argument.mapSpans, Argument.tree]

@[simp] theorem TypeRef.tree_mapSpans (t : TypeRef) :
    (t.mapSpans f).tree = t.tree.mapSpans f := by
  induction t with
  | named n => rfl
  | list t s ih => simp [TypeRef.mapSpans, TypeRef.tree, ih]
  | nonNull t s ih => simp [TypeRef.mapSpans, TypeRef.tree, ih]

@[simp] theorem Directive.tree_mapSpans (d : Directive) :
    (d.mapSpans f).tree = d.tree.mapSpans f := by
  simp [Directive.mapSpans, Directive.tree, Function.comp_def]

@[simp] theorem VariableDefinition.tree_mapSpans (d : VariableDefinition) :
    (d.mapSpans f).tree = d.tree.mapSpans f := by
  simp [VariableDefinition.mapSpans, VariableDefinition.tree, Function.comp_def]

@[simp] theorem FragmentSpread.tree_mapSpans (s : FragmentSpread) :
    (s.mapSpans f).tree = s.tree.mapSpans f := by
  simp [FragmentSpread.mapSpans, FragmentSpread.tree, Function.comp_def]

/-- A law of the sets under a selection is a law of the selection. -/
theorem Selection.tree_mapSpans_of_inner (x : Selection)
    (h : ∀ set ∈ x.inner?, (set.mapSpans f).tree = set.tree.mapSpans f) :
    (x.mapSpans f).tree = x.tree.mapSpans f := by
  cases x with
  | field x =>
      obtain ⟨a, n, as, ds, set, s⟩ := x
      cases set with
      | none =>
          simp [Selection.mapSpans, Selection.tree, Field.mapSpans, Field.tree, Function.comp_def]
      | some set =>
          simp [Selection.mapSpans, Selection.tree, Field.mapSpans, Field.tree, Function.comp_def,
            h set rfl]
  | fragmentSpread x => simp [Selection.mapSpans, Selection.tree]
  | inlineFragment x =>
      obtain ⟨c, ds, set, s⟩ := x
      simp [Selection.mapSpans, Selection.tree, InlineFragment.mapSpans, InlineFragment.tree,
        Function.comp_def, h set rfl]

@[simp] theorem SelectionSet.tree_mapSpans (set : SelectionSet) :
    (set.mapSpans f).tree = set.tree.mapSpans f := by
  induction set using SelectionSet.inductionOn with
  | mk ss s ih =>
      have hss : ∀ x ∈ ss, (x.mapSpans f).tree = x.tree.mapSpans f := fun x hx =>
        x.tree_mapSpans_of_inner f (ih x hx)
      simp [SelectionSet.mapSpans, SelectionSet.tree, Function.comp_def, List.map_congr_left hss]

@[simp] theorem OperationDefinition.tree_mapSpans (d : OperationDefinition) :
    (d.mapSpans f).tree = d.tree.mapSpans f := by
  simp [OperationDefinition.mapSpans, OperationDefinition.tree, Function.comp_def]

@[simp] theorem FragmentDefinition.tree_mapSpans (d : FragmentDefinition) :
    (d.mapSpans f).tree = d.tree.mapSpans f := by
  obtain ⟨n, vs, c, ds, set, s⟩ := d
  cases vs <;> simp [FragmentDefinition.mapSpans, FragmentDefinition.tree, Function.comp_def]

@[simp] theorem OperationTypeDefinition.tree_mapSpans (d : OperationTypeDefinition) :
    (d.mapSpans f).tree = d.tree.mapSpans f := by
  simp [OperationTypeDefinition.mapSpans, OperationTypeDefinition.tree]

@[simp] theorem SchemaDefinition.tree_mapSpans (d : SchemaDefinition) :
    (d.mapSpans f).tree = d.tree.mapSpans f := by
  simp [SchemaDefinition.mapSpans, SchemaDefinition.tree, Function.comp_def]

@[simp] theorem InputValueDefinition.tree_mapSpans (d : InputValueDefinition) :
    (d.mapSpans f).tree = d.tree.mapSpans f := by
  simp [InputValueDefinition.mapSpans, InputValueDefinition.tree, Function.comp_def]

@[simp] theorem FieldDefinition.tree_mapSpans (d : FieldDefinition) :
    (d.mapSpans f).tree = d.tree.mapSpans f := by
  simp [FieldDefinition.mapSpans, FieldDefinition.tree, Function.comp_def]

@[simp] theorem EnumValueDefinition.tree_mapSpans (d : EnumValueDefinition) :
    (d.mapSpans f).tree = d.tree.mapSpans f := by
  simp [EnumValueDefinition.mapSpans, EnumValueDefinition.tree, Function.comp_def]

@[simp] theorem TypeBody.memberTrees_mapSpans (b : TypeBody) :
    (b.mapSpans f).memberTrees = b.memberTrees.map (·.mapSpans f) := by
  cases b <;> simp [TypeBody.mapSpans, TypeBody.memberTrees, Function.comp_def]

@[simp] theorem TypeDefinition.tree_mapSpans (d : TypeDefinition) :
    (d.mapSpans f).tree = d.tree.mapSpans f := by
  simp [TypeDefinition.mapSpans, TypeDefinition.tree, Function.comp_def]

@[simp] theorem DirectiveDefinition.tree_mapSpans (d : DirectiveDefinition) :
    (d.mapSpans f).tree = d.tree.mapSpans f := by
  simp [DirectiveDefinition.mapSpans, DirectiveDefinition.tree, Function.comp_def]

/-- Changing the spans of a definition is changing those of its tree. -/
@[simp] theorem Definition.tree_mapSpans (d : Definition) :
    (d.mapSpans f).tree = d.tree.mapSpans f := by
  cases d <;> simp [Definition.mapSpans, Definition.tree]

end

end GraphQL
