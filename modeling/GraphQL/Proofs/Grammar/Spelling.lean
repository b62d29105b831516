import GraphQL.Proofs.Document.Spans
import GraphQL.Text.Block
import GraphQL.Text.Quoted
import GraphQL.Token

/-!
How trees are spelled. Writing a node out in the order of the grammar gives
slots: a lexeme that must stand there, one that may stand there, or a string
with a given value, which has many texts. A list of lexemes spells a node if it
fills the slots of the node in order, each exactly once.
-/

namespace GraphQL

namespace Lexeme

def punctuator (p : Punctuator) : Lexeme := ⟨.punctuator p, p.word⟩

def keyword (k : Keyword) : Lexeme := ⟨.keyword k, k.word⟩

/-- The lexeme of a text with the form of a name, be it a keyword or not. -/
def word (w : String) : Lexeme := ⟨.ofName w, w⟩

/-- The lexeme is a string, or a block string, with a value. -/
def Denotes (l : Lexeme) (value : String) : Bool → Prop
  | true => l.kind = .blockString ∧ blockStringValue l.text = value
  | false => l.kind = .string ∧ stringValue l.text = .ok value

theorem word_keyword (k : Keyword) : word k.word = keyword k := by
  simp [word, keyword, TokenKind.ofName, Keyword.ofWord?_word]

end Lexeme

/-- What one place of a spelling takes. -/
inductive Slot
  | lexeme (l : Lexeme)
  /-- The lexeme, or nothing at all. -/
  | optional (l : Lexeme)
  | string (value : String) (block : Bool)

namespace Slot

def mark (p : Punctuator) : Slot := lexeme (.punctuator p)

def keyword (k : Keyword) : Slot := lexeme (.keyword k)

def word (w : String) : Slot := lexeme (.word w)

end Slot

/-- Lexemes that fill slots in order. -/
inductive Spells : List Slot → List Lexeme → Prop
  | nil : Spells [] []
  | lexeme {ss ls} (l : Lexeme) : Spells ss ls → Spells (.lexeme l :: ss) (l :: ls)
  | present {ss ls} (l : Lexeme) : Spells ss ls → Spells (.optional l :: ss) (l :: ls)
  | absent {ss ls} (l : Lexeme) : Spells ss ls → Spells (.optional l :: ss) ls
  | string {ss ls value block} {l : Lexeme} : l.Denotes value block → Spells ss ls →
      Spells (.string value block :: ss) (l :: ls)

namespace Spells

variable {ss ts : List Slot} {ls ms : List Lexeme}

theorem append (hs : Spells ss ls) (ht : Spells ts ms) : Spells (ss ++ ts) (ls ++ ms) := by
  induction hs with
  | nil => exact ht
  | lexeme l _ ih => exact .lexeme l ih
  | present l _ ih => exact .present l ih
  | absent l _ ih => exact .absent l ih
  | string h _ ih => exact .string h ih

/-- A spelling of slots in two parts falls into two parts itself. -/
theorem of_append (h : Spells (ss ++ ts) ls) :
    ∃ front back, ls = front ++ back ∧ Spells ss front ∧ Spells ts back := by
  -- An optional slot that is absent adds nothing to the front.
  induction ss generalizing ls with
  | nil => exact ⟨[], ls, rfl, .nil, h⟩
  | cons s ss ih =>
      cases h with
      | lexeme l h =>
          obtain ⟨front, back, rfl, hs, ht⟩ := ih h
          exact ⟨l :: front, back, rfl, .lexeme l hs, ht⟩
      | present l h =>
          obtain ⟨front, back, rfl, hs, ht⟩ := ih h
          exact ⟨l :: front, back, rfl, .present l hs, ht⟩
      | absent l h =>
          obtain ⟨front, back, rfl, hs, ht⟩ := ih h
          exact ⟨front, back, rfl, .absent l hs, ht⟩
      | string hl h =>
          obtain ⟨front, back, rfl, hs, ht⟩ := ih h
          exact ⟨_ :: front, back, rfl, .string hl hs, ht⟩

@[simp] theorem nil_iff : Spells [] ls ↔ ls = [] :=
  ⟨fun h => by cases h; rfl, fun h => h ▸ .nil⟩

theorem lexeme_iff {l : Lexeme} :
    Spells (.lexeme l :: ss) ls ↔ ∃ rest, ls = l :: rest ∧ Spells ss rest := by
  constructor
  · intro h
    cases h with
    | lexeme l h => exact ⟨_, rfl, h⟩
  · rintro ⟨rest, rfl, h⟩
    exact .lexeme l h

theorem single (l : Lexeme) : Spells [.lexeme l] [l] := .lexeme l .nil

/-- A lexeme fills the slot of its kind and text. -/
theorem of_kind {l : Lexeme} {k : TokenKind} (h : l.kind = k) :
    Spells [.lexeme ⟨k, l.text⟩] [l] := by
  subst h
  exact single l

end Spells

/-! ### Lists of slots -/

section
variable {α : Type} (slots : α → List Slot)

def optionalSlots : Option α → List Slot
  | none => []
  | some a => slots a

/-- Items between two punctuators. -/
def enclosed (opening close : Punctuator) (xs : List α) : List Slot :=
  .mark opening :: (xs.flatMap slots ++ [.mark close])

/-- Items between two punctuators, and nothing at all where there are none. -/
def group (opening close : Punctuator) : List α → List Slot
  | [] => []
  | x :: xs => enclosed slots opening close (x :: xs)

/-- Items with a punctuator between any two, and perhaps one in front. -/
def separated (separator : Punctuator) : List α → List Slot
  | [] => []
  | x :: xs =>
      .optional (.punctuator separator) ::
        (slots x ++ xs.flatMap fun y => .mark separator :: slots y)

/-- Separated items after a lexeme, and nothing at all where there are none. -/
def introduced (l : Lexeme) (separator : Punctuator) : List α → List Slot
  | [] => []
  | x :: xs => .lexeme l :: separated slots separator (x :: xs)

end

/-! ### Values -/

def Name.slots (n : Name) : List Slot := [.word n.value]

def StringValue.slots (v : StringValue) : List Slot := [.string v.value v.block]

mutual

def Value.slots : Value → List Slot
  | .variable n => .mark .dollar :: n.slots
  | .int t _ => [.lexeme ⟨.int, t⟩]
  | .float t _ => [.lexeme ⟨.float, t⟩]
  | .string v => v.slots
  | .boolean true _ => [.keyword .trueWord]
  | .boolean false _ => [.keyword .falseWord]
  | .null _ => [.keyword .nullWord]
  | .enum n => n.slots
  | .list vs _ => .mark .bracketOpen :: (Value.slotsList vs ++ [.mark .bracketClose])
  | .object fs _ => .mark .braceOpen :: (Argument.slotsList fs ++ [.mark .braceClose])

def Value.slotsList : List Value → List Slot
  | [] => []
  | v :: vs => v.slots ++ Value.slotsList vs

def Argument.slots : Argument → List Slot
  | ⟨n, v, _⟩ => n.slots ++ .mark .colon :: v.slots

def Argument.slotsList : List Argument → List Slot
  | [] => []
  | a :: as => a.slots ++ Argument.slotsList as

end

@[simp] theorem Value.slotsList_eq_flatMap (vs : List Value) :
    Value.slotsList vs = vs.flatMap Value.slots := by
  induction vs with
  | nil => rfl
  | cons v vs ih => simp [Value.slotsList, ih]

@[simp] theorem Argument.slotsList_eq_flatMap (as : List Argument) :
    Argument.slotsList as = as.flatMap Argument.slots := by
  induction as with
  | nil => rfl
  | cons a as ih => simp [Argument.slotsList, ih]

theorem Argument.slots_eq (a : Argument) :
    a.slots = a.name.slots ++ .mark .colon :: a.value.slots := by
  cases a
  rfl

theorem Value.slots_list (vs : List Value) (s : Option Span) :
    (Value.list vs s).slots = enclosed Value.slots .bracketOpen .bracketClose vs := by
  simp [Value.slots, enclosed]

theorem Value.slots_object (fs : List Argument) (s : Option Span) :
    (Value.object fs s).slots = enclosed Argument.slots .braceOpen .braceClose fs := by
  simp [Value.slots, enclosed]

def argumentSlots (as : List Argument) : List Slot :=
  group Argument.slots .parenOpen .parenClose as

def TypeRef.slots : TypeRef → List Slot
  | named n => n.slots
  | list t _ => .mark .bracketOpen :: (t.slots ++ [.mark .bracketClose])
  | nonNull t _ => t.slots ++ [.mark .bang]

def Directive.slots (d : Directive) : List Slot :=
  .mark .atSign :: (d.name.slots ++ argumentSlots d.arguments)

/-- A default value with the sign in front of it. -/
def defaultSlots : Option Value → List Slot :=
  optionalSlots fun v => .mark .equals :: v.slots

/-! ### What is executed -/

def VariableDefinition.slots (d : VariableDefinition) : List Slot :=
  .mark .dollar :: (d.name.slots ++ .mark .colon :: (d.type.slots ++
    (defaultSlots d.defaultValue ++ d.directives.flatMap Directive.slots)))

def FragmentSpread.slots (s : FragmentSpread) : List Slot :=
  .mark .spread :: (s.name.slots ++ s.directives.flatMap Directive.slots)

/-- An alias with the colon after it. -/
def aliasSlots : Option Name → List Slot :=
  optionalSlots fun n => n.slots ++ [.mark .colon]

def conditionSlots : Option Name → List Slot :=
  optionalSlots fun n => .keyword .on :: n.slots

mutual

def Selection.slots : Selection → List Slot
  | .field x => x.slots
  | .fragmentSpread x => x.slots
  | .inlineFragment x => x.slots

def Selection.slotsList : List Selection → List Slot
  | [] => []
  | s :: ss => s.slots ++ Selection.slotsList ss

def Field.slots : Field → List Slot
  | ⟨a, n, as, ds, none, _⟩ =>
      aliasSlots a ++ (n.slots ++ (argumentSlots as ++ ds.flatMap Directive.slots))
  | ⟨a, n, as, ds, some set, _⟩ =>
      aliasSlots a ++ (n.slots ++ (argumentSlots as ++ (ds.flatMap Directive.slots ++ set.slots)))

def InlineFragment.slots : InlineFragment → List Slot
  | ⟨c, ds, set, _⟩ =>
      .mark .spread :: (conditionSlots c ++ (ds.flatMap Directive.slots ++ set.slots))

def SelectionSet.slots : SelectionSet → List Slot
  | ⟨ss, _⟩ => .mark .braceOpen :: (Selection.slotsList ss ++ [.mark .braceClose])

end

@[simp] theorem Selection.slotsList_eq_flatMap (ss : List Selection) :
    Selection.slotsList ss = ss.flatMap Selection.slots := by
  induction ss with
  | nil => rfl
  | cons s ss ih => simp [Selection.slotsList, ih]

theorem Field.slots_eq (x : Field) :
    x.slots = aliasSlots x.aliasName ++ (x.name.slots ++ (argumentSlots x.arguments ++
      (x.directives.flatMap Directive.slots ++
        optionalSlots SelectionSet.slots x.selectionSet))) := by
  obtain ⟨a, n, as, ds, set, s⟩ := x
  cases set with
  | none => simp [Field.slots, optionalSlots]
  | some set => rfl

theorem InlineFragment.slots_eq (x : InlineFragment) :
    x.slots = .mark .spread :: (conditionSlots x.typeCondition ++
      (x.directives.flatMap Directive.slots ++ x.selectionSet.slots)) := by
  cases x
  rfl

theorem SelectionSet.slots_eq (x : SelectionSet) :
    x.slots = enclosed Selection.slots .braceOpen .braceClose x.selections := by
  cases x
  simp [SelectionSet.slots, enclosed]

def OperationType.keyword : OperationType → Keyword
  | query => .query
  | mutation => .mutation
  | subscription => .subscription

def variableSlots (ds : List VariableDefinition) : List Slot :=
  group VariableDefinition.slots .parenOpen .parenClose ds

namespace OperationDefinition

/-- Is an operation a query that says nothing but what it selects? -/
def isPlain (d : OperationDefinition) : Bool :=
  d.operation == .query && d.name.isNone && d.variableDefinitions.isEmpty &&
    d.directives.isEmpty

/-- A plain query may be without its keyword. -/
def slots (d : OperationDefinition) : List Slot :=
  if d.isPlain then .optional (.keyword .query) :: d.selectionSet.slots
  else
    .keyword d.operation.keyword :: (optionalSlots Name.slots d.name ++
      (variableSlots d.variableDefinitions ++
        (d.directives.flatMap Directive.slots ++ d.selectionSet.slots)))

end OperationDefinition

def FragmentDefinition.slots (d : FragmentDefinition) : List Slot :=
  .keyword .fragment :: (d.name.slots ++
    (optionalSlots variableSlots d.variableDefinitions ++ .keyword .on ::
      (d.typeCondition.slots ++ (d.directives.flatMap Directive.slots ++ d.selectionSet.slots))))

/-! ### The type system -/

def descriptionSlots : Option StringValue → List Slot :=
  optionalSlots StringValue.slots

/-- A keyword that stands only where a flag is set. -/
def flagSlots (k : Keyword) : Bool → List Slot
  | true => [.keyword k]
  | false => []

def OperationTypeDefinition.slots (d : OperationTypeDefinition) : List Slot :=
  .keyword d.operation.keyword :: .mark .colon :: d.typeName.slots

namespace SchemaDefinition

/-- What a definition and an extension share. -/
def coreSlots (d : SchemaDefinition) : List Slot :=
  .keyword .schema :: (d.directives.flatMap Directive.slots ++
    group OperationTypeDefinition.slots .braceOpen .braceClose d.operations)

def slots (d : SchemaDefinition) : List Slot :=
  descriptionSlots d.description ++ (flagSlots .extend d.extend ++ d.coreSlots)

end SchemaDefinition

def InputValueDefinition.slots (d : InputValueDefinition) : List Slot :=
  descriptionSlots d.description ++ (d.name.slots ++ .mark .colon :: (d.type.slots ++
    (defaultSlots d.defaultValue ++ d.directives.flatMap Directive.slots)))

def argumentDefinitionSlots (ds : List InputValueDefinition) : List Slot :=
  group InputValueDefinition.slots .parenOpen .parenClose ds

def FieldDefinition.slots (d : FieldDefinition) : List Slot :=
  descriptionSlots d.description ++ (d.name.slots ++ (argumentDefinitionSlots d.arguments ++
    .mark .colon :: (d.type.slots ++ d.directives.flatMap Directive.slots)))

def EnumValueDefinition.slots (d : EnumValueDefinition) : List Slot :=
  descriptionSlots d.description ++ (d.name.slots ++ d.directives.flatMap Directive.slots)

namespace TypeBody

/-- The keyword that introduces a type. -/
def keyword : TypeBody → Keyword
  | scalar => .scalar
  | object .. => .type
  | interface .. => .interface
  | union .. => .union
  | enum .. => .enum
  | input .. => .input

/-- What stands between the name and the directives. -/
def interfaceSlots (b : TypeBody) : List Slot :=
  introduced Name.slots (.keyword .implements) .ampersand b.interfaces

/-- What stands after the directives. -/
def memberSlots : TypeBody → List Slot
  | scalar => []
  | object _ fields | interface _ fields =>
      group FieldDefinition.slots .braceOpen .braceClose fields
  | union members => introduced Name.slots (.punctuator .equals) .pipe members
  | enum values => group EnumValueDefinition.slots .braceOpen .braceClose values
  | input fields => group InputValueDefinition.slots .braceOpen .braceClose fields

end TypeBody

namespace TypeDefinition

/-- What a definition and an extension share. -/
def coreSlots (d : TypeDefinition) : List Slot :=
  .keyword d.body.keyword :: (d.name.slots ++ (d.body.interfaceSlots ++
    (d.directives.flatMap Directive.slots ++ d.body.memberSlots)))

def slots (d : TypeDefinition) : List Slot :=
  descriptionSlots d.description ++ (flagSlots .extend d.extend ++ d.coreSlots)

end TypeDefinition

def DirectiveLocation.slots (l : DirectiveLocation) : List Slot := [.word l.word]

def DirectiveDefinition.slots (d : DirectiveDefinition) : List Slot :=
  descriptionSlots d.description ++ .keyword .directive :: .mark .atSign ::
    (d.name.slots ++ (argumentDefinitionSlots d.arguments ++
      (flagSlots .repeatable d.repeatable ++ .keyword .on ::
        separated DirectiveLocation.slots .pipe d.locations)))

def Definition.slots : Definition → List Slot
  | operation d => d.slots
  | fragment d => d.slots
  | schema d => d.slots
  | type d => d.slots
  | directive d => d.slots

/-! ### Spans are not spelled -/

section
variable {α : Type} {slots : α → List Slot} (g : α → α)

theorem flatMap_map_of_forall {xs : List α} (h : ∀ x ∈ xs, slots (g x) = slots x) :
    (xs.map g).flatMap slots = xs.flatMap slots := by
  induction xs with
  | nil => rfl
  | cons x xs ih =>
      obtain ⟨hx, hxs⟩ := List.forall_mem_cons.1 h
      rw [List.map_cons, List.flatMap_cons, List.flatMap_cons, hx, ih hxs]

theorem enclosed_map_of_forall {opening close : Punctuator} {xs : List α}
    (h : ∀ x ∈ xs, slots (g x) = slots x) :
    enclosed slots opening close (xs.map g) = enclosed slots opening close xs := by
  simp only [enclosed, flatMap_map_of_forall g h]

variable (h : ∀ x, slots (g x) = slots x)
include h

theorem flatMap_map_slots (xs : List α) : (xs.map g).flatMap slots = xs.flatMap slots :=
  flatMap_map_of_forall g fun x _ => h x

theorem optionalSlots_map (o : Option α) :
    optionalSlots slots (o.map g) = optionalSlots slots o := by
  cases o with
  | none => rfl
  | some a => exact h a

theorem group_map (opening close : Punctuator) (xs : List α) :
    group slots opening close (xs.map g) = group slots opening close xs := by
  cases xs with
  | nil => rfl
  | cons x xs =>
      show enclosed slots opening close ((x :: xs).map g) = _
      exact enclosed_map_of_forall g fun x _ => h x

theorem separated_map (separator : Punctuator) (xs : List α) :
    separated slots separator (xs.map g) = separated slots separator xs := by
  cases xs with
  | nil => rfl
  | cons x xs => simp [separated, h, List.flatMap_map]

theorem introduced_map (l : Lexeme) (separator : Punctuator) (xs : List α) :
    introduced slots l separator (xs.map g) = introduced slots l separator xs := by
  cases xs with
  | nil => rfl
  | cons x xs =>
      show .lexeme l :: separated slots separator ((x :: xs).map g) = _
      rw [separated_map g h separator (x :: xs)]
      rfl

end

variable (f : Option Span → Option Span)

@[simp] theorem Name.slots_mapSpans (n : Name) : (n.mapSpans f).slots = n.slots := rfl

@[simp] theorem StringValue.slots_mapSpans (v : StringValue) :
    (v.mapSpans f).slots = v.slots := rfl

@[simp] theorem Value.slots_mapSpans (v : Value) : (v.mapSpans f).slots = v.slots := by
  induction v using Value.inductionOn with
  | list vs s ih =>
      rw [Value.mapSpans, Value.mapSpansList_eq_map, Value.slots_list, Value.slots_list]
      exact enclosed_map_of_forall _ ih
  | object fs s ih =>
      rw [Value.mapSpans, Argument.mapSpansList_eq_map, Value.slots_object, Value.slots_object]
      refine enclosed_map_of_forall _ fun a ha => ?_
      simp [Argument.mapSpans_eq, Argument.slots_eq, ih a ha]
  | boolean b s => cases b <;> rfl
  | _ => rfl

@[simp] theorem Argument.slots_mapSpans (a : Argument) : (a.mapSpans f).slots = a.slots := by
  simp [Argument.mapSpans_eq, Argument.slots_eq]

@[simp] theorem argumentSlots_mapSpans (as : List Argument) :
    argumentSlots (as.map (·.mapSpans f)) = argumentSlots as :=
  group_map _ (Argument.slots_mapSpans f) _ _ _

@[simp] theorem TypeRef.slots_mapSpans (t : TypeRef) : (t.mapSpans f).slots = t.slots := by
  induction t with
  | named n => rfl
  | list t s ih => simp [TypeRef.mapSpans, TypeRef.slots, ih]
  | nonNull t s ih => simp [TypeRef.mapSpans, TypeRef.slots, ih]

@[simp] theorem Directive.slots_mapSpans (d : Directive) : (d.mapSpans f).slots = d.slots := by
  simp [Directive.mapSpans, Directive.slots]

@[simp] theorem directiveSlots_mapSpans (ds : List Directive) :
    (ds.map (·.mapSpans f)).flatMap Directive.slots = ds.flatMap Directive.slots :=
  flatMap_map_slots _ (Directive.slots_mapSpans f) ds

@[simp] theorem defaultSlots_mapSpans (v : Option Value) :
    defaultSlots (v.map (·.mapSpans f)) = defaultSlots v :=
  optionalSlots_map _ (fun v => by simp) v

@[simp] theorem VariableDefinition.slots_mapSpans (d : VariableDefinition) :
    (d.mapSpans f).slots = d.slots := by
  simp [VariableDefinition.mapSpans, VariableDefinition.slots]

@[simp] theorem variableSlots_mapSpans (ds : List VariableDefinition) :
    variableSlots (ds.map (·.mapSpans f)) = variableSlots ds :=
  group_map _ (VariableDefinition.slots_mapSpans f) _ _ _

@[simp] theorem FragmentSpread.slots_mapSpans (s : FragmentSpread) :
    (s.mapSpans f).slots = s.slots := by
  simp [FragmentSpread.mapSpans, FragmentSpread.slots]

@[simp] theorem aliasSlots_mapSpans (n : Option Name) :
    aliasSlots (n.map (·.mapSpans f)) = aliasSlots n := by
  cases n <;> rfl

@[simp] theorem conditionSlots_mapSpans (n : Option Name) :
    conditionSlots (n.map (·.mapSpans f)) = conditionSlots n := by
  cases n <;> rfl

/-- Sets under a selection that are spelled alike are spelled alike with it. -/
theorem Selection.slots_mapSpans_of_inner (x : Selection)
    (h : ∀ set ∈ x.inner?, (set.mapSpans f).slots = set.slots) :
    (x.mapSpans f).slots = x.slots := by
  cases x with
  | field x =>
      obtain ⟨a, n, as, ds, set, s⟩ := x
      cases set with
      | none => simp [Selection.mapSpans, Selection.slots, Field.mapSpans, Field.slots]
      | some set =>
          have hset := h set rfl
          simp [Selection.mapSpans, Selection.slots, Field.mapSpans, Field.slots, hset]
  | fragmentSpread x => exact x.slots_mapSpans f
  | inlineFragment x =>
      have hset := h x.selectionSet rfl
      simp [Selection.mapSpans, Selection.slots, InlineFragment.mapSpans_eq,
        InlineFragment.slots_eq, hset]

@[simp] theorem SelectionSet.slots_mapSpans (set : SelectionSet) :
    (set.mapSpans f).slots = set.slots := by
  induction set using SelectionSet.inductionOn with
  | mk ss s ih =>
      rw [SelectionSet.mapSpans, Selection.mapSpansList_eq_map, SelectionSet.slots_eq,
        SelectionSet.slots_eq]
      exact enclosed_map_of_forall _ fun x hx => x.slots_mapSpans_of_inner f (ih x hx)

@[simp] theorem OperationDefinition.slots_mapSpans (d : OperationDefinition) :
    (d.mapSpans f).slots = d.slots := by
  have hplain : (d.mapSpans f).isPlain = d.isPlain := by
    simp [OperationDefinition.mapSpans, OperationDefinition.isPlain]
  rw [OperationDefinition.slots, OperationDefinition.slots, hplain]
  simp [OperationDefinition.mapSpans, optionalSlots_map _ (Name.slots_mapSpans f)]

@[simp] theorem FragmentDefinition.slots_mapSpans (d : FragmentDefinition) :
    (d.mapSpans f).slots = d.slots := by
  simp [FragmentDefinition.mapSpans, FragmentDefinition.slots,
    optionalSlots_map _ (variableSlots_mapSpans f)]

@[simp] theorem descriptionSlots_mapSpans (v : Option StringValue) :
    descriptionSlots (v.map (·.mapSpans f)) = descriptionSlots v :=
  optionalSlots_map _ (StringValue.slots_mapSpans f) v

@[simp] theorem SchemaDefinition.slots_mapSpans (d : SchemaDefinition) :
    (d.mapSpans f).slots = d.slots := by
  have hops : ∀ o : OperationTypeDefinition, (o.mapSpans f).slots = o.slots := fun _ => rfl
  simp [SchemaDefinition.mapSpans, SchemaDefinition.slots, SchemaDefinition.coreSlots,
    group_map _ hops]

@[simp] theorem InputValueDefinition.slots_mapSpans (d : InputValueDefinition) :
    (d.mapSpans f).slots = d.slots := by
  simp [InputValueDefinition.mapSpans, InputValueDefinition.slots]

@[simp] theorem argumentDefinitionSlots_mapSpans (ds : List InputValueDefinition) :
    argumentDefinitionSlots (ds.map (·.mapSpans f)) = argumentDefinitionSlots ds :=
  group_map _ (InputValueDefinition.slots_mapSpans f) _ _ _

@[simp] theorem FieldDefinition.slots_mapSpans (d : FieldDefinition) :
    (d.mapSpans f).slots = d.slots := by
  simp [FieldDefinition.mapSpans, FieldDefinition.slots]

@[simp] theorem EnumValueDefinition.slots_mapSpans (d : EnumValueDefinition) :
    (d.mapSpans f).slots = d.slots := by
  simp [EnumValueDefinition.mapSpans, EnumValueDefinition.slots]

namespace TypeBody

@[simp] theorem keyword_mapSpans (b : TypeBody) : (b.mapSpans f).keyword = b.keyword := by
  cases b <;> rfl

@[simp] theorem interfaceSlots_mapSpans (b : TypeBody) :
    (b.mapSpans f).interfaceSlots = b.interfaceSlots := by
  rw [interfaceSlots, interfaces_mapSpans]
  exact introduced_map _ (Name.slots_mapSpans f) _ _ _

@[simp] theorem memberSlots_mapSpans (b : TypeBody) :
    (b.mapSpans f).memberSlots = b.memberSlots := by
  cases b with
  | scalar => rfl
  | object is fs => exact group_map _ (FieldDefinition.slots_mapSpans f) _ _ fs
  | interface is fs => exact group_map _ (FieldDefinition.slots_mapSpans f) _ _ fs
  | union ms => exact introduced_map _ (Name.slots_mapSpans f) _ _ ms
  | enum vs => exact group_map _ (EnumValueDefinition.slots_mapSpans f) _ _ vs
  | input fs => exact group_map _ (InputValueDefinition.slots_mapSpans f) _ _ fs

end TypeBody

@[simp] theorem TypeDefinition.slots_mapSpans (d : TypeDefinition) :
    (d.mapSpans f).slots = d.slots := by
  simp [TypeDefinition.mapSpans, TypeDefinition.slots, TypeDefinition.coreSlots]

@[simp] theorem DirectiveDefinition.slots_mapSpans (d : DirectiveDefinition) :
    (d.mapSpans f).slots = d.slots := by
  simp [DirectiveDefinition.mapSpans, DirectiveDefinition.slots]

@[simp] theorem Definition.slots_mapSpans (d : Definition) : (d.mapSpans f).slots = d.slots := by
  cases d with
  | operation d => exact d.slots_mapSpans f
  | fragment d => exact d.slots_mapSpans f
  | schema d => exact d.slots_mapSpans f
  | type d => exact d.slots_mapSpans f
  | directive d => exact d.slots_mapSpans f

end GraphQL
