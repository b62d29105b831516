import GraphQL.Document

/-!
Deciding equality of documents. For the nodes that nest, a Boolean test is
written by recursion and shown to agree with equality; the other nodes follow.
-/

namespace GraphQL

mutual

def Value.same : Value → Value → Bool
  | .variable m, .variable n => m == n
  | .int t s, .int t' s' => t == t' && s == s'
  | .float t s, .float t' s' => t == t' && s == s'
  | .string v, .string v' => v == v'
  | .boolean b s, .boolean b' s' => b == b' && s == s'
  | .null s, .null s' => s == s'
  | .enum m, .enum n => m == n
  | .list vs s, .list vs' s' => Value.sameList vs vs' && s == s'
  | .object fs s, .object fs' s' => Argument.sameList fs fs' && s == s'
  | _, _ => false

def Value.sameList : List Value → List Value → Bool
  | [], [] => true
  | v :: vs, v' :: vs' => v.same v' && Value.sameList vs vs'
  | _, _ => false

def Argument.same : Argument → Argument → Bool
  | ⟨n, v, s⟩, ⟨n', v', s'⟩ => n == n' && v.same v' && s == s'

def Argument.sameList : List Argument → List Argument → Bool
  | [], [] => true
  | a :: as, a' :: as' => a.same a' && Argument.sameList as as'
  | _, _ => false

end

mutual

theorem Value.same_iff : ∀ v w : Value, v.same w = true ↔ v = w
  | .variable _, w => by cases w <;> simp [Value.same]
  | .int _ _, w => by cases w <;> simp [Value.same]
  | .float _ _, w => by cases w <;> simp [Value.same]
  | .string _, w => by cases w <;> simp [Value.same]
  | .boolean _ _, w => by cases w <;> simp [Value.same]
  | .null _, w => by cases w <;> simp [Value.same]
  | .enum _, w => by cases w <;> simp [Value.same]
  | .list vs _, w => by cases w <;> simp [Value.same, Value.sameList_iff vs]
  | .object fs _, w => by cases w <;> simp [Value.same, Argument.sameList_iff fs]

theorem Value.sameList_iff : ∀ vs ws : List Value, Value.sameList vs ws = true ↔ vs = ws
  | [], ws => by cases ws <;> simp [Value.sameList]
  | v :: vs, ws => by
      cases ws <;> simp [Value.sameList, Value.same_iff v, Value.sameList_iff vs]

theorem Argument.same_iff : ∀ a b : Argument, a.same b = true ↔ a = b
  | ⟨_, v, _⟩, ⟨_, _, _⟩ => by simp [Argument.same, Value.same_iff v, and_assoc]

theorem Argument.sameList_iff : ∀ as bs : List Argument, Argument.sameList as bs = true ↔ as = bs
  | [], bs => by cases bs <;> simp [Argument.sameList]
  | a :: as, bs => by
      cases bs <;> simp [Argument.sameList, Argument.same_iff a, Argument.sameList_iff as]

end

instance : DecidableEq Value := fun v w => decidable_of_iff _ (Value.same_iff v w)

instance : DecidableEq Argument := fun a b => decidable_of_iff _ (Argument.same_iff a b)

deriving instance DecidableEq for Directive, VariableDefinition, FragmentSpread

mutual

def Selection.same : Selection → Selection → Bool
  | .field f, .field f' => f.same f'
  | .fragmentSpread s, .fragmentSpread s' => s == s'
  | .inlineFragment f, .inlineFragment f' => f.same f'
  | _, _ => false

def Selection.sameList : List Selection → List Selection → Bool
  | [], [] => true
  | s :: ss, s' :: ss' => s.same s' && Selection.sameList ss ss'
  | _, _ => false

def Field.same : Field → Field → Bool
  | ⟨a, n, as, ds, none, s⟩, ⟨a', n', as', ds', none, s'⟩ =>
      a == a' && n == n' && as == as' && ds == ds' && s == s'
  | ⟨a, n, as, ds, some set, s⟩, ⟨a', n', as', ds', some set', s'⟩ =>
      a == a' && n == n' && as == as' && ds == ds' && set.same set' && s == s'
  | _, _ => false

def InlineFragment.same : InlineFragment → InlineFragment → Bool
  | ⟨c, ds, set, s⟩, ⟨c', ds', set', s'⟩ => c == c' && ds == ds' && set.same set' && s == s'

def SelectionSet.same : SelectionSet → SelectionSet → Bool
  | ⟨ss, s⟩, ⟨ss', s'⟩ => Selection.sameList ss ss' && s == s'

end

mutual

theorem Selection.same_iff : ∀ s t : Selection, s.same t = true ↔ s = t
  | .field f, t => by cases t <;> simp [Selection.same, Field.same_iff f]
  | .fragmentSpread _, t => by cases t <;> simp [Selection.same]
  | .inlineFragment f, t => by cases t <;> simp [Selection.same, InlineFragment.same_iff f]

theorem Selection.sameList_iff :
    ∀ ss ts : List Selection, Selection.sameList ss ts = true ↔ ss = ts
  | [], ts => by cases ts <;> simp [Selection.sameList]
  | s :: ss, ts => by
      cases ts <;> simp [Selection.sameList, Selection.same_iff s, Selection.sameList_iff ss]

theorem Field.same_iff : ∀ f g : Field, f.same g = true ↔ f = g
  | ⟨_, _, _, _, none, _⟩, ⟨_, _, _, _, set', _⟩ => by
      cases set' <;> simp [Field.same, and_assoc]
  | ⟨_, _, _, _, some set, _⟩, ⟨_, _, _, _, set', _⟩ => by
      cases set' <;> simp [Field.same, SelectionSet.same_iff set, and_assoc]

theorem InlineFragment.same_iff : ∀ f g : InlineFragment, f.same g = true ↔ f = g
  | ⟨_, _, set, _⟩, ⟨_, _, _, _⟩ => by
      simp [InlineFragment.same, SelectionSet.same_iff set, and_assoc]

theorem SelectionSet.same_iff : ∀ s t : SelectionSet, s.same t = true ↔ s = t
  | ⟨ss, _⟩, ⟨_, _⟩ => by simp [SelectionSet.same, Selection.sameList_iff ss]

end

instance : DecidableEq SelectionSet := fun s t => decidable_of_iff _ (SelectionSet.same_iff s t)

deriving instance DecidableEq for OperationDefinition, FragmentDefinition,
  SchemaDefinition, InputValueDefinition, FieldDefinition, EnumValueDefinition, TypeBody,
  TypeDefinition, DirectiveDefinition, Definition, Document

end GraphQL
