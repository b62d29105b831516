import GraphQL.Document.Spans

/-!
Induction over the nodes that nest. A property of values holds if it passes
from the values inside a list or an object to the list or object, and a
property of selection sets if it passes from the sets under the selections of a
set to the set itself.
-/

namespace GraphQL

@[elab_as_elim]
theorem Value.inductionOn {P : Value → Prop} (v : Value)
    (var : ∀ n, P (.variable n)) (int : ∀ t s, P (.int t s)) (float : ∀ t s, P (.float t s))
    (string : ∀ v, P (.string v)) (boolean : ∀ b s, P (.boolean b s)) (null : ∀ s, P (.null s))
    (enum : ∀ n, P (.enum n))
    (list : ∀ vs s, (∀ v ∈ vs, P v) → P (.list vs s))
    (object : ∀ fs s, (∀ a ∈ fs, P a.value) → P (.object fs s)) : P v :=
  @Value.rec P (fun a => P a.value) (fun vs => ∀ v ∈ vs, P v) (fun as => ∀ a ∈ as, P a.value)
    var int float string boolean null enum (fun vs s ih => list vs s ih)
    (fun fs s ih => object fs s ih) (fun _ _ _ ih => ih)
    (List.forall_mem_nil _) (fun _ _ hv hvs => List.forall_mem_cons.2 ⟨hv, hvs⟩)
    (List.forall_mem_nil _) (fun _ _ ha has => List.forall_mem_cons.2 ⟨ha, has⟩) v

/-- The selection set under a selection. -/
def Selection.inner? : Selection → Option SelectionSet
  | .field x => x.selectionSet
  | .fragmentSpread _ => none
  | .inlineFragment x => some x.selectionSet

@[elab_as_elim]
theorem SelectionSet.inductionOn {P : SelectionSet → Prop} (set : SelectionSet)
    (mk : ∀ ss s, (∀ x ∈ ss, ∀ set ∈ x.inner?, P set) → P ⟨ss, s⟩) : P set :=
  @SelectionSet.rec (fun x => ∀ set ∈ x.inner?, P set) (fun x => ∀ set ∈ x.selectionSet, P set)
    (fun x => P x.selectionSet) P (fun o => ∀ set ∈ o, P set)
    (fun ss => ∀ x ∈ ss, ∀ set ∈ x.inner?, P set)
    (fun _ ih => ih) (fun _ _ h => nomatch h) (fun _ ih _ h => Option.some.inj h ▸ ih)
    (fun _ _ _ _ _ _ ih => ih) (fun _ _ _ _ ih => ih) (fun ss s ih => mk ss s ih)
    (fun _ h => nomatch h) (fun _ ih _ h => Option.some.inj h ▸ ih)
    (List.forall_mem_nil _) (fun _ _ hx hss => List.forall_mem_cons.2 ⟨hx, hss⟩) set

end GraphQL
