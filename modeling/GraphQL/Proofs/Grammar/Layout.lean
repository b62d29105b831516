import GraphQL.Proofs.Document.Layout
import GraphQL.Proofs.Grammar.Placement
import GraphQL.Proofs.Grammar.Settings

/-!
Where the parts of a node are read. What a parser reads for a node is laid out between the
places where it starts and stops, and the same is true of what it reads for the parts of
that node. A parser that fails does so at a place where it has been.
-/

namespace GraphQL.Grammar

open SpanTree

variable {α β : Type}

/-- The cursor is at the lexemes of a list that are left, and has counted those in front. -/
def Cursor.Within (ls : List Lexeme) (c : Cursor) : Prop :=
  ∃ front, ls = front ++ c.rest ∧ c.position = front.length

/-- A name has the span of one lexeme, which is its text. -/
def IsNamed (ls : List Lexeme) (name : Option String) (s : Span) : Prop :=
  ∀ w ∈ name, s.stop = s.start + 1 ∧ ∃ l, ls[s.start]? = some l ∧ l.text = w

/-- What a parser reads is laid out as trees that fit its answer, and it does not fail at
a place in front of where it starts, nor behind the lexemes. -/
structure Lays (ls : List Lexeme) (p : Parser α) (R : α → List SpanTree → Prop) : Prop where
  laid : ∀ {c d : Cursor} {a : α}, c.Within ls → p c = .ok (a, d) →
    d.Within ls ∧ ∃ ts, Laid (IsNamed ls) c.position d.position ts ∧ R a ts
  fault : ∀ {c : Cursor} {e : SyntaxError}, c.Within ls → p c = .error e →
    c.position ≤ e.position ∧ e.position ≤ ls.length

/-- The trees are those of the answer. -/
def Forest (trees : α → List SpanTree) (a : α) (ts : List SpanTree) : Prop := ts = trees a

/-- There is one tree, and it is that of the answer. -/
def One (tree : α → SpanTree) : α → List SpanTree → Prop := Forest fun a => [tree a]

theorem Cursor.Within.start (ls : List Lexeme) : Cursor.Within ls ⟨0, ls⟩ := ⟨[], rfl, rfl⟩

theorem Cursor.Within.position_le {ls : List Lexeme} {c : Cursor} (h : c.Within ls) :
    c.position ≤ ls.length := by
  obtain ⟨front, hls, hposition⟩ := h
  rw [hls, List.length_append]
  omega

theorem Reads.within {ls : List Lexeme} {n : Nat} {p : Parser α} (hp : Reads n p)
    {c d : Cursor} {a : α} (hc : c.Within ls) (h : p c = .ok (a, d)) :
    d.Within ls ∧ c.position + n ≤ d.position := by
  obtain ⟨front, hls, hposition⟩ := hc
  obtain ⟨ms, hn, hrest, hd⟩ := hp h
  refine ⟨⟨front ++ ms, ?_, ?_⟩, by omega⟩
  · rw [hls, hrest, List.append_assoc]
  · rw [hd, hposition, List.length_append]

namespace Lays

variable {ls : List Lexeme} {p q : Parser α} {f : α → Parser β} {F : α → List SpanTree}
  {Q : α → List SpanTree → Prop} {R : β → List SpanTree → Prop} {tree : α → SpanTree}

/-! ### Steps -/

theorem imp {Q' : α → List SpanTree → Prop} (h : Lays ls p Q) (hq : ∀ a ts, Q a ts → Q' a ts) :
    Lays ls p Q' := by
  refine ⟨fun hc ha => ?_, h.fault⟩
  obtain ⟨hd, ts, hts, hQ⟩ := h.laid hc ha
  exact ⟨hd, ts, hts, hq _ ts hQ⟩

theorem pure {a : α} (h : Q a []) : Lays ls (pure a) Q := by
  constructor
  · intro c d b hc hb
    obtain ⟨rfl, rfl⟩ := Prod.mk.inj (pure_eq_ok.1 hb)
    exact ⟨hc, [], .nil (Nat.le_refl _), h⟩
  · intro c e _ he
    cases he

/-- What is read after a part is laid out behind it. -/
theorem seq (hp : Lays ls p Q)
    (hf : ∀ a ts, Q a ts → Lays ls (f a) fun b us => R b (ts ++ us)) : Lays ls (p >>= f) R := by
  constructor
  · intro c e b hc h
    obtain ⟨a, d, ha, hb⟩ := bind_eq_ok.1 h
    obtain ⟨hd, ts, hts, hQ⟩ := hp.laid hc ha
    obtain ⟨he, us, hus, hR⟩ := (hf a ts hQ).laid hd hb
    exact ⟨he, _, hts.append hus, hR⟩
  · intro c e hc h
    change (p c >>= fun x => f x.1 x.2) = _ at h
    cases hpc : p c with
    | error e' =>
        rw [hpc] at h
        cases h
        exact hp.fault hc hpc
    | ok x =>
        obtain ⟨a, d⟩ := x
        rw [hpc] at h
        obtain ⟨hd, ts, hts, hQ⟩ := hp.laid hc hpc
        obtain ⟨hle, hlength⟩ := (hf a ts hQ).fault hd h
        exact ⟨Nat.le_trans hts.le hle, hlength⟩

/-- The trees of the part are known. -/
theorem bind (hp : Lays ls p (Forest F)) (hf : ∀ a, Lays ls (f a) fun b us => R b (F a ++ us)) :
    Lays ls (p >>= f) R := by
  refine hp.seq fun a ts hts => ?_
  rw [hts]
  exact hf a

/-- An answer that is changed in the end. -/
theorem build {g : α → β} (hp : Lays ls p Q) (hg : ∀ a ts, Q a ts → R (g a) ts) :
    Lays ls (p >>= fun a => Pure.pure (g a)) R := by
  refine hp.seq fun a ts hQ => .pure ?_
  rw [List.append_nil]
  exact hg a ts hQ

/-- The last part of a sequence. -/
theorem last {g : α → β} (hp : Lays ls p (Forest F)) (hg : ∀ a, R (g a) (F a)) :
    Lays ls (p >>= fun a => Pure.pure (g a)) R := by
  refine hp.build fun a ts hts => ?_
  rw [hts]
  exact hg a

/-- A part that has no span. -/
theorem bind_nil (hp : Lays ls p (Forest fun _ => [])) (hf : ∀ a, Lays ls (f a) R) :
    Lays ls (p >>= f) R :=
  hp.bind hf

theorem fail {fault : Lexeme → Fault} : Lays ls (fail fault) Q := by
  constructor
  · intro c d a _ h
    cases h
  · intro c e hc h
    cases h
    exact ⟨Nat.le_refl _, hc.position_le⟩

theorem unexpected : Lays ls unexpected Q := .fail

theorem ite {t : Prop} [Decidable t] (hp : t → Lays ls p Q) (hq : ¬t → Lays ls q Q) :
    Lays ls (if t then p else q) Q := by
  split
  · exact hp ‹_›
  · exact hq ‹_›

/-! ### Single lexemes -/

/-- Looking at the next lexeme takes no place. -/
theorem current : Lays ls current (Forest fun _ => []) := by
  constructor
  · intro c d l hc h
    cases h
    exact ⟨hc, [], .nil (Nat.le_refl _), rfl⟩
  · intro c e _ h
    cases h

theorem advance : Lays ls advance (Forest fun _ => []) := by
  constructor
  · intro c d l hc h
    obtain ⟨hd, hle⟩ := reads_advance.within hc h
    exact ⟨hd, [], .nil hle, rfl⟩
  · intro c e _ h
    unfold Grammar.advance at h
    split at h <;> cases h

theorem sees {kind : TokenKind} : Lays ls (sees kind) (Forest fun _ => []) :=
  .bind_nil .current fun _ => .pure rfl

theorem seesName : Lays ls seesName (Forest fun _ => []) :=
  .bind_nil .current fun _ => .pure rfl

theorem seesString : Lays ls seesString (Forest fun _ => []) := by
  rw [Complete.seesString_eq]
  exact .bind_nil .current fun _ => .pure rfl

theorem accept {kind : TokenKind} : Lays ls (accept kind) (Forest fun _ => []) :=
  .bind_nil .sees fun _ => .ite (fun _ => .bind_nil .advance fun _ => .pure rfl) fun _ => .pure rfl

theorem expect {kind : TokenKind} : Lays ls (expect kind) (Forest fun _ => []) :=
  .bind_nil .sees fun _ => .ite (fun _ => .advance) fun _ => .fail

theorem expectName : Lays ls expectName (Forest fun _ => []) :=
  .bind_nil .seesName fun _ => .ite (fun _ => .advance) fun _ => .fail

/-! ### Nodes -/

/-- A node takes the span of what was read for it, unless it is the node that was read. -/
theorem spanned_or {node : Parser (Option Span → α)}
    (h : Lays ls node fun build ts =>
      ∀ s, tree (build s) = .plain s ts ∨ ts = [tree (build s)])
    (hr : Reads 1 (spanned node)) : Lays ls (spanned node) (One tree) := by
  constructor
  · intro c d a hc ha
    have hlt := (hr.within hc ha).2
    obtain ⟨start, c', hstart, ha⟩ := bind_eq_ok.1 ha
    obtain ⟨build, d', hbuild, ha⟩ := bind_eq_ok.1 ha
    obtain ⟨stop, d'', hstop, ha⟩ := bind_eq_ok.1 ha
    cases hstart
    cases hstop
    cases ha
    obtain ⟨hd, ts, hts, htree⟩ := h.laid hc hbuild
    refine ⟨hd, ?_⟩
    rcases htree (some ⟨c.position, d.position⟩) with htree | rfl
    · refine ⟨_, .whole hlt ?_ hts, congrArg (fun t => [t]) htree.symm⟩
      exact fun w hw => nomatch hw
    · exact ⟨_, hts, rfl⟩
  · intro c e hc he
    change (node c >>= fun x => _) = _ at he
    cases hnode : node c with
    | error e' =>
        rw [hnode] at he
        cases he
        exact h.fault hc hnode
    | ok x =>
        rw [hnode] at he
        cases he

theorem spanned {node : Parser (Option Span → α)}
    (h : Lays ls node fun build ts => ∀ s, tree (build s) = .plain s ts)
    (hr : Reads 1 (spanned node)) : Lays ls (spanned node) (One tree) :=
  spanned_or (h.imp fun _ _ htree s => .inl (htree s)) hr

/-! ### Recursion and lists -/

/-- The parser that calls itself may be taken to read what its body does. -/
theorem fix {n : Nat} {body : Parser α → Parser α} (hg : Guarded n body)
    (h : ∀ p, Reads n p → Lays ls p Q → Lays ls (body p) Q) : Lays ls (fix body) Q := by
  have hunroll : ∀ ms, Lays ls (unroll body ms) Q := by
    intro ms
    induction ms with
    | nil => exact .unexpected
    | cons m ms ih => exact h _ (hg.reads_unroll ms) ih
  exact ⟨fun {c _ _} => (h _ (hg.reads_unroll c.rest) (hunroll c.rest)).laid,
    fun {c _} => (h _ (hg.reads_unroll c.rest) (hunroll c.rest)).fault⟩

section
variable {item : Parser α} (hi : Lays ls item (Forest F))
include hi

theorem upTo {close : TokenKind} (hr : Reads 1 item) :
    Lays ls (upTo close item) (Forest fun xs => xs.flatMap F) :=
  .fix (guarded_upTo hr) fun _ _ hp => .bind_nil .accept fun _ => .ite (fun _ => .pure rfl)
    fun _ => hi.bind fun _ => hp.last fun _ => rfl

theorem many {opening close : TokenKind} (hr : Reads 1 item) :
    Lays ls (many opening close item) (Forest fun xs => xs.flatMap F) :=
  .bind_nil .expect fun _ => hi.bind fun _ => (hi.upTo hr).last fun _ => rfl

theorem optionalMany {opening close : TokenKind} (hr : Reads 1 item) :
    Lays ls (optionalMany opening close item) (Forest fun xs => xs.flatMap F) :=
  .bind_nil .sees fun _ => .ite (fun _ => hi.many hr) fun _ => .pure rfl

theorem whileSees {kind : TokenKind} (hr : Reads 1 item) :
    Lays ls (whileSees kind item) (Forest fun xs => xs.flatMap F) :=
  .fix (guarded_whileSees hr) fun _ _ hp => .bind_nil .sees fun _ => .ite
    (fun _ => hi.bind fun _ => hp.last fun _ => rfl) fun _ => .pure rfl

theorem separatedBy {separator : TokenKind} (hs : separator ≠ .endOfInput) (hr : Reads 1 item) :
    Lays ls (separatedBy separator item) (Forest fun xs => xs.flatMap F) := by
  have hnext : Lays ls (Grammar.expect separator >>= fun _ => item) (Forest F) :=
    .bind_nil .expect fun _ => hi
  have hreads : Reads 1 (Grammar.expect separator >>= fun _ => item) :=
    (reads_expect hs).bind_left fun _ => hr.zero
  exact .bind_nil .accept fun _ => hi.bind fun _ => (hnext.whileSees hreads).last fun _ => rfl

theorem onlyIf {test : Parser Bool} (ht : Lays ls test (Forest fun _ => [])) :
    Lays ls (onlyIf test item) (Forest fun o => o.elim [] F) :=
  .bind_nil ht fun _ => .ite (fun _ => hi.last fun _ => rfl) fun _ => .pure rfl

theorem after {kind : TokenKind} : Lays ls (after kind item) (Forest fun o => o.elim [] F) :=
  hi.onlyIf .accept

end

/-- One tree for each item. -/
theorem each {p : Parser (List α)} (h : Lays ls p (Forest fun xs => xs.flatMap fun x => [tree x])) :
    Lays ls p (Forest (·.map tree)) := by
  simpa only [List.map_eq_flatMap] using h

/-- At most one tree. -/
theorem maybe {p : Parser (Option α)}
    (h : Lays ls p (Forest fun o => o.elim [] fun x => [tree x])) :
    Lays ls p (Forest (optionalTree tree)) := by
  refine h.imp fun o ts hts => hts.trans ?_
  cases o <;> rfl

/-- Items that have no span. -/
theorem spanless {p : Parser (List α)} (h : Lays ls p (Forest fun xs => xs.flatMap fun _ => [])) :
    Lays ls p (Forest fun _ => []) :=
  h.imp fun _ _ hts => hts.trans (List.flatMap_eq_nil_iff.2 fun _ _ => rfl)

end Lays

/-! ### Names and values -/

variable {ls : List Lexeme}

/-- A name is one lexeme. -/
theorem lays_name : Lays ls name (One Name.tree) := by
  constructor
  · intro c d n hc h
    obtain ⟨hd, hlt⟩ := reads_name.within hc h
    obtain ⟨start, c', hstart, h⟩ := bind_eq_ok.1 h
    obtain ⟨build, d', hbuild, h⟩ := bind_eq_ok.1 h
    obtain ⟨stop, d'', hstop, h⟩ := bind_eq_ok.1 h
    obtain ⟨l, e, hl, hpure⟩ := bind_eq_ok.1 hbuild
    cases hstart
    cases hstop
    cases hpure
    cases h
    obtain ⟨-, hrest, hposition⟩ := advance_of_test (f := fun l => l.kind.isName) rfl hl
    obtain ⟨front, rfl, hfront⟩ := hc
    refine ⟨hd, _, .whole hlt ?_ (.nil (Nat.le_of_lt hlt)), rfl⟩
    rintro w ⟨⟩
    refine ⟨hposition, l, ?_, rfl⟩
    rw [hfront, hrest, List.getElem?_append_right (Nat.le_refl _), Nat.sub_self]
    rfl
  · have hplain : Lays ls name (One fun n => .plain n.span []) :=
      .spanned (.bind_nil .expectName fun _ => .pure fun _ => rfl) reads_name
    exact fun {c e} => hplain.fault

theorem lays_stringValueNode : Lays ls stringValueNode (One StringValue.tree) := by
  refine .spanned (.bind_nil .current fun l => ?_) reads_stringValueNode
  split
  · exact .bind_nil .expect fun _ => .pure fun _ => rfl
  · split
    · exact .bind_nil .expect fun _ => .pure fun _ => rfl
    · exact .fail
  · exact .unexpected

theorem lays_description : Lays ls description (Forest (optionalTree StringValue.tree)) :=
  .maybe (lays_stringValueNode.onlyIf .seesString)

theorem lays_argumentOf {p : Parser Value} (hp : Lays ls p (One Value.tree)) (hr : Reads 0 p) :
    Lays ls (argumentOf p) (One Argument.tree) :=
  .spanned (lays_name.bind fun _ => .bind_nil .expect fun _ => hp.last fun _ _ => rfl)
    (reads_argumentOf hr)

/-- A value that starts with a lexeme of its own. -/
theorem lays_ownValue {kind : TokenKind} (hk : kind ≠ .endOfInput)
    {f : Lexeme → Parser (Option Span → Value)} (hr : ∀ l, Reads 0 (f l))
    (hf : ∀ l, Lays ls (f l) fun build ts => ∀ s, (build s).tree = .plain s ts) :
    Lays ls (spanned (expect kind >>= f)) (One Value.tree) :=
  .spanned (.bind_nil .expect hf) (reads_spanned ((reads_expect hk).bind_left hr))

theorem lays_valueBody {const : Bool} {p : Parser Value} (hr : Reads 1 p)
    (hp : Lays ls p (One Value.tree)) : Lays ls (valueBody const p) (One Value.tree) := by
  refine .bind_nil .current fun l => ?_
  split
  · exact .ite (fun _ => .unexpected) fun _ => .bind_nil .expect fun _ =>
      lays_name.last fun _ => rfl
  · exact lays_ownValue (by decide) (fun _ => .pure _) fun _ => .pure fun _ => rfl
  · exact lays_ownValue (by decide) (fun _ => .pure _) fun _ => .pure fun _ => rfl
  · exact lays_stringValueNode.last fun _ => rfl
  · exact lays_stringValueNode.last fun _ => rfl
  · exact lays_ownValue (by decide) (fun _ => .pure _) fun _ => .pure fun _ => rfl
  · exact lays_ownValue (by decide) (fun _ => .pure _) fun _ => .pure fun _ => rfl
  · exact lays_ownValue (by decide) (fun _ => .pure _) fun _ => .pure fun _ => rfl
  · refine lays_ownValue (by decide) (fun _ => (reads_upTo hr).bind_left fun _ => .pure _)
      fun _ => (Lays.each (hp.upTo hr)).last fun vs s => ?_
    rw [Value.tree, Value.treeList_eq_map]
  · have hfield : Reads 1 (argumentOf p) := reads_argumentOf hr.zero
    refine lays_ownValue (by decide) (fun _ => (reads_upTo hfield).bind_left fun _ => .pure _)
      fun _ => (Lays.each ((lays_argumentOf hp hr.zero).upTo hfield)).last fun fs s => ?_
    rw [Value.tree, Argument.treeList_eq_map]
  · exact lays_name.last fun _ => rfl
  · exact lays_name.last fun _ => rfl
  · exact .unexpected

theorem lays_value (const : Bool) : Lays ls (value const) (One Value.tree) :=
  .fix (guarded_value const) fun _ => lays_valueBody

theorem lays_arguments (const : Bool) :
    Lays ls (arguments const) (Forest (·.map Argument.tree)) :=
  .each ((lays_argumentOf (lays_value const) (reads_value const).zero).optionalMany
    (reads_argumentOf (reads_value const).zero))

theorem lays_directive (const : Bool) : Lays ls (directive const) (One Directive.tree) :=
  .spanned (.bind_nil .expect fun _ => lays_name.bind fun _ =>
    (lays_arguments const).last fun _ _ => rfl) (reads_directive const)

theorem lays_directives (const : Bool) :
    Lays ls (directives const) (Forest (·.map Directive.tree)) :=
  .each ((lays_directive const).whileSees (reads_directive const))

theorem lays_default :
    Lays ls (after (.punctuator .equals) (value true)) (Forest (optionalTree Value.tree)) :=
  .maybe (lays_value true).after

/-! ### Types -/

theorem lays_nullableTypeRef {p : Parser TypeRef} (hr : Reads 0 p)
    (hp : Lays ls p (One TypeRef.tree)) : Lays ls (nullableTypeRef p) (One TypeRef.tree) := by
  refine .bind_nil .sees fun _ => .ite (fun _ => .spanned ?_ ?_)
    fun _ => lays_name.last fun _ => rfl
  · exact .bind_nil .expect fun _ => hp.bind fun _ => Lays.expect.last fun _ _ => rfl
  · exact reads_spanned ((reads_expect (by decide)).bind_left fun _ => hr.bind fun _ =>
      (reads_expect (by decide)).zero.bind_left fun _ => .pure _)

/-- Without an exclamation mark a type has been read already. -/
theorem lays_typeRef : Lays ls typeRef (One TypeRef.tree) := by
  refine .fix guarded_typeRef fun p hr hp => ?_
  have hreads := guarded_typeRef.reads p hr
  rw [typeRefBody_eq] at hreads ⊢
  refine .spanned_or ((lays_nullableTypeRef hr.zero hp).bind fun t => Lays.accept.last
    fun bang s => ?_) hreads
  cases bang with
  | true => exact .inl rfl
  | false => exact .inr rfl

/-! ### What is executed -/

theorem lays_field {p : Parser SelectionSet} (hr : Reads 0 p)
    (hp : Lays ls p (One SelectionSet.tree)) : Lays ls (field p) (One Field.tree) := by
  refine .spanned (lays_name.bind fun n => lays_name.after.bind fun o =>
    (lays_arguments false).bind fun as => (lays_directives false).bind fun ds =>
    (hp.onlyIf .sees).bind fun set => ?_) (reads_field hr)
  cases o with
  | none =>
      refine .pure fun s => ?_
      cases set <;> simp [Field.tree, optionalTree]
  | some m =>
      refine .pure fun s => ?_
      cases set <;> simp [Field.tree, optionalTree]

theorem lays_spread {p : Parser SelectionSet} (hp : Lays ls p (One SelectionSet.tree)) :
    Lays ls (spread p) fun build ts => ∀ s, (build s).tree = .plain s ts := by
  refine .bind_nil .expect fun _ => .bind_nil .current fun l => .ite (fun _ => ?_) fun _ => ?_
  · exact lays_name.bind fun n => (lays_directives false).last fun ds s => rfl
  · exact (Lays.maybe lays_name.after).bind fun o => (lays_directives false).bind fun ds =>
      hp.last fun set s => by simp [Selection.tree, InlineFragment.tree]

theorem lays_selection {p : Parser SelectionSet} (hr : Reads 0 p)
    (hp : Lays ls p (One SelectionSet.tree)) : Lays ls (selection p) (One Selection.tree) := by
  refine .bind_nil .sees fun _ => .ite (fun _ => .spanned (lays_spread hp)
    (reads_spanned (reads_spread hr))) fun _ => ?_
  rw [map_eq_pure_bind]
  exact (lays_field hr hp).last fun _ => rfl

theorem lays_selectionSet : Lays ls selectionSet (One SelectionSet.tree) := by
  refine .fix guarded_selectionSet fun p hr hp => .spanned ?_ (guarded_selectionSet.reads p hr)
  refine (Lays.each ((lays_selection hr.zero hp).many (reads_selection hr.zero))).last
    fun ss s => ?_
  rw [SelectionSet.tree, Selection.treeList_eq_map]

theorem lays_variableDefinition :
    Lays ls variableDefinition (One VariableDefinition.tree) :=
  .spanned (.bind_nil .expect fun _ => lays_name.bind fun _ => .bind_nil .expect fun _ =>
    lays_typeRef.bind fun _ => lays_default.bind fun _ => (lays_directives true).last
      fun _ _ => by simp [VariableDefinition.tree]) reads_variableDefinition

theorem lays_variableDefinitions :
    Lays ls variableDefinitions (Forest (·.map VariableDefinition.tree)) :=
  .each (lays_variableDefinition.optionalMany reads_variableDefinition)

theorem lays_operationType : Lays ls operationType (Forest fun _ => []) := by
  refine .bind_nil .current fun l => ?_
  split
  · exact .bind_nil .expect fun _ => .pure rfl
  · exact .bind_nil .expect fun _ => .pure rfl
  · exact .bind_nil .expect fun _ => .pure rfl
  · exact .unexpected

theorem lays_shorthandQuery :
    Lays ls shorthandQuery fun build ts => ∀ s, (build s).tree = .plain s ts :=
  lays_selectionSet.last fun _ _ => rfl

theorem lays_operation :
    Lays ls operation fun build ts => ∀ s, (build s).tree = .plain s ts :=
  .bind_nil lays_operationType fun _ => (Lays.maybe (lays_name.onlyIf .seesName)).bind fun _ =>
    lays_variableDefinitions.bind fun _ => (lays_directives false).bind fun _ =>
    lays_selectionSet.last fun _ _ => by simp [OperationDefinition.tree]

theorem lays_fragmentVariables (allowed : Bool) : Lays ls (fragmentVariables allowed)
    (Forest fun vs => (vs.getD []).map VariableDefinition.tree) := by
  refine .bind_nil .sees fun _ => .ite (fun _ => .ite (fun _ => ?_) fun _ => .fail)
    fun _ => .pure rfl
  rw [map_eq_pure_bind]
  exact lays_variableDefinitions.last fun _ => rfl

theorem lays_fragment (allowed : Bool) :
    Lays ls (fragment allowed) fun build ts => ∀ s, (build s).tree = .plain s ts :=
  .bind_nil .expect fun _ => .bind_nil .sees fun _ => .ite (fun _ => .unexpected) fun _ =>
    lays_name.bind fun _ => (lays_fragmentVariables allowed).bind fun _ =>
    .bind_nil .expect fun _ => lays_name.bind fun _ => (lays_directives false).bind fun _ =>
    lays_selectionSet.last fun _ _ => by simp [FragmentDefinition.tree]

/-! ### The type system -/

theorem lays_inputValueDefinition :
    Lays ls inputValueDefinition (One InputValueDefinition.tree) :=
  .spanned (lays_description.bind fun _ => lays_name.bind fun _ => .bind_nil .expect fun _ =>
    lays_typeRef.bind fun _ => lays_default.bind fun _ => (lays_directives true).last
      fun _ _ => by simp [InputValueDefinition.tree]) reads_inputValueDefinition

theorem lays_argumentDefinitions :
    Lays ls argumentDefinitions (Forest (·.map InputValueDefinition.tree)) :=
  .each (lays_inputValueDefinition.optionalMany reads_inputValueDefinition)

theorem lays_fieldDefinition : Lays ls fieldDefinition (One FieldDefinition.tree) :=
  .spanned (lays_description.bind fun _ => lays_name.bind fun _ =>
    lays_argumentDefinitions.bind fun _ => .bind_nil .expect fun _ => lays_typeRef.bind fun _ =>
    (lays_directives true).last fun _ _ => by simp [FieldDefinition.tree]) reads_fieldDefinition

theorem lays_enumValueDefinition : Lays ls enumValueDefinition (One EnumValueDefinition.tree) :=
  .spanned (lays_description.bind fun _ => .bind_nil .current fun _ => .ite (fun _ => .fail)
    fun _ => lays_name.bind fun _ => (lays_directives true).last
      fun _ _ => by simp [EnumValueDefinition.tree]) reads_enumValueDefinition

theorem lays_optionalBlock {item : Parser α} {tree : α → SpanTree}
    (hi : Lays ls item (One tree)) (hr : Reads 1 item) :
    Lays ls (optionalBlock item) (Forest (·.map tree)) :=
  .each (hi.optionalMany hr)

theorem lays_namesAfter {kind separator : TokenKind} (hs : separator ≠ .endOfInput) :
    Lays ls (namesAfter kind separator) (Forest (·.map Name.tree)) := by
  refine (Lays.after (Lays.each (lays_name.separatedBy hs reads_name))).last fun o => ?_
  cases o <;> rfl

theorem lays_operationTypeDefinition :
    Lays ls operationTypeDefinition (One OperationTypeDefinition.tree) :=
  .spanned (.bind_nil lays_operationType fun _ => .bind_nil .expect fun _ =>
    lays_name.last fun _ _ => rfl) reads_operationTypeDefinition

theorem lays_schemaOperations (extend : Bool) :
    Lays ls (schemaOperations extend) (Forest (·.map OperationTypeDefinition.tree)) :=
  .ite (fun _ => lays_optionalBlock lays_operationTypeDefinition reads_operationTypeDefinition)
    fun _ => .each (lays_operationTypeDefinition.many reads_operationTypeDefinition)

/-- A definition whose span is still to come, behind its description. -/
def Follows (about : Option StringValue) (build : Option Span → Definition)
    (ts : List SpanTree) : Prop :=
  ∀ s, (build s).tree = .plain s (optionalTree StringValue.tree about ++ ts)

theorem lays_schema (about : Option StringValue) (extend : Bool) :
    Lays ls (schema about extend) fun build ts => Follows about (fun s => .schema (build s)) ts :=
  .bind_nil .expect fun _ => (lays_directives true).bind fun _ =>
    (lays_schemaOperations extend).last fun _ _ => by simp [Definition.tree, SchemaDefinition.tree]

/-- The trees of what follows the name of a type. -/
def bodyTrees (r : List Directive × TypeBody) : List SpanTree :=
  r.2.interfaces.map Name.tree ++ r.1.map Directive.tree ++ r.2.memberTrees

theorem lays_fieldsBody {body : List Name → List FieldDefinition → TypeBody}
    (hbody : ∀ is ds fs, bodyTrees (ds, body is fs) =
      is.map Name.tree ++ ds.map Directive.tree ++ fs.map FieldDefinition.tree) :
    Lays ls (fieldsBody body) (Forest bodyTrees) :=
  (lays_namesAfter (by decide)).bind fun is => (lays_directives true).bind fun ds =>
    (lays_optionalBlock lays_fieldDefinition reads_fieldDefinition).last fun fs => by
      rw [Forest, hbody, List.append_assoc]

theorem lays_typeBody (k : Keyword) : Lays ls (typeBody k) (Forest bodyTrees) := by
  cases k with
  | scalar => exact (lays_directives true).last fun ds => (List.append_nil _).symm
  | type => exact lays_fieldsBody fun _ _ _ => rfl
  | interface => exact lays_fieldsBody fun _ _ _ => rfl
  | union =>
      exact (lays_directives true).bind fun _ => (lays_namesAfter (by decide)).last fun _ => rfl
  | enum =>
      exact (lays_directives true).bind fun _ =>
        (lays_optionalBlock lays_enumValueDefinition reads_enumValueDefinition).last fun _ => rfl
  | input =>
      exact (lays_directives true).bind fun _ =>
        (lays_optionalBlock lays_inputValueDefinition reads_inputValueDefinition).last fun _ => rfl
  | _ => exact .unexpected

theorem lays_typeDefinition (about : Option StringValue) (extend : Bool) (k : Keyword) :
    Lays ls (typeDefinition about extend k) fun build ts =>
      Follows about (fun s => .type (build s)) ts :=
  .bind_nil .expect fun _ => lays_name.bind fun _ => (lays_typeBody k).last fun _ _ => by
    simp [Definition.tree, TypeDefinition.tree, bodyTrees]

theorem lays_directiveLocation : Lays ls directiveLocation (Forest fun _ => []) := by
  refine .bind_nil .current fun l => .ite (fun _ => ?_) fun _ => .fail
  split
  · exact .bind_nil .expectName fun _ => .pure rfl
  · exact .unexpected

theorem lays_directiveDefinition (about : Option StringValue) :
    Lays ls (directiveDefinition about) fun build ts =>
      Follows about (fun s => .directive (build s)) ts :=
  .bind_nil .expect fun _ => .bind_nil .expect fun _ => lays_name.bind fun _ =>
    lays_argumentDefinitions.bind fun _ => .bind_nil .accept fun _ => .bind_nil .expect fun _ =>
    (Lays.spanless (lays_directiveLocation.separatedBy (by decide) reads_directiveLocation)).last
      fun _ _ => by simp [Definition.tree, DirectiveDefinition.tree]

/-! ### Definitions -/

theorem lays_extended : Lays ls extended (Follows none) := by
  refine .bind_nil .current fun l => ?_
  split
  · exact (lays_schema none true).build fun _ _ h => h
  · exact .ite (fun _ => (lays_typeDefinition none true _).build fun _ _ h => h)
      fun _ => .unexpected
  · exact .unexpected

theorem lays_extension : Lays ls extension (Follows none) :=
  .bind_nil .expect fun _ => lays_extended.seq fun _ ts h =>
    .ite (fun _ => .unexpected) fun _ => .pure (by rwa [List.append_nil])

theorem lays_keywordDefinition (allowed : Bool) (about : Option StringValue) (k : Keyword) :
    Lays ls (keywordDefinition allowed about k) (Follows about) := by
  refine .ite (fun _ => .fail) fun hnot => ?_
  -- A keyword in front of which no description stands has none.
  have hnone : takesNoDescription k = true → about = none := fun hk =>
    Option.not_isSome_iff_eq_none.1 fun h => hnot ⟨h, hk⟩
  split
  · rw [hnone rfl]
    exact lays_operation.build fun _ _ h => h
  · rw [hnone rfl]
    exact lays_operation.build fun _ _ h => h
  · rw [hnone rfl]
    exact lays_operation.build fun _ _ h => h
  · rw [hnone rfl]
    exact (lays_fragment allowed).build fun _ _ h => h
  · exact (lays_schema about false).build fun _ _ h => h
  · exact (lays_directiveDefinition about).build fun _ _ h => h
  · rw [hnone rfl]
    exact lays_extension
  · exact .ite (fun _ => (lays_typeDefinition about false _).build fun _ _ h => h)
      fun _ => .unexpected

theorem lays_definition (allowed : Bool) : Lays ls (definition allowed) (One Definition.tree) := by
  refine .spanned (.bind_nil .sees fun _ => .ite (fun _ => ?_) fun _ => ?_)
    (reads_definition allowed)
  · exact lays_shorthandQuery.build fun _ _ h => h
  · refine lays_description.bind fun about => .bind_nil .current fun l => ?_
    split
    · exact lays_keywordDefinition allowed about _
    · exact .unexpected

theorem Runs.laid {allowed : Bool} {c e : Cursor} {ds : List Definition}
    (h : Runs allowed c ds e) (hc : c.Within ls) :
    e.Within ls ∧ Laid (IsNamed ls) c.position e.position (ds.map Definition.tree) := by
  induction h with
  | nil => exact ⟨hc, .nil (Nat.le_refl _)⟩
  | cons hx _ ih =>
      obtain ⟨hd, ts, hts, rfl⟩ := (lays_definition allowed).laid hc hx
      obtain ⟨he, hds⟩ := ih hd
      exact ⟨he, hts.append hds⟩

/-- Definitions are laid out in what was read, up to a fault too. -/
theorem laid_read (allowed : Bool) (ls : List Lexeme) :
    Laid (IsNamed ls) 0 (read allowed ls).consumed
        ((read allowed ls).definitions.map Definition.tree) ∧
      (read allowed ls).consumed ≤ ls.length := by
  obtain ⟨ds, e, hruns, hstop⟩ := read_cases allowed ls
  obtain ⟨he, hds⟩ := hruns.laid (.start ls)
  obtain ⟨-, -, hread⟩ | ⟨err, herr, hread⟩ := hstop
  · rw [hread]
    exact ⟨hds, he.position_le⟩
  · -- The fault is not in front of the last definition that was read.
    obtain ⟨hle, hlength⟩ := (lays_definition allowed).fault he herr
    rw [hread]
    refine ⟨?_, hlength⟩
    rw [← List.append_nil (ds.map _)]
    exact hds.append (.nil hle)

theorem consumed_read {allowed : Bool} {ls : List Lexeme} (hc : ∀ l ∈ ls, l.Coherent)
    (h : (read allowed ls).error? = none) : (read allowed ls).consumed = ls.length := by
  obtain ⟨ds, e, hruns, ⟨-, hend, hread⟩ | ⟨err, -, hread⟩⟩ := read_cases allowed ls
  · obtain ⟨⟨front, hls, hposition⟩, -⟩ := hruns.laid (.start ls)
    rw [Cursor.rest_eq_nil (hruns.coherent hc) hend, List.append_nil] at hls
    rw [hread, hls]
    exact hposition
  · rw [hread] at h
    cases h

end GraphQL.Grammar
