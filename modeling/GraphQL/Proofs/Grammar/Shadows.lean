import GraphQL.Proofs.Grammar.Placement

/-!
What decides whether lexemes are a document. The value of a string does not, as
long as it has one: a parser goes the same way on lexemes that differ in such
values alone, and it finds definitions at the same places. Two parsers are
compared that are run on the two lists; they agree when both fail, or both succeed
with answers that are related.
-/

namespace GraphQL

/-- What a parser can tell of a lexeme without the value of a string. -/
def Lexeme.shadow (l : Lexeme) : TokenKind × String :=
  (l.kind, match l.kind with
    | .blockString => ""
    | .string => if (stringValue l.text).isOk then "" else "\\"
    | _ => l.text)

def Definition.isFragment : Definition → Bool
  | fragment _ => true
  | _ => false

/-- What can be told of a definition alike: where it stands, and whether it is a
fragment. -/
def Definition.site (d : Definition) : Option Span × Bool := (d.span, d.isFragment)

namespace Grammar

variable {α β γ : Type}

/-- As many lexemes have been read, and those that are left have the same shadows. -/
structure Cursor.Alike (c d : Cursor) : Prop where
  position : c.position = d.position
  rest : c.rest.map Lexeme.shadow = d.rest.map Lexeme.shadow

/-- Two results are both errors, or both answers that are related. -/
inductive Match (R : α → β → Prop) :
    Except SyntaxError (α × Cursor) → Except SyntaxError (β × Cursor) → Prop
  | ok {a : α} {b : β} {c d : Cursor} : R a b → c.Alike d → Match R (.ok (a, c)) (.ok (b, d))
  | error (e f : SyntaxError) : Match R (.error e) (.error f)

/-- Run on lexemes with the same shadows, the parsers agree. -/
def Agree (p : Parser α) (q : Parser β) (R : α → β → Prop) : Prop :=
  ∀ ⦃c d : Cursor⦄, c.Alike d → Match R (p c) (q d)

/-- The relation of answers of which nothing more need be known. -/
def anyTwo (_ : α) (_ : β) : Prop := True

/-- Lists of which both are empty or none is. -/
def bothEmpty (xs ys : List α) : Prop := xs.isEmpty = ys.isEmpty

theorem bothEmpty.and {xs ys : List α} {b b' : Bool} (h : bothEmpty xs ys) (hb : b = b') :
    (xs.isEmpty && b) = (ys.isEmpty && b') := by
  rw [show xs.isEmpty = ys.isEmpty from h, hb]

/-- Answers that are related, or errors on both sides. -/
inductive bothOk (R : α → β → Prop) : Except SyntaxError α → Except SyntaxError β → Prop
  | ok {a : α} {b : β} : R a b → bothOk R (.ok a) (.ok b)
  | error (e f : SyntaxError) : bothOk R (.error e) (.error f)

theorem isSome_eq_of_rel {R : α → β → Prop} {o : Option α} {o' : Option β}
    (h : Option.Rel R o o') : o.isSome = o'.isSome := by
  cases h <;> rfl

namespace Agree

variable {p p' : Parser α} {q q' : Parser β} {R R' : α → β → Prop}

theorem imp (h : Agree p q R) (hr : ∀ a b, R a b → R' a b) : Agree p q R' := by
  intro c d hcd
  have hmatch := h hcd
  generalize p c = r, q d = s at hmatch ⊢
  cases hmatch with
  | ok hab hcd' => exact .ok (hr _ _ hab) hcd'
  | error e f => exact .error e f

theorem pure {a : α} {b : β} (h : R a b) : Agree (pure a) (pure b) R :=
  fun _ _ hcd => .ok h hcd

theorem fail (f g : Lexeme → Fault) : Agree (fail f) (fail g) R :=
  fun _ _ _ => .error _ _

theorem unexpected : Agree unexpected unexpected R := .fail _ _

theorem bind {α' β' : Type} {f : α → Parser α'} {g : β → Parser β'} {S : α' → β' → Prop}
    (h : Agree p q R) (hf : ∀ a b, R a b → Agree (f a) (g b) S) :
    Agree (p >>= f) (q >>= g) S := by
  intro c d hcd
  have hmatch := h hcd
  show Match S (p c >>= fun x => f x.1 x.2) (q d >>= fun x => g x.1 x.2)
  generalize p c = r, q d = s at hmatch ⊢
  cases hmatch with
  | ok hab hcd' => exact hf _ _ hab hcd'
  | error e f => exact .error e f

/-- What is read last decides on the relation. -/
theorem last {α' β' : Type} {f : α → α'} {g : β → β'} {S : α' → β' → Prop} (h : Agree p q R)
    (hf : ∀ a b, R a b → S (f a) (g b)) :
    Agree (p >>= fun a => Pure.pure (f a)) (q >>= fun b => Pure.pure (g b)) S :=
  h.bind fun a b hab => .pure (hf a b hab)

theorem ite {t : Prop} [Decidable t] (h : Agree p q R) (h' : Agree p' q' R) :
    Agree (if t then p else p') (if t then q else q') R := by
  split
  · exact h
  · exact h'

/-! ### Single lexemes -/

theorem position : Agree position position anyTwo := fun _ _ hcd => .ok trivial hcd

theorem current : Agree current current fun l m => l.shadow = m.shadow := by
  rintro ⟨n, ls⟩ ⟨m, ms⟩ hcd
  refine .ok ?_ hcd
  have hrest : ls.map Lexeme.shadow = ms.map Lexeme.shadow := hcd.rest
  cases ls with
  | nil =>
      cases List.map_eq_nil_iff.1 hrest.symm
      rfl
  | cons l ls =>
      obtain ⟨k, ks, rfl, hk, -⟩ := List.map_eq_cons_iff.1 hrest.symm
      exact hk.symm

theorem advance : Agree advance advance fun l m => l.shadow = m.shadow := by
  rintro ⟨n, ls⟩ ⟨m, ms⟩ hcd
  have hrest : ls.map Lexeme.shadow = ms.map Lexeme.shadow := hcd.rest
  cases ls with
  | nil =>
      cases List.map_eq_nil_iff.1 hrest.symm
      exact .ok rfl hcd
  | cons l ls =>
      obtain ⟨k, ks, rfl, hk, hks⟩ := List.map_eq_cons_iff.1 hrest.symm
      exact .ok hk.symm ⟨congrArg Nat.succ hcd.position, hks.symm⟩

/-- A look at the kind of the next lexeme. -/
theorem kind {f : Lexeme → Parser α} {g : Lexeme → Parser β}
    (h : ∀ l m, l.shadow = m.shadow → l.kind = m.kind → Agree (f l) (g m) R) :
    Agree (Grammar.current >>= f) (Grammar.current >>= g) R :=
  current.bind fun l m hlm => h l m hlm (congrArg Prod.fst hlm)

theorem sees (k : TokenKind) : Agree (sees k) (sees k) Eq :=
  .kind fun _ _ _ hk => .pure (by rw [hk])

theorem seesName : Agree seesName seesName Eq :=
  .kind fun _ _ _ hk => .pure (by rw [hk])

theorem accept (k : TokenKind) : Agree (accept k) (accept k) Eq := by
  refine (sees k).bind ?_
  rintro b _ rfl
  exact .ite (advance.last fun _ _ _ => rfl) (.pure rfl)

theorem expect (k : TokenKind) : Agree (expect k) (expect k) fun l m => l.shadow = m.shadow := by
  refine (sees k).bind ?_
  rintro b _ rfl
  exact .ite advance (.fail _ _)

theorem expectName : Agree expectName expectName fun l m => l.shadow = m.shadow := by
  refine seesName.bind ?_
  rintro b _ rfl
  exact .ite advance (.fail _ _)

theorem spanned {p : Parser (Option Span → α)} {q : Parser (Option Span → β)}
    (h : Agree p q fun f g => ∀ s t, R (f s) (g t)) : Agree (spanned p) (spanned q) R :=
  position.bind fun _ _ _ => h.bind fun _ _ hfg => position.last fun _ _ _ => hfg _ _

/-- A node of which nothing more need be known. -/
theorem node {p : Parser (Option Span → α)} {q : Parser (Option Span → β)}
    (h : Agree p q anyTwo) : Agree (Grammar.spanned p) (Grammar.spanned q) anyTwo :=
  .spanned (h.imp fun _ _ _ _ _ => trivial)

/-- Both errors are handed on as answers, or none is. -/
theorem attempt (h : Agree p q R) : Agree (attempt p) (attempt q) (bothOk R) := by
  intro c d hcd
  have hmatch := h hcd
  unfold Grammar.attempt
  generalize p c = r, q d = s at hmatch ⊢
  cases hmatch with
  | ok hab hcd' => exact .ok (.ok hab) hcd'
  | error e f => exact .ok (.error e f) hcd

/-! ### Recursion and lists -/

theorem fix {body body' : Parser α → Parser α} {R : α → α → Prop}
    (h : ∀ p q, Agree p q R → Agree (body p) (body' q) R) : Agree (fix body) (fix body') R := by
  -- Both run as often as there are lexemes, and those are as many on either side.
  have hunroll : ∀ ls ms : List Lexeme, ls.length = ms.length →
      Agree (unroll body ls) (unroll body' ms) R := by
    intro ls
    induction ls with
    | nil =>
        intro ms hms
        rw [List.eq_nil_of_length_eq_zero hms.symm]
        exact .unexpected
    | cons l ls ih =>
        intro ms hms
        obtain ⟨m, ms, rfl⟩ := List.exists_cons_of_length_eq_add_one hms.symm
        exact h _ _ (ih ms (Nat.succ.inj hms))
  intro c d hcd
  have hlength : c.rest.length = d.rest.length := by
    have hmap := congrArg List.length hcd.rest
    rwa [List.length_map, List.length_map] at hmap
  exact h _ _ (hunroll _ _ hlength) hcd

section
variable {item item' : Parser α} (hi : Agree item item' anyTwo)
include hi

theorem upTo (close : TokenKind) : Agree (upTo close item) (upTo close item') bothEmpty := by
  refine .fix fun p q hpq => (accept close).bind ?_
  rintro b _ rfl
  exact .ite (.pure rfl) (hi.bind fun _ _ _ => hpq.last fun _ _ _ => rfl)

theorem many (opening close : TokenKind) :
    Agree (many opening close item) (many opening close item') bothEmpty :=
  (expect opening).bind fun _ _ _ => hi.bind fun _ _ _ => (upTo hi close).last fun _ _ _ => rfl

theorem optionalMany (opening close : TokenKind) :
    Agree (optionalMany opening close item) (optionalMany opening close item') bothEmpty := by
  refine (sees opening).bind ?_
  rintro b _ rfl
  exact .ite (many hi opening close) (.pure rfl)

theorem whileSees (kind : TokenKind) :
    Agree (whileSees kind item) (whileSees kind item') bothEmpty := by
  refine .fix fun p q hpq => (sees kind).bind ?_
  rintro b _ rfl
  exact .ite (hi.bind fun _ _ _ => hpq.last fun _ _ _ => rfl) (.pure rfl)

theorem separatedBy (separator : TokenKind) :
    Agree (separatedBy separator item) (separatedBy separator item') bothEmpty :=
  (accept separator).bind fun _ _ _ => hi.bind fun _ _ _ =>
    (whileSees ((expect separator).bind fun _ _ _ => hi) separator).last fun _ _ _ => rfl

end

theorem onlyIf {item item' : Parser α} {R : α → α → Prop} (hi : Agree item item' R)
    {test : Parser Bool} (ht : Agree test test Eq) :
    Agree (onlyIf test item) (onlyIf test item') (Option.Rel R) := by
  refine ht.bind ?_
  rintro b _ rfl
  exact .ite (hi.last fun _ _ h => .some h) (.pure .none)

theorem after {item item' : Parser α} {R : α → α → Prop} (hi : Agree item item' R)
    (kind : TokenKind) : Agree (after kind item) (after kind item') (Option.Rel R) :=
  hi.onlyIf (accept kind)

end Agree
/-! ### Values -/

theorem agree_name : Agree name name anyTwo :=
  .node (Agree.expectName.last fun _ _ _ => trivial)

theorem agree_stringValueNode : Agree stringValueNode stringValueNode anyTwo := by
  refine .node (.kind fun l m hlm hk => ?_)
  rw [hk]
  split
  · exact (Agree.expect _).last fun _ _ _ => trivial
  · rename_i hkind
    -- Strings with the same shadow have both a value or both none.
    have hvalue : (stringValue l.text).isOk = (stringValue m.text).isOk := by
      have htext := congrArg Prod.snd hlm
      simp only [Lexeme.shadow, hk, hkind] at htext
      revert htext
      cases (stringValue l.text).isOk <;> cases (stringValue m.text).isOk <;> decide
    cases hl : stringValue l.text with
    | ok v =>
        cases hm : stringValue m.text with
        | ok w => exact (Agree.expect _).last fun _ _ _ => trivial
        | error e => simp [hl, hm, Except.isOk, Except.toBool] at hvalue
    | error e =>
        cases hm : stringValue m.text with
        | ok w => simp [hl, hm, Except.isOk, Except.toBool] at hvalue
        | error e' => exact .fail _ _
  · exact .unexpected

theorem agree_description : Agree description description (Option.Rel anyTwo) := by
  refine .onlyIf agree_stringValueNode (.kind fun l m _ hk => ?_)
  rw [hk]
  split <;> exact .pure rfl

theorem agree_argumentOf {p q : Parser Value} (h : Agree p q anyTwo) :
    Agree (argumentOf p) (argumentOf q) anyTwo :=
  .node (agree_name.bind fun _ _ _ => (Agree.expect _).bind fun _ _ _ =>
    h.last fun _ _ _ => trivial)

theorem agree_valueBody (const : Bool) {p q : Parser Value} (h : Agree p q anyTwo) :
    Agree (valueBody const p) (valueBody const q) anyTwo := by
  -- One case for each way to start a value, in the order of the grammar.
  refine .kind fun l m _ hk => ?_
  rw [hk]
  split
  · exact .ite .unexpected ((Agree.expect _).bind fun _ _ _ => agree_name.last fun _ _ _ => trivial)
  · exact .node ((Agree.expect _).last fun _ _ _ => trivial)
  · exact .node ((Agree.expect _).last fun _ _ _ => trivial)
  · exact agree_stringValueNode.last fun _ _ _ => trivial
  · exact agree_stringValueNode.last fun _ _ _ => trivial
  · exact .node ((Agree.expect _).last fun _ _ _ => trivial)
  · exact .node ((Agree.expect _).last fun _ _ _ => trivial)
  · exact .node ((Agree.expect _).last fun _ _ _ => trivial)
  · exact .node ((Agree.expect _).bind fun _ _ _ => (h.upTo _).last fun _ _ _ => trivial)
  · exact .node ((Agree.expect _).bind fun _ _ _ =>
      ((agree_argumentOf h).upTo _).last fun _ _ _ => trivial)
  · exact agree_name.last fun _ _ _ => trivial
  · exact agree_name.last fun _ _ _ => trivial
  · exact .unexpected

theorem agree_value (const : Bool) : Agree (value const) (value const) anyTwo :=
  .fix fun _ _ => agree_valueBody const

theorem agree_arguments (const : Bool) :
    Agree (arguments const) (arguments const) bothEmpty :=
  (agree_argumentOf (agree_value const)).optionalMany _ _

theorem agree_directive (const : Bool) : Agree (directive const) (directive const) anyTwo :=
  .node ((Agree.expect _).bind fun _ _ _ => agree_name.bind fun _ _ _ =>
    (agree_arguments const).last fun _ _ _ => trivial)

theorem agree_directives (const : Bool) : Agree (directives const) (directives const) bothEmpty :=
  (agree_directive const).whileSees _

/-! ### Types -/

theorem agree_nullableTypeRef {p q : Parser TypeRef} (h : Agree p q anyTwo) :
    Agree (nullableTypeRef p) (nullableTypeRef q) anyTwo := by
  refine (Agree.sees _).bind ?_
  rintro b _ rfl
  exact .ite
    (.node ((Agree.expect _).bind fun _ _ _ => h.bind fun _ _ _ =>
      (Agree.expect _).last fun _ _ _ => trivial))
    (agree_name.last fun _ _ _ => trivial)

theorem agree_typeRef : Agree typeRef typeRef anyTwo := by
  refine .fix fun p q h => Agree.position.bind fun _ _ _ => (agree_nullableTypeRef h).bind
    fun _ _ _ => (Agree.accept _).bind ?_
  rintro b _ rfl
  exact .ite (Agree.position.last fun _ _ _ => trivial) (.pure trivial)

/-! ### What is executed -/

theorem agree_field {p q : Parser SelectionSet} (h : Agree p q anyTwo) :
    Agree (field p) (field q) anyTwo := by
  refine .node (agree_name.bind fun _ _ _ => (agree_name.after _).bind fun o o' _ =>
    (agree_arguments false).bind fun _ _ _ => (agree_directives false).bind fun _ _ _ =>
    (h.onlyIf (Agree.sees _)).bind fun _ _ _ => ?_)
  cases o <;> cases o' <;> exact .pure trivial

theorem agree_spread {p q : Parser SelectionSet} (h : Agree p q anyTwo) :
    Agree (spread p) (spread q) anyTwo := by
  refine (Agree.expect _).bind fun _ _ _ => .kind fun l m _ hk => ?_
  rw [hk]
  exact .ite
    (agree_name.bind fun _ _ _ => (agree_directives false).last fun _ _ _ => trivial)
    ((agree_name.after _).bind fun _ _ _ => (agree_directives false).bind fun _ _ _ =>
      h.last fun _ _ _ => trivial)

theorem agree_selectionSet : Agree selectionSet selectionSet anyTwo := by
  have hselection : ∀ p q : Parser SelectionSet, Agree p q anyTwo →
      Agree (selection p) (selection q) anyTwo := by
    intro p q h
    refine (Agree.sees _).bind ?_
    rintro b _ rfl
    refine .ite (.node (agree_spread h)) ?_
    rw [map_eq_pure_bind, map_eq_pure_bind]
    exact (agree_field h).last fun _ _ _ => trivial
  exact .fix fun p q h => .node (((hselection p q h).many _ _).last fun _ _ _ => trivial)

theorem agree_variableDefinitions :
    Agree variableDefinitions variableDefinitions bothEmpty :=
  .optionalMany (.node ((Agree.expect _).bind fun _ _ _ => agree_name.bind fun _ _ _ =>
    (Agree.expect _).bind fun _ _ _ => agree_typeRef.bind fun _ _ _ =>
    ((agree_value true).after _).bind fun _ _ _ =>
    (agree_directives true).last fun _ _ _ => trivial)) _ _

theorem agree_operationType : Agree operationType operationType anyTwo := by
  refine .kind fun l m _ hk => ?_
  rw [hk]
  split
  · exact (Agree.expect _).last fun _ _ _ => trivial
  · exact (Agree.expect _).last fun _ _ _ => trivial
  · exact (Agree.expect _).last fun _ _ _ => trivial
  · exact .unexpected

theorem agree_shorthandQuery : Agree shorthandQuery shorthandQuery anyTwo :=
  agree_selectionSet.last fun _ _ _ => trivial

theorem agree_operation : Agree operation operation anyTwo :=
  agree_operationType.bind fun _ _ _ => (agree_name.onlyIf .seesName).bind fun _ _ _ =>
    agree_variableDefinitions.bind fun _ _ _ => (agree_directives false).bind fun _ _ _ =>
    agree_selectionSet.last fun _ _ _ => trivial

theorem agree_fragment (allowed : Bool) : Agree (fragment allowed) (fragment allowed) anyTwo := by
  have hvariables : Agree (fragmentVariables allowed) (fragmentVariables allowed) anyTwo := by
    refine (Agree.sees _).bind ?_
    rintro b _ rfl
    refine .ite (.ite ?_ (.fail _ _)) (.pure trivial)
    rw [map_eq_pure_bind]
    exact agree_variableDefinitions.last fun _ _ _ => trivial
  refine (Agree.expect _).bind fun _ _ _ => (Agree.sees _).bind ?_
  rintro b _ rfl
  exact .ite .unexpected (agree_name.bind fun _ _ _ => hvariables.bind fun _ _ _ =>
    (Agree.expect _).bind fun _ _ _ => agree_name.bind fun _ _ _ =>
    (agree_directives false).bind fun _ _ _ => agree_selectionSet.last fun _ _ _ => trivial)

/-! ### The type system -/

theorem agree_inputValueDefinition :
    Agree inputValueDefinition inputValueDefinition anyTwo :=
  .node (agree_description.bind fun _ _ _ => agree_name.bind fun _ _ _ =>
    (Agree.expect _).bind fun _ _ _ => agree_typeRef.bind fun _ _ _ =>
    ((agree_value true).after _).bind fun _ _ _ =>
    (agree_directives true).last fun _ _ _ => trivial)

theorem agree_argumentDefinitions :
    Agree argumentDefinitions argumentDefinitions bothEmpty :=
  agree_inputValueDefinition.optionalMany _ _

theorem agree_fieldDefinition : Agree fieldDefinition fieldDefinition anyTwo :=
  .node (agree_description.bind fun _ _ _ => agree_name.bind fun _ _ _ =>
    agree_argumentDefinitions.bind fun _ _ _ => (Agree.expect _).bind fun _ _ _ =>
    agree_typeRef.bind fun _ _ _ => (agree_directives true).last fun _ _ _ => trivial)

theorem agree_enumValueDefinition : Agree enumValueDefinition enumValueDefinition anyTwo := by
  refine .node (agree_description.bind fun _ _ _ => .kind fun l m _ hk => ?_)
  rw [hk]
  exact .ite (.fail _ _) (agree_name.bind fun _ _ _ =>
    (agree_directives true).last fun _ _ _ => trivial)

theorem agree_namesAfter (kind separator : TokenKind) :
    Agree (namesAfter kind separator) (namesAfter kind separator) bothEmpty := by
  refine ((agree_name.separatedBy separator).after kind).last fun o o' h => ?_
  cases h with
  | some h => exact h
  | none => rfl

theorem agree_operationTypeDefinition :
    Agree operationTypeDefinition operationTypeDefinition anyTwo :=
  .node (agree_operationType.bind fun _ _ _ => (Agree.expect _).bind fun _ _ _ =>
    agree_name.last fun _ _ _ => trivial)

/-- Definitions under construction of which both say nothing or none does. -/
def bothSilent (build build' : Option Span → Definition) : Prop :=
  isEmptyExtension (build none) = isEmptyExtension (build' none)

theorem agree_schema (about about' : Option StringValue) (extend : Bool) :
    Agree (schema about extend) (schema about' extend)
      fun build build' => bothSilent (fun s => .schema (build s)) fun s => .schema (build' s) := by
  have hoperations : Agree (schemaOperations extend) (schemaOperations extend) bothEmpty :=
    .ite (agree_operationTypeDefinition.optionalMany _ _) (agree_operationTypeDefinition.many _ _)
  exact (Agree.expect _).bind fun _ _ _ => (agree_directives true).bind fun ds ds' hds =>
    hoperations.last fun os os' hos => hds.and hos

/-- The directives of a type and what else there is to it. -/
def bothBare (r r' : List Directive × TypeBody) : Prop :=
  bothEmpty r.1 r'.1 ∧ r.2.isEmpty = r'.2.isEmpty

theorem agree_fieldsBody {body : List Name → List FieldDefinition → TypeBody}
    (hbody : ∀ is fs, (body is fs).isEmpty = (is.isEmpty && fs.isEmpty)) :
    Agree (fieldsBody body) (fieldsBody body) bothBare :=
  (agree_namesAfter _ _).bind fun _ _ his => (agree_directives true).bind fun _ _ hds =>
    (agree_fieldDefinition.optionalMany _ _).last fun _ _ hfs => by
      refine ⟨hds, ?_⟩
      rw [hbody, hbody]
      exact his.and hfs

theorem agree_typeBody (k : Keyword) : Agree (typeBody k) (typeBody k) bothBare := by
  cases k with
  | scalar => exact (agree_directives true).last fun _ _ hds => ⟨hds, rfl⟩
  | type => exact agree_fieldsBody fun _ _ => rfl
  | interface => exact agree_fieldsBody fun _ _ => rfl
  | union =>
      exact (agree_directives true).bind fun _ _ hds =>
        (agree_namesAfter _ _).last fun _ _ h => ⟨hds, h⟩
  | enum =>
      exact (agree_directives true).bind fun _ _ hds =>
        (agree_enumValueDefinition.optionalMany _ _).last fun _ _ h => ⟨hds, h⟩
  | input =>
      exact (agree_directives true).bind fun _ _ hds =>
        (agree_inputValueDefinition.optionalMany _ _).last fun _ _ h => ⟨hds, h⟩
  | _ => exact .unexpected

theorem agree_typeDefinition (about about' : Option StringValue) (extend : Bool) (k : Keyword) :
    Agree (typeDefinition about extend k) (typeDefinition about' extend k)
      fun build build' => bothSilent (fun s => .type (build s)) fun s => .type (build' s) :=
  (Agree.expect _).bind fun _ _ _ => agree_name.bind fun _ _ _ =>
    (agree_typeBody k).last fun _ _ h => h.1.and h.2

theorem agree_directiveDefinition (about about' : Option StringValue) :
    Agree (directiveDefinition about) (directiveDefinition about') anyTwo := by
  have hlocation : Agree directiveLocation directiveLocation anyTwo := by
    refine .kind fun l m hlm hk => ?_
    rw [hk]
    by_cases hname : m.kind.isName
    · -- The text of a name is part of its shadow.
      have htext : l.text = m.text := by
        have htexts := congrArg Prod.snd hlm
        simp only [Lexeme.shadow, hk] at htexts
        split at htexts
        · rename_i hkind
          rw [hkind] at hname
          cases hname
        · rename_i hkind
          rw [hkind] at hname
          cases hname
        · exact htexts
      rw [htext]
      refine .ite ?_ (.fail _ _)
      split
      · exact Agree.expectName.last fun _ _ _ => trivial
      · exact .unexpected
    · rw [if_neg hname, if_neg hname]
      exact .fail _ _
  exact (Agree.expect _).bind fun _ _ _ => (Agree.expect _).bind fun _ _ _ =>
    agree_name.bind fun _ _ _ => agree_argumentDefinitions.bind fun _ _ _ =>
    (Agree.accept _).bind fun _ _ _ => (Agree.expect _).bind fun _ _ _ =>
    (hlocation.separatedBy _).last fun _ _ _ => trivial

/-! ### Documents -/

/-- Definitions under construction of which both are fragments or none is. -/
def bothFragments (build build' : Option Span → Definition) : Prop :=
  ∀ s t, (build s).isFragment = (build' t).isFragment

theorem agree_extension : Agree extension extension bothFragments := by
  have hextended : Agree extended extended fun build build' =>
      bothSilent build build' ∧ bothFragments build build' := by
    refine .kind fun l m _ hk => ?_
    rw [hk]
    split
    · exact (agree_schema none none true).last fun _ _ h => ⟨h, fun _ _ => rfl⟩
    · refine .ite ((agree_typeDefinition none none true _).last fun _ _ h => ?_) .unexpected
      exact ⟨h, fun _ _ => rfl⟩
    · exact .unexpected
  refine (Agree.expect _).bind fun _ _ _ => hextended.bind fun build build' h => ?_
  rw [show isEmptyExtension (build none) = _ from h.1]
  exact .ite .unexpected (.pure h.2)

theorem agree_keywordDefinition (allowed : Bool) {about about' : Option StringValue}
    (h : Option.Rel anyTwo about about') (k : Keyword) :
    Agree (keywordDefinition allowed about k) (keywordDefinition allowed about' k)
      bothFragments := by
  unfold keywordDefinition
  rw [isSome_eq_of_rel h]
  refine .ite (.fail _ _) ?_
  split
  · exact agree_operation.last fun _ _ _ _ _ => rfl
  · exact agree_operation.last fun _ _ _ _ _ => rfl
  · exact agree_operation.last fun _ _ _ _ _ => rfl
  · exact (agree_fragment allowed).last fun _ _ _ _ _ => rfl
  · exact (agree_schema _ _ false).last fun _ _ _ _ _ => rfl
  · exact (agree_directiveDefinition _ _).last fun _ _ _ _ _ => rfl
  · exact agree_extension
  · exact .ite ((agree_typeDefinition _ _ false _).last fun _ _ _ _ _ => rfl) .unexpected

theorem agree_definition (allowed : Bool) :
    Agree (definition allowed) (definition allowed) fun d e => d.isFragment = e.isFragment := by
  refine .spanned ((Agree.sees _).bind ?_)
  rintro b _ rfl
  refine .ite ?_ (agree_description.bind fun about about' habout => .kind fun l m _ hk => ?_)
  · exact agree_shorthandQuery.last fun _ _ _ _ _ => rfl
  · rw [hk]
    split
    · exact agree_keywordDefinition allowed habout _
    · exact .unexpected

/-- A definition stands where it starts and stops, which is the same for both. -/
theorem agree_site (allowed : Bool) :
    Agree (definition allowed) (definition allowed) fun d e => d.site = e.site := by
  intro c d hcd
  have hmatch := agree_definition allowed hcd
  generalize hr : definition allowed c = r, hs : definition allowed d = s at hmatch ⊢
  cases hmatch with
  | ok hfragment hcd' =>
      refine .ok ?_ hcd'
      rw [Definition.site, Definition.site, span_definition hr, span_definition hs, hfragment,
        hcd.position, hcd'.position]
  | error e f => exact .error e f

theorem agree_definitions (allowed : Bool) :
    Agree (definitions allowed) (definitions allowed) fun r r' =>
      r.1.map Definition.site = r'.1.map Definition.site ∧ r.2.isSome = r'.2.isSome := by
  refine .fix fun p q hpq => (agree_site allowed).attempt.bind fun r r' hr => ?_
  cases hr with
  | error e f => exact .pure ⟨rfl, rfl⟩
  | @ok d d' hsite =>
      refine (Agree.sees _).bind ?_
      rintro b _ rfl
      refine .ite (.pure ⟨?_, rfl⟩) (hpq.last fun _ _ h => ⟨?_, h.2⟩)
      · rw [List.map_singleton, List.map_singleton, hsite]
      · rw [List.map_cons, List.map_cons, hsite, h.1]

section
variable (allowed : Bool) {ls ms : List Lexeme} (h : ls.map Lexeme.shadow = ms.map Lexeme.shadow)
include h

/-- The sites of definitions, and whether there is a fault, can be told from the
shadows of the lexemes. -/
theorem read_agrees : (read allowed ls).definitions.map Definition.site =
      (read allowed ms).definitions.map Definition.site ∧
    (read allowed ls).error?.isSome = (read allowed ms).error?.isSome := by
  have hmatch := agree_definitions allowed (c := ⟨0, ls⟩) (d := ⟨0, ms⟩) ⟨rfl, h⟩
  unfold read
  generalize definitions allowed ⟨0, ls⟩ = r, definitions allowed ⟨0, ms⟩ = r' at hmatch ⊢
  cases hmatch with
  | @ok x y c d hxy =>
      obtain ⟨ds, e⟩ := x
      obtain ⟨ds', e'⟩ := y
      obtain ⟨hsites, hsome⟩ := hxy
      cases e with
      | none =>
          cases e' with
          | none => exact ⟨hsites, rfl⟩
          | some e' => cases hsome
      | some e =>
          cases e' with
          | none => cases hsome
          | some e' => exact ⟨hsites, rfl⟩
  | error e f => exact ⟨rfl, rfl⟩

theorem error?_eq_none_iff : (read allowed ls).error? = none ↔ (read allowed ms).error? = none := by
  rw [← Option.not_isSome_iff_eq_none, ← Option.not_isSome_iff_eq_none, (read_agrees allowed h).2]

end

end Grammar
end GraphQL
