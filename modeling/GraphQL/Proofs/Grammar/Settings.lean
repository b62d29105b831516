import GraphQL.Proofs.Document.Spans
import GraphQL.Proofs.Grammar.Completeness
import GraphQL.Proofs.Grammar.Excerpts

/-!
Every production of the grammar does the same in two settings. The rules follow the
productions one by one; what each of them adds is that a node is the same if its parts
are. In the end a definition that leaves a lexeme is read alike whatever stands behind
that lexeme.
-/

namespace GraphQL.Grammar

namespace Excerpt

variable {α : Type} {k : Excerpt} {H : Prop}

theorem mirrors_name : k.Mirrors H 1 name name (k.Same Name.mapSpans) :=
  .spanned (.last .expectName fun _ _ h s t hst => by
    rw [h.2]
    exact (Name.mk.injEq ..).mpr ⟨rfl, hst⟩)

theorem mirrors_stringValueNode :
    k.Mirrors H 1 stringValueNode stringValueNode (k.Same StringValue.mapSpans) := by
  refine .spanned (.current fun l => ?_)
  split
  · exact .last (.expect (by decide)) fun _ _ _ s t hst =>
      (StringValue.mk.injEq ..).mpr ⟨rfl, rfl, hst⟩
  · split
    · exact .last (.expect (by decide)) fun _ _ _ s t hst =>
        (StringValue.mk.injEq ..).mpr ⟨rfl, rfl, hst⟩
    · exact .fail
  · exact .unexpected

theorem mirrors_description :
    k.Mirrors H 0 description description (k.SameOption StringValue.mapSpans) :=
  mirrors_stringValueNode.onlyIf looks_seesString

/-! ### Values -/

theorem mirrors_argumentOf {p q : Parser Value} (h : k.Mirrors H 1 p q (k.Same Value.mapSpans)) :
    k.Mirrors H 1 (argumentOf p) (argumentOf q) (k.Same Argument.mapSpans) := by
  refine .spanned (mirrors_name.bind_left fun n n' => .mark_right fun _ _ =>
    (h.on fun h => h.1.1).zero.last fun v v' h s t hst => ?_)
  obtain ⟨⟨⟨-, hn⟩, -⟩, hv⟩ := h
  rw [Same, Argument.mapSpans, Argument.mapSpans]
  exact (Argument.mk.injEq ..).mpr ⟨hn, hv, hst⟩

/-- A value that is one lexeme. -/
theorem mirrors_word {kind : TokenKind} (hk : kind ≠ .endOfInput)
    {f : Lexeme → Option Span → Value}
    (hf : ∀ l s t, k.here.place s = k.there.place t → k.Same Value.mapSpans (f l s) (f l t)) :
    k.Mirrors H 1 (spanned (expect kind >>= fun l => pure (f l)))
      (spanned (expect kind >>= fun l => pure (f l))) (k.Same Value.mapSpans) :=
  .spanned (.last (.expect hk) fun l l' h s t hst => by
    rw [h.2]
    exact hf l' s t hst)

theorem mirrors_valueBody {const : Bool} {p : Parser Value}
    (h : k.Mirrors H 1 p (value const) (k.Same Value.mapSpans)) :
    k.Mirrors H 1 (valueBody const p) (value const) (k.Same Value.mapSpans) := by
  refine .of_eq (.current fun l => ?_) (value_eq const)
  split
  · refine .ite (fun _ => .rfl) .unexpected (.mark_left fun _ _ =>
      mirrors_name.zero.last fun n n' hn => ?_)
    exact congrArg Value.variable hn.2
  · exact mirrors_word (by decide) fun l s t hst => (Value.int.injEq ..).mpr ⟨rfl, hst⟩
  · exact mirrors_word (by decide) fun l s t hst => (Value.float.injEq ..).mpr ⟨rfl, hst⟩
  · exact mirrors_stringValueNode.last fun v v' hv => congrArg Value.string hv.2
  · exact mirrors_stringValueNode.last fun v v' hv => congrArg Value.string hv.2
  · exact mirrors_word (by decide) fun l s t hst => (Value.boolean.injEq ..).mpr ⟨rfl, hst⟩
  · exact mirrors_word (by decide) fun l s t hst => (Value.boolean.injEq ..).mpr ⟨rfl, hst⟩
  · exact mirrors_word (by decide) fun l s t hst => (Value.null.injEq ..).mpr hst
  · refine .spanned (.mark_left fun _ _ =>
      ((h.on And.left).upTo (reads_value const)).last fun vs vs' hvs s t hst => ?_)
    rw [Same, Value.mapSpans, Value.mapSpans, Value.mapSpansList_eq_map,
      Value.mapSpansList_eq_map]
    exact (Value.list.injEq ..).mpr ⟨hvs.2, hst⟩
  · refine .spanned (.mark_left fun _ _ =>
      ((mirrors_argumentOf (h.on And.left)).upTo
        (reads_argumentOf (reads_value const).zero)).last fun fs fs' hfs s t hst => ?_)
    rw [Same, Value.mapSpans, Value.mapSpans, Argument.mapSpansList_eq_map,
      Argument.mapSpansList_eq_map]
    exact (Value.object.injEq ..).mpr ⟨hfs.2, hst⟩
  · exact mirrors_name.last fun n n' hn => congrArg Value.enum hn.2
  · exact mirrors_name.last fun n n' hn => congrArg Value.enum hn.2
  · exact .unexpected

theorem mirrors_value (const : Bool) :
    k.Mirrors H 1 (value const) (value const) (k.Same Value.mapSpans) :=
  .fix fun _ => mirrors_valueBody

theorem mirrors_arguments (const : Bool) :
    k.Mirrors H 0 (arguments const) (arguments const) (k.SameList Argument.mapSpans) :=
  (mirrors_argumentOf (mirrors_value const)).optionalMany
    (reads_argumentOf (reads_value const).zero)

theorem mirrors_directive (const : Bool) :
    k.Mirrors H 1 (directive const) (directive const) (k.Same Directive.mapSpans) := by
  refine .spanned (.mark_left fun _ _ => mirrors_name.zero.bind_right
    fun n n' => (mirrors_arguments const).last fun as as' h s t hst => ?_)
  obtain ⟨⟨-, hn⟩, has⟩ := h
  exact (Directive.mk.injEq ..).mpr ⟨hn, has, hst⟩

theorem mirrors_directives (const : Bool) :
    k.Mirrors H 0 (directives const) (directives const) (k.SameList Directive.mapSpans) :=
  (mirrors_directive const).whileSees (reads_directive const)

/-! ### Types -/

theorem mirrors_nullableTypeRef {p q : Parser TypeRef}
    (h : k.Mirrors H 1 p q (k.Same TypeRef.mapSpans)) :
    k.Mirrors H 1 (nullableTypeRef p) (nullableTypeRef q) (k.Same TypeRef.mapSpans) := by
  refine .test looks_mark (Nat.le_refl 1) (.spanned ?_)
    (mirrors_name.last fun n n' hn => congrArg TypeRef.named hn.2)
  refine .mark_left fun _ _ => (h.on And.left).zero.bind_right fun t t' =>
    .mark_right fun _ _ => .pure fun h s t hst => ?_
  obtain ⟨⟨-, hitem⟩, -⟩ := h
  exact (TypeRef.list.injEq ..).mpr ⟨hitem, hst⟩

theorem mirrors_typeRef : k.Mirrors H 1 typeRef typeRef (k.Same TypeRef.mapSpans) := by
  refine .fix fun p h => ?_
  rw [typeRefBody_eq]
  refine .of_eq (.spanned ?_) (typeRef_eq.trans (typeRefBody_eq typeRef))
  refine (mirrors_nullableTypeRef h).bind_left fun t t' => .last (.accept (by decide))
    fun b b' h s t hst => ?_
  obtain ⟨⟨-, hbase⟩, rfl⟩ := h
  cases b with
  | true => exact (TypeRef.nonNull.injEq ..).mpr ⟨hbase, hst⟩
  | false => exact hbase

/-! ### What is executed -/

theorem mirrors_field {p q : Parser SelectionSet}
    (h : k.Mirrors H 1 p q (k.Same SelectionSet.mapSpans)) :
    k.Mirrors H 1 (field p) (field q) (k.Same Field.mapSpans) := by
  refine .spanned (mirrors_name.bind_left fun n n' => (mirrors_name.after (by decide)).bind_right
    fun o o' => (mirrors_arguments false).bind_right fun as as' =>
    (mirrors_directives false).bind_right fun ds ds' =>
    ((h.on (·.1.1.1.1)).onlyIf looks_mark).bind_right fun set set' => ?_)
  cases o with
  | none =>
      cases o' with
      | none =>
          refine .pure fun ⟨⟨⟨⟨⟨_, hn⟩, _⟩, has⟩, hds⟩, hset⟩ s t hst => ?_
          rw [Same, Field.mapSpans_eq, Field.mapSpans_eq]
          exact (Field.mk.injEq ..).mpr ⟨rfl, hn, has, hds, hset, hst⟩
      | some m' => exact .pure fun ⟨⟨⟨⟨_, ho⟩, _⟩, _⟩, _⟩ => nomatch ho
  | some m =>
      cases o' with
      | none => exact .pure fun ⟨⟨⟨⟨_, ho⟩, _⟩, _⟩, _⟩ => nomatch ho
      | some m' =>
          refine .pure fun ⟨⟨⟨⟨⟨_, hn⟩, ho⟩, has⟩, hds⟩, hset⟩ s t hst => ?_
          rw [Same, Field.mapSpans_eq, Field.mapSpans_eq]
          exact (Field.mk.injEq ..).mpr
            ⟨congrArg some hn, Option.some.inj ho, has, hds, hset, hst⟩

theorem mirrors_spread {p q : Parser SelectionSet}
    (h : k.Mirrors H 1 p q (k.Same SelectionSet.mapSpans)) :
    k.Mirrors H 1 (spread p) (spread q) (k.SameNode Selection.mapSpans) := by
  refine .mark_left fun _ _ => .zero (.current fun l => ?_)
  refine .ite (fun _ => .rfl) ?_ ?_
  · refine mirrors_name.bind_left fun n n' => (mirrors_directives false).last
      fun ds ds' ⟨⟨_, hn⟩, hds⟩ s t hst => ?_
    exact congrArg Selection.fragmentSpread ((FragmentSpread.mk.injEq ..).mpr ⟨hn, hds, hst⟩)
  · refine (mirrors_name.after (by decide)).bind_right fun o o' =>
      (mirrors_directives false).bind_right fun ds ds' => (h.on (·.1.1.1)).last
        fun _ _ ⟨⟨⟨_, ho⟩, hds⟩, hset⟩ _ _ hst => ?_
    rw [Same, Selection.mapSpans, Selection.mapSpans, InlineFragment.mapSpans_eq,
      InlineFragment.mapSpans_eq]
    exact congrArg Selection.inlineFragment
      ((InlineFragment.mk.injEq ..).mpr ⟨ho, hds, hset, hst⟩)

theorem mirrors_selection {p q : Parser SelectionSet}
    (h : k.Mirrors H 1 p q (k.Same SelectionSet.mapSpans)) :
    k.Mirrors H 1 (selection p) (selection q) (k.Same Selection.mapSpans) := by
  refine .test looks_mark (Nat.le_refl 1) (.spanned (mirrors_spread h)) ?_
  rw [map_eq_pure_bind, map_eq_pure_bind]
  exact (mirrors_field h).last fun x x' hx => congrArg Selection.field hx.2

theorem mirrors_selectionSet :
    k.Mirrors H 1 selectionSet selectionSet (k.Same SelectionSet.mapSpans) := by
  refine .fix fun p h => .of_eq (.spanned ?_) selectionSet_eq
  refine ((mirrors_selection h).many
    (reads_selection reads_selectionSet.zero)).last fun ss ss' hss s t hst => ?_
  rw [Same, SelectionSet.mapSpans, SelectionSet.mapSpans, Selection.mapSpansList_eq_map,
    Selection.mapSpansList_eq_map]
  exact (SelectionSet.mk.injEq ..).mpr ⟨hss.2, hst⟩

theorem mirrors_variableDefinition : k.Mirrors H 1 variableDefinition variableDefinition
    (k.Same VariableDefinition.mapSpans) := by
  refine .spanned (.mark_left fun _ _ => mirrors_name.zero.bind_right
    fun n n' => .mark_right fun _ _ =>
    mirrors_typeRef.zero.bind_right fun type type' =>
    ((mirrors_value true).after (by decide)).bind_right fun o o' =>
    (mirrors_directives true).last fun ds ds' ⟨⟨⟨⟨⟨_, hn⟩, _⟩, htype⟩, ho⟩, hds⟩ s t hst => ?_)
  exact (VariableDefinition.mk.injEq ..).mpr ⟨hn, htype, ho, hds, hst⟩

theorem mirrors_variableDefinitions : k.Mirrors H 0 variableDefinitions variableDefinitions
    (k.SameList VariableDefinition.mapSpans) :=
  mirrors_variableDefinition.optionalMany reads_variableDefinition

theorem mirrors_operationType : k.Mirrors H 1 operationType operationType Eq := by
  refine .current fun l => ?_
  split
  · exact .keyword_left fun _ _ => .pure fun _ => rfl
  · exact .keyword_left fun _ _ => .pure fun _ => rfl
  · exact .keyword_left fun _ _ => .pure fun _ => rfl
  · exact .unexpected

theorem mirrors_shorthandQuery : k.Mirrors H 1 shorthandQuery shorthandQuery
    (k.SameNode OperationDefinition.mapSpans) :=
  mirrors_selectionSet.last fun _ _ hset _ _ hst =>
    (OperationDefinition.mk.injEq ..).mpr ⟨rfl, rfl, rfl, rfl, hset.2, hst⟩

theorem mirrors_operation : k.Mirrors H 1 operation operation
    (k.SameNode OperationDefinition.mapSpans) := by
  refine mirrors_operationType.bind_left fun type type' =>
    (mirrors_name.onlyIf looks_seesName).bind_right fun o o' =>
    mirrors_variableDefinitions.bind_right fun vs vs' =>
    (mirrors_directives false).bind_right fun ds ds' =>
    mirrors_selectionSet.zero.last fun set set' ⟨⟨⟨⟨⟨_, htype⟩, ho⟩, hvs⟩, hds⟩, hset⟩ s t hst => ?_
  exact (OperationDefinition.mk.injEq ..).mpr ⟨htype, ho, hvs, hds, hset, hst⟩

theorem mirrors_fragmentVariables (allowed : Bool) :
    k.Mirrors H 0 (fragmentVariables allowed) (fragmentVariables allowed)
      (k.SameOption fun f => List.map (VariableDefinition.mapSpans f)) := by
  rw [fragmentVariables_eq]
  refine .test looks_mark (Nat.zero_le 1) (.ite (fun _ => .rfl) ?_ .fail)
    (.pure fun _ => rfl)
  exact (mirrors_variableDefinition.many reads_variableDefinition).last
    fun vs vs' hvs => congrArg some hvs.2

theorem mirrors_fragment (allowed : Bool) : k.Mirrors H 1 (fragment allowed) (fragment allowed)
    (k.SameNode FragmentDefinition.mapSpans) := by
  refine .keyword_left fun _ _ => .test looks_keyword
    (Nat.zero_le 1) .unexpected ?_
  refine mirrors_name.zero.bind_right fun n n' => (mirrors_fragmentVariables allowed).bind_right
    fun o o' => .keyword_right fun _ _ =>
    mirrors_name.zero.bind_right fun on on' => (mirrors_directives false).bind_right fun ds ds' =>
    mirrors_selectionSet.zero.last fun set set'
      ⟨⟨⟨⟨⟨⟨_, hn⟩, ho⟩, _⟩, hon⟩, hds⟩, hset⟩ s t hst => ?_
  exact (FragmentDefinition.mk.injEq ..).mpr ⟨hn, ho, hon, hds, hset, hst⟩

/-! ### The type system -/

theorem mirrors_inputValueDefinition : k.Mirrors H 1 inputValueDefinition inputValueDefinition
    (k.Same InputValueDefinition.mapSpans) := by
  refine .spanned (mirrors_description.bind_right fun about about' =>
    mirrors_name.bind_left fun n n' => .mark_right fun _ _ =>
    mirrors_typeRef.zero.bind_right fun type type' =>
    ((mirrors_value true).after (by decide)).bind_right fun o o' =>
    (mirrors_directives true).last fun ds ds'
      ⟨⟨⟨⟨⟨⟨_, habout⟩, hn⟩, _⟩, htype⟩, ho⟩, hds⟩ s t hst => ?_)
  exact (InputValueDefinition.mk.injEq ..).mpr ⟨habout, hn, htype, ho, hds, hst⟩

theorem mirrors_argumentDefinitions : k.Mirrors H 0 argumentDefinitions argumentDefinitions
    (k.SameList InputValueDefinition.mapSpans) :=
  mirrors_inputValueDefinition.optionalMany reads_inputValueDefinition

theorem mirrors_fieldDefinition : k.Mirrors H 1 fieldDefinition fieldDefinition
    (k.Same FieldDefinition.mapSpans) := by
  refine .spanned (mirrors_description.bind_right fun about about' =>
    mirrors_name.bind_left fun n n' => mirrors_argumentDefinitions.bind_right fun as as' =>
    .mark_right fun _ _ =>
    mirrors_typeRef.zero.bind_right fun type type' =>
    (mirrors_directives true).last fun ds ds'
      ⟨⟨⟨⟨⟨⟨_, habout⟩, hn⟩, has⟩, _⟩, htype⟩, hds⟩ s t hst => ?_)
  exact (FieldDefinition.mk.injEq ..).mpr ⟨habout, hn, has, htype, hds, hst⟩

theorem mirrors_enumValueDefinition : k.Mirrors H 1 enumValueDefinition enumValueDefinition
    (k.Same EnumValueDefinition.mapSpans) := by
  refine .spanned (mirrors_description.bind_right fun about about' => .current fun l =>
    .ite (fun _ => .rfl) .fail (mirrors_name.bind_left fun n n' =>
    (mirrors_directives true).last fun ds ds' ⟨⟨⟨_, habout⟩, hn⟩, hds⟩ s t hst => ?_))
  exact (EnumValueDefinition.mk.injEq ..).mpr ⟨habout, hn, hds, hst⟩

theorem mirrors_optionalBlock {item : Parser α} {map : (Option Span → Option Span) → α → α}
    (hi : k.Mirrors H 1 item item (k.Same map)) :
    k.Mirrors H 0 (optionalBlock item) (optionalBlock item) (k.SameList map) :=
  hi.optionalMany hi.reads

theorem mirrors_namesAfter {kind : TokenKind} (hk : kind ≠ .endOfInput) {separator : Punctuator} :
    k.Mirrors H 0 (namesAfter kind (.punctuator separator))
      (namesAfter kind (.punctuator separator)) (k.SameList Name.mapSpans) := by
  have hnames : k.Mirrors H 1 (separatedBy (.punctuator separator) name)
      (separatedBy (.punctuator separator) name) (k.Same fun f => List.map (Name.mapSpans f)) :=
    mirrors_name.separatedBy reads_name
  refine (hnames.after hk).last fun o o' h => ?_
  have ho : o.map (List.map (·.mapSpans k.here.place)) =
      o'.map (List.map (·.mapSpans k.there.place)) := h.2
  show (o.getD []).map _ = (o'.getD []).map _
  cases o with
  | none =>
      cases o' with
      | none => rfl
      | some ns' => cases ho
  | some ns =>
      cases o' with
      | none => cases ho
      | some ns' => exact Option.some.inj ho

theorem mirrors_operationTypeDefinition : k.Mirrors H 1 operationTypeDefinition
    operationTypeDefinition (k.Same OperationTypeDefinition.mapSpans) := by
  refine .spanned (mirrors_operationType.bind_left fun type type' =>
    .mark_right fun _ _ => mirrors_name.zero.last
      fun n n' ⟨⟨⟨_, htype⟩, _⟩, hn⟩ s t hst => ?_)
  exact (OperationTypeDefinition.mk.injEq ..).mpr ⟨htype, hn, hst⟩

theorem mirrors_schemaOperations (extend : Bool) : k.Mirrors H 0 (schemaOperations extend)
    (schemaOperations extend) (k.SameList OperationTypeDefinition.mapSpans) :=
  .ite (fun _ => .rfl) (mirrors_optionalBlock mirrors_operationTypeDefinition)
    (.zero (mirrors_operationTypeDefinition.many reads_operationTypeDefinition))

theorem mirrors_schema {about about' : Option StringValue} {extend : Bool}
    (ha : H → k.SameOption StringValue.mapSpans about about') :
    k.Mirrors H 1 (schema about extend) (schema about' extend)
      (k.SameNode SchemaDefinition.mapSpans) := by
  refine .keyword_left fun _ _ => (mirrors_directives true).bind_right
    fun ds ds' => (mirrors_schemaOperations extend).last
      fun os os' ⟨⟨⟨h, _⟩, hds⟩, hos⟩ s t hst => ?_
  exact (SchemaDefinition.mk.injEq ..).mpr ⟨ha h, rfl, hds, hos, hst⟩

/-- The directives of a type and what else there is to it. -/
def SameBody (k : Excerpt) : List Directive × TypeBody → List Directive × TypeBody → Prop :=
  k.Same fun f r => (r.1.map (·.mapSpans f), r.2.mapSpans f)

theorem mirrors_fieldsBody {body : List Name → List FieldDefinition → TypeBody}
    (hbody : ∀ f is fs, (body is fs).mapSpans f =
      body (is.map (·.mapSpans f)) (fs.map (·.mapSpans f))) :
    k.Mirrors H 0 (fieldsBody body) (fieldsBody body) k.SameBody := by
  refine (mirrors_namesAfter (by decide)).bind_right fun is is' =>
    (mirrors_directives true).bind_right fun ds ds' =>
    (mirrors_optionalBlock mirrors_fieldDefinition).last
      fun fs fs' ⟨⟨⟨_, his⟩, hds⟩, hfs⟩ => Prod.ext hds ?_
  show (body is fs).mapSpans k.here.place = (body is' fs').mapSpans k.there.place
  rw [hbody, hbody]
  exact congr (congrArg body his) hfs

theorem mirrors_typeBody (word : Keyword) :
    k.Mirrors H 0 (typeBody word) (typeBody word) k.SameBody := by
  cases word with
  | scalar => exact (mirrors_directives true).last fun ds ds' h => Prod.ext h.2 rfl
  | type => exact mirrors_fieldsBody fun _ _ _ => rfl
  | interface => exact mirrors_fieldsBody fun _ _ _ => rfl
  | union =>
      exact (mirrors_directives true).bind_right fun ds ds' =>
        (mirrors_namesAfter (by decide)).last fun ms ms' h =>
          Prod.ext h.1.2 (congrArg TypeBody.union h.2)
  | enum =>
      exact (mirrors_directives true).bind_right fun ds ds' =>
        (mirrors_optionalBlock mirrors_enumValueDefinition).last fun vs vs' h =>
          Prod.ext h.1.2 (congrArg TypeBody.enum h.2)
  | input =>
      exact (mirrors_directives true).bind_right fun ds ds' =>
        (mirrors_optionalBlock mirrors_inputValueDefinition).last fun fs fs' h =>
          Prod.ext h.1.2 (congrArg TypeBody.input h.2)
  | _ => exact .unexpected

theorem mirrors_typeDefinition {about about' : Option StringValue} {extend : Bool}
    (ha : H → k.SameOption StringValue.mapSpans about about') (word : Keyword) :
    k.Mirrors H 1 (typeDefinition about extend word) (typeDefinition about' extend word)
      (k.SameNode TypeDefinition.mapSpans) := by
  refine .bind_left (.expect nofun) fun _ _ => mirrors_name.zero.bind_right fun n n' =>
    (mirrors_typeBody word).last fun r r' ⟨⟨⟨h, _⟩, hn⟩, hr⟩ s t hst => ?_
  obtain ⟨hds, hbody⟩ := Prod.mk.inj hr
  exact (TypeDefinition.mk.injEq ..).mpr ⟨ha h, rfl, hn, hds, hbody, hst⟩

theorem mirrors_directiveLocation : k.Mirrors H 1 directiveLocation directiveLocation
    (k.Same fun _ l => l) := by
  refine .current fun l => .ite (fun _ => .rfl) ?_ .fail
  split
  · exact Mirrors.expectName.last fun _ _ _ => rfl
  · exact .unexpected

theorem mirrors_directiveDefinition {about about' : Option StringValue}
    (ha : H → k.SameOption StringValue.mapSpans about about') :
    k.Mirrors H 1 (directiveDefinition about) (directiveDefinition about')
      (k.SameNode DirectiveDefinition.mapSpans) := by
  refine .keyword_left fun _ _ => .mark_right fun _ _ =>
    mirrors_name.zero.bind_right fun n n' =>
    mirrors_argumentDefinitions.bind_right fun as as' => .bind_right (.accept (by decide))
    fun b b' => .keyword_right fun _ _ =>
    (mirrors_directiveLocation.separatedBy reads_directiveLocation).zero.last
      fun ls ls' ⟨⟨⟨⟨⟨⟨⟨h, _⟩, _⟩, hn⟩, has⟩, hb⟩, _⟩, hls⟩ s t hst => ?_
  refine (DirectiveDefinition.mk.injEq ..).mpr ⟨ha h, hn, has, hb, ?_, hst⟩
  rw [← List.map_id ls, ← List.map_id ls']
  exact hls

/-! ### Definitions -/

theorem mirrors_extended : k.Mirrors H 1 extended extended (k.SameNode Definition.mapSpans) := by
  refine .current fun l => ?_
  split
  · exact (mirrors_schema fun _ => .none).last fun build build' h s t hst =>
      congrArg Definition.schema (h.2 s t hst)
  · refine .ite (fun _ => .rfl) ?_ .unexpected
    exact (mirrors_typeDefinition (fun _ => .none) _).last fun build build' h s t hst =>
      congrArg Definition.type (h.2 s t hst)
  · exact .unexpected

theorem mirrors_extension : k.Mirrors H 1 extension extension (k.SameNode Definition.mapSpans) := by
  refine .keyword_left fun _ _ => mirrors_extended.zero.bind_right
    fun build build' => .ite (fun h => ?_) .unexpected (.pure fun h => h.2)
  -- Whether an extension says nothing does not depend on its spans.
  have hnone := h.2 none none k.place_none
  rw [← isEmptyExtension_mapSpans k.here.place, show (build none).mapSpans _ = _ from hnone,
    isEmptyExtension_mapSpans]

theorem mirrors_keywordDefinition (allowed : Bool) {about about' : Option StringValue}
    (ha : H → k.SameOption StringValue.mapSpans about about') (word : Keyword) :
    k.Mirrors H 1 (keywordDefinition allowed about word) (keywordDefinition allowed about' word)
      (k.SameNode Definition.mapSpans) := by
  refine .ite (fun h => by rw [(ha h).isSome_eq]) .fail ?_
  split
  · exact mirrors_operation.last fun _ _ h s t hst => congrArg Definition.operation (h.2 s t hst)
  · exact mirrors_operation.last fun _ _ h s t hst => congrArg Definition.operation (h.2 s t hst)
  · exact mirrors_operation.last fun _ _ h s t hst => congrArg Definition.operation (h.2 s t hst)
  · exact (mirrors_fragment allowed).last fun _ _ h s t hst =>
      congrArg Definition.fragment (h.2 s t hst)
  · exact (mirrors_schema ha).last fun _ _ h s t hst => congrArg Definition.schema (h.2 s t hst)
  · exact (mirrors_directiveDefinition ha).last fun _ _ h s t hst =>
      congrArg Definition.directive (h.2 s t hst)
  · exact mirrors_extension
  · exact .ite (fun _ => .rfl) ((mirrors_typeDefinition ha _).last fun _ _ h s t hst =>
      congrArg Definition.type (h.2 s t hst)) .unexpected

theorem mirrors_definition (allowed : Bool) :
    k.Mirrors H 1 (definition allowed) (definition allowed) (k.Same Definition.mapSpans) := by
  refine .spanned (.test looks_mark (Nat.le_refl 1) ?_ ?_)
  · exact mirrors_shorthandQuery.last fun _ _ h s t hst =>
      congrArg Definition.operation (h.2 s t hst)
  · refine mirrors_description.bind_right fun about about' => .current fun l => ?_
    split
    · exact mirrors_keywordDefinition allowed And.right _
    · exact .unexpected

end Excerpt
end GraphQL.Grammar
