import GraphQL.Proofs.Grammar.Completeness
import GraphQL.Proofs.Grammar.Promptness

/-!
Every parser of the grammar is prompt. The samples are short: a name, an empty string, or
the word or mark that a production starts with.

An extension is met at its end if it says nothing. There it has read no lexeme but its
keywords and its name, and a directive can always be added.
-/

namespace GraphQL.Grammar

variable {k : Circumstances} {N : Nat}

/-! ### Names and values -/

def sampleName : Lexeme := ⟨.name, "a"⟩

def sampleString : Lexeme := ⟨.string, "\"\""⟩

def sampleLocation : Lexeme := ⟨.name, "FIELD"⟩

theorem writable_sampleName : sampleName.Writable := by decide +kernel

theorem writable_sampleString : sampleString.Writable := by decide +kernel

theorem writable_sampleLocation : sampleLocation.Writable := by decide +kernel

theorem prompt_name : Prompt k N (some sampleName) [] name :=
  (Prompt.expectName rfl writable_sampleName).last.spanned

theorem prompt_stringValueNode : Prompt k N (some sampleString) [] stringValueNode := by
  refine .spanned (.current (fun l => ?_) fun n => ?_)
  · split
    · exact (Steady.expect (by decide)).last
    · split
      · exact (Steady.expect (by decide)).last
      · exact .fail fun _ => trivial
    · exact .unexpected
  · exact ⟨[sampleString], _, rfl, List.forall_mem_singleton.2 writable_sampleString,
      fun _ _ => rfl⟩

theorem prompt_description : Prompt k N none [.string, .blockString] description :=
  prompt_stringValueNode.onlyIf spots_seesString

theorem prompt_argumentOf {v : Parser Value} (hv : Prompt k N (some sampleName) [] v) :
    Prompt k N (some sampleName) [] (argumentOf v) :=
  .spanned (.bind_left (by decide) prompt_name fun _ =>
    .bind_left (by decide) (.mark .colon) fun _ => hv.last)

theorem prompt_value (const : Bool) : Prompt k N (some sampleName) [] (value const) := by
  refine .fix (guarded_value const).fix_eq (fun n => ?_) fun M _ ih => ?_
  · exact ⟨[sampleName], .enum ⟨"a", some ⟨n, n + 1⟩⟩, rfl,
      List.forall_mem_singleton.2 writable_sampleName, fun _ _ => rfl⟩
  · refine .current fun l => ?_
    split
    · split
      · exact .unexpected
      · exact (Prompt.bind_left (by decide) (.mark .dollar) fun _ => prompt_name.last).steady
    · exact (Steady.expect (by decide)).last.spanned
    · exact (Steady.expect (by decide)).last.spanned
    · exact prompt_stringValueNode.last.steady
    · exact prompt_stringValueNode.last.steady
    · exact (Steady.expect (by decide)).last.spanned
    · exact (Steady.expect (by decide)).last.spanned
    · exact (Steady.expect (by decide)).last.spanned
    · have hitems : Prompt k M (some (.punctuator .bracketClose)) []
          (upTo (.punctuator .bracketClose) (fix (valueBody const))) :=
        ih.upTo (reads_value const) (by decide)
      exact (Prompt.step (by decide) (.mark .bracketOpen) fun _ => hitems.last).spanned.steady
    · have hfields : Prompt k M (some (.punctuator .braceClose)) []
          (upTo (.punctuator .braceClose) (argumentOf (fix (valueBody const)))) :=
        (prompt_argumentOf ih).upTo (reads_argumentOf (reads_value const).zero) (by decide)
      exact (Prompt.step (by decide) (.mark .braceOpen) fun _ => hfields.last).spanned.steady
    · exact prompt_name.last.steady
    · exact prompt_name.last.steady
    · exact .unexpected

theorem prompt_arguments (const : Bool) :
    Prompt k N none [.punctuator .parenOpen] (arguments const) :=
  (prompt_argumentOf (prompt_value const)).optionalMany
    (reads_argumentOf (reads_value const).zero) (by decide)

theorem prompt_directive (const : Bool) :
    Prompt k N (some (.punctuator .atSign)) [.punctuator .parenOpen] (directive const) :=
  .spanned (.bind_left (by decide) (.mark .atSign) fun _ =>
    .bind_left (by decide) prompt_name fun _ => (prompt_arguments const).last)

theorem prompt_directives (const : Bool) :
    Prompt k N none [.punctuator .atSign, .punctuator .parenOpen] (directives const) :=
  (prompt_directive const).whileSees (reads_directive const)

/-! ### Types -/

theorem prompt_nullableTypeRef {inner : Parser TypeRef}
    (hi : Prompt k N (some sampleName) [.punctuator .bang] inner) :
    Prompt k (N + 1) (some sampleName) [] (nullableTypeRef inner) := by
  refine .test_false (spots_sees _) ?_ prompt_name.last (by decide)
  have hclose : Prompt k N (some sampleName) []
      (inner >>= fun t => expect (.punctuator .bracketClose) >>= fun _ =>
        pure fun span => TypeRef.list t span) :=
    .bind_left (by decide) hi fun _ => (Prompt.mark .bracketClose).last
  exact (Prompt.step (by decide) (.mark .bracketOpen) fun _ => hclose).spanned.steady

/-- A name is a type, whatever the item type of a list may be. -/
theorem fills_typeRefBody (inner : Parser TypeRef) :
    Fills (some sampleName) [.punctuator .bang] (typeRefBody inner) := by
  have hname : Prompt ⟨false, false⟩ 0 (some sampleName) [] name := prompt_name
  have hbang : Prompt ⟨false, false⟩ 0 none [.punctuator .bang] (accept (.punctuator .bang)) :=
    .accept_none (by decide)
  have hnullable : Fills (some sampleName) [] (nullableTypeRef inner) :=
    hname.last.fills.test_false (spots_sees _) (by decide)
  rw [typeRefBody_eq]
  exact .of_map (.bind (by decide) hnullable fun _ => hbang.last.fills) (maps_spanned _)

theorem prompt_typeRef : Prompt k N (some sampleName) [.punctuator .bang] typeRef := by
  refine .fix typeRef_eq ?_ fun M _ ih => ?_
  · show Fills _ _ typeRef
    rw [typeRef_eq]
    exact fills_typeRefBody typeRef
  · rw [typeRefBody_eq]
    exact (Prompt.bind_left (by decide) (prompt_nullableTypeRef ih) fun _ =>
      (Prompt.accept_none (by decide)).last).spanned.steady

/-! ### Selections -/

/-- The kinds that go on with a field. -/
def fieldStops : List TokenKind :=
  [.punctuator .colon, .punctuator .parenOpen, .punctuator .atSign, .punctuator .braceOpen]

section
variable {set : Parser SelectionSet} (hs : Prompt k N (some (.punctuator .braceOpen)) [] set)
include hs

theorem prompt_field : Prompt k N (some sampleName) fieldStops (field set) := by
  refine .spanned (.bind_left (by decide) prompt_name fun first =>
    .bind_right (by decide) (prompt_name.after (by decide)) fun second =>
    .bind_right (by decide) (prompt_arguments false) fun as =>
    .bind_right (by decide) (prompt_directives false) fun ds =>
    .bind_right (s := none) (by decide) (hs.onlyIf (spots_sees _)) fun set => ?_)
  cases second <;> exact .pure

theorem prompt_spread : Prompt k N (some (.punctuator .spread))
    [.punctuator .atSign, .punctuator .parenOpen] (spread set) := by
  have hplain : ∀ M, Prompt k M (some sampleName) [.punctuator .atSign, .punctuator .parenOpen]
      (name >>= fun n => directives false >>= fun ds =>
        pure fun span => Selection.fragmentSpread ⟨n, ds, span⟩) := fun M =>
    .bind_left (by decide) prompt_name fun _ => (prompt_directives false).last
  have hinline : Prompt k N (some (.punctuator .braceOpen)) []
      (after (.keyword .on) name >>= fun condition => directives false >>= fun ds =>
        set >>= fun body => pure fun span =>
          Selection.inlineFragment ⟨condition, ds, body, span⟩) :=
    .bind_right (by decide) (prompt_name.after (by decide)) fun _ =>
      .bind_right (by decide) (prompt_directives false) fun _ => hs.last
  refine .bind_left (s := some sampleName) (by decide) (.mark .spread) fun _ =>
    .current (fun l => .ite (fun _ => (hplain N).steady) fun _ => ?_) (hplain N).fills
  exact hinline.anyStops.steady

theorem prompt_selection : Prompt k N (some sampleName) fieldStops (selection set) :=
  .test_false (spots_sees _) ((prompt_spread hs).spanned.widen (by decide)).steady
    (prompt_field hs).map (by decide)

end

theorem prompt_selectionSet : Prompt k N (some (.punctuator .braceOpen)) [] selectionSet := by
  refine .fix selectionSet_eq (fun n => ?_) fun M _ ih => ?_
  · refine ⟨[.punctuator .braceOpen, sampleName, .punctuator .braceClose],
      .mk [.field ⟨none, ⟨"a", some ⟨n + 1, n + 2⟩⟩, [], [], none, some ⟨n + 1, n + 2⟩⟩]
        (some ⟨n, n + 3⟩), rfl, ?_, fun _ _ => rfl⟩
    simp [writable_punctuator, writable_sampleName]
  · exact ((prompt_selection ih).many (reads_selection reads_selectionSet.zero)
      (by decide)).last.spanned.steady

/-! ### What is executed -/

/-- The kinds that go on with a type, a default value and directives. -/
def inputStops : List TokenKind :=
  [.punctuator .bang, .punctuator .equals, .punctuator .atSign, .punctuator .parenOpen]

theorem prompt_variableDefinition :
    Prompt k N (some (.punctuator .dollar)) inputStops variableDefinition :=
  .spanned (.bind_left (by decide) (.mark .dollar) fun _ =>
    .bind_left (by decide) prompt_name fun _ =>
    .bind_left (by decide) (.mark .colon) fun _ =>
    .bind_left (by decide) prompt_typeRef fun _ =>
    .bind_right (by decide) ((prompt_value true).after (by decide)) fun _ =>
      (prompt_directives true).last.widen (by decide))

theorem prompt_variableDefinitions :
    Prompt k N none [.punctuator .parenOpen] variableDefinitions :=
  prompt_variableDefinition.optionalMany reads_variableDefinition (by decide)

theorem prompt_operationType : Prompt k N (some (.keyword .query)) [] operationType := by
  refine .current (fun l => ?_) (Prompt.keyword (k := k) (N := N) .query).last.fills
  split
  · exact (Prompt.keyword .query).last.steady
  · exact (Prompt.keyword .mutation).last.steady
  · exact (Prompt.keyword .subscription).last.steady
  · exact .unexpected

theorem prompt_shorthandQuery :
    Prompt k N (some (.punctuator .braceOpen)) [] shorthandQuery :=
  prompt_selectionSet.last

theorem prompt_operation : Prompt k N (some (.keyword .query)) [] operation :=
  .bind_left (by decide) prompt_operationType fun _ =>
    .bind_right (by decide) (prompt_name.onlyIf spots_seesName) fun _ =>
    .bind_right (by decide) prompt_variableDefinitions fun _ =>
    .bind_right (by decide) (prompt_directives false) fun _ => prompt_selectionSet.last

theorem prompt_fragmentVariables :
    Prompt k N none [.punctuator .parenOpen] (fragmentVariables k.allowed) := by
  have hmany : Prompt k N (some (.punctuator .parenOpen)) []
      (many (.punctuator .parenOpen) (.punctuator .parenClose) variableDefinition) :=
    (prompt_variableDefinition.many reads_variableDefinition (by decide)).below (Nat.le_succ N)
  rw [fragmentVariables_eq]
  refine .test_none (spots_sees _) (.ite (fun _ => ?_) fun hk => ?_) .pure fun _ hk => hk
  · exact hmany.last.anyStops.steady
  · exact .fail fun _ => Bool.eq_false_iff.2 hk

theorem prompt_fragment : Prompt k N (some (.keyword .fragment)) [] (fragment k.allowed) :=
  .bind_left (s := some sampleName) (by decide) (.keyword .fragment) fun _ =>
    .test_false (spots_sees _) .unexpected
      (.bind_left (by decide) prompt_name fun _ =>
      .bind_right (by decide) prompt_fragmentVariables fun _ =>
      .bind_left (by decide) (.keyword .on) fun _ =>
      .bind_left (by decide) prompt_name fun _ =>
      .bind_right (by decide) (prompt_directives false) fun _ => prompt_selectionSet.last)
      (by decide)

/-! ### Members of types -/

theorem prompt_inputValueDefinition :
    Prompt k N (some sampleName) inputStops inputValueDefinition :=
  .spanned (.bind_right (by decide) prompt_description fun _ =>
    .bind_left (by decide) prompt_name fun _ =>
    .bind_left (by decide) (.mark .colon) fun _ =>
    .bind_left (by decide) prompt_typeRef fun _ =>
    .bind_right (by decide) ((prompt_value true).after (by decide)) fun _ =>
      (prompt_directives true).last.widen (by decide))

theorem prompt_argumentDefinitions :
    Prompt k N none [.punctuator .parenOpen] argumentDefinitions :=
  prompt_inputValueDefinition.optionalMany reads_inputValueDefinition (by decide)

theorem prompt_fieldDefinition : Prompt k N (some sampleName)
    [.punctuator .bang, .punctuator .atSign, .punctuator .parenOpen] fieldDefinition :=
  .spanned (.bind_right (by decide) prompt_description fun _ =>
    .bind_left (by decide) prompt_name fun _ =>
    .bind_right (by decide) prompt_argumentDefinitions fun _ =>
    .bind_left (by decide) (.mark .colon) fun _ =>
    .bind_left (by decide) prompt_typeRef fun _ =>
      (prompt_directives true).last.widen (by decide))

theorem prompt_enumValueDefinition : Prompt k N (some sampleName)
    [.punctuator .atSign, .punctuator .parenOpen] enumValueDefinition := by
  have hvalue : ∀ about, Prompt k N (some sampleName)
      [.punctuator .atSign, .punctuator .parenOpen] (name >>= fun n => directives true >>=
        fun ds => pure fun span => (⟨about, n, ds, span⟩ : EnumValueDefinition)) := fun _ =>
    .bind_left (by decide) prompt_name fun _ => (prompt_directives true).last
  exact .spanned (.bind_right (by decide) prompt_description fun about =>
    .current (fun l => .ite (fun _ => .fail fun _ => trivial) fun _ => (hvalue about).steady)
      (hvalue about).fills)

theorem prompt_namesAfter {kind : TokenKind} (hk : kind ≠ .endOfInput) {sign : Punctuator} :
    Prompt k N none [kind, .punctuator sign] (namesAfter kind (.punctuator sign)) :=
  ((prompt_name.separatedBy reads_name nofun).after hk).last

theorem prompt_interfaces :
    Prompt k N none [.keyword .implements, .punctuator .ampersand] interfaces :=
  prompt_namesAfter (by decide)

theorem prompt_operationTypeDefinition :
    Prompt k N (some (.keyword .query)) [] operationTypeDefinition :=
  .spanned (.bind_left (by decide) prompt_operationType fun _ =>
    .bind_left (by decide) (.mark .colon) fun _ => prompt_name.last)

/-! ### Definitions of the type system -/

/-- The kinds that go on with a definition. -/
def definitionStops : List TokenKind := .punctuator .braceOpen :: definitionKinds

theorem prompt_optionalBlock {α : Type} {item : Parser α} {l : Lexeme} {u : List TokenKind}
    (hi : Prompt k N (some l) u item) (hr : Reads 1 item)
    (hclose : avoids u (.punctuator .braceClose)) :
    Prompt k N none definitionStops (optionalBlock item) :=
  (hi.optionalMany hr hclose).widen (by decide)

theorem prompt_schema (about : Option StringValue) :
    Prompt k N (some (.keyword .schema)) [] (schema about false) := by
  have hoperations : Prompt k N (some (.punctuator .braceOpen)) [] (schemaOperations false) :=
    (prompt_operationTypeDefinition.many reads_operationTypeDefinition (by decide)).below
      (Nat.le_succ N)
  exact .bind_left (by decide) (.keyword .schema) fun _ =>
    .bind_right (by decide) (prompt_directives true) fun _ => hoperations.last

/-- Directives, and what may stand behind them in a definition. -/
theorem prompt_withDirectives {α β : Type} {p : Parser α} {g : List Directive → α → β}
    (hp : Prompt k N none definitionStops p) :
    Prompt k N none definitionStops
      (directives true >>= fun ds => p >>= fun x => pure (g ds x)) :=
  .bind_right (by decide) (prompt_directives true) fun _ => hp.last

theorem prompt_fieldsBody (body : List Name → List FieldDefinition → TypeBody) :
    Prompt k N none definitionStops (fieldsBody body) :=
  .bind_right (by decide) prompt_interfaces fun _ =>
    prompt_withDirectives (prompt_optionalBlock prompt_fieldDefinition reads_fieldDefinition
      (by decide))

theorem prompt_typeBody {word : Keyword} (hw : isTypeKeyword word = true) :
    Prompt k N none definitionStops (typeBody word) := by
  cases word with
  | scalar => exact (prompt_directives true).last.widen (by decide)
  | type => exact prompt_fieldsBody _
  | interface => exact prompt_fieldsBody _
  | union =>
      exact prompt_withDirectives ((prompt_namesAfter (by decide)).widen (by decide))
  | enum =>
      exact prompt_withDirectives (prompt_optionalBlock prompt_enumValueDefinition
        reads_enumValueDefinition (by decide))
  | input =>
      exact prompt_withDirectives (prompt_optionalBlock prompt_inputValueDefinition
        reads_inputValueDefinition (by decide))
  | _ => cases hw

theorem prompt_typeDefinition (about : Option StringValue) {word : Keyword}
    (hw : isTypeKeyword word = true) :
    Prompt k N (some (.keyword word)) definitionStops (typeDefinition about false word) :=
  .bind_left (.some List.not_mem_nil) (.keyword word) fun _ =>
    .bind_left (by decide) prompt_name fun _ => (prompt_typeBody hw).last

theorem prompt_directiveLocation : Prompt k N (some sampleLocation) [] directiveLocation := by
  have hname : ∀ location : DirectiveLocation, Prompt k N (some sampleLocation) []
      (expectName >>= fun _ => pure location) := fun _ =>
    (Prompt.expectName rfl writable_sampleLocation).last
  refine .current (fun l => .ite (fun _ => ?_) fun _ => .fail fun _ => trivial) (hname .field).fills
  split
  · exact (hname _).steady
  · exact .unexpected

theorem prompt_directiveDefinition (about : Option StringValue) :
    Prompt k N (some (.keyword .directive)) [.punctuator .pipe] (directiveDefinition about) :=
  .bind_left (by decide) (.keyword .directive) fun _ =>
    .bind_left (by decide) (.mark .atSign) fun _ =>
    .bind_left (by decide) prompt_name fun _ =>
    .bind_right (by decide) prompt_argumentDefinitions fun _ =>
    .bind_right (by decide) (.accept_none (by decide)) fun _ =>
    .bind_left (by decide) (.keyword .on) fun _ =>
      (prompt_directiveLocation.separatedBy reads_directiveLocation nofun).last

/-! ### Extensions -/

theorem fills_directives : Fills (some (.punctuator .atSign))
    [.punctuator .atSign, .punctuator .parenOpen] (directives true) := by
  have hdirective : Prompt ⟨false, false⟩ 0 (some (.punctuator .atSign))
      [.punctuator .atSign, .punctuator .parenOpen]
      (directive true >>= fun d => directives true >>= fun ds => pure (d :: ds)) :=
    .bind_left (by decide) (prompt_directive true) fun _ => (prompt_directives true).last
  have heq : directives true = whileSeesBody _ (directive true) (directives true) :=
    (guarded_whileSees (reads_directive true)).fix_eq
  rw [heq]
  exact hdirective.fills.test_true (spots_sees _) (by decide)

section
variable {α β : Type} {p : Parser α}

/-- Directives can be added to what a definition says. -/
theorem fills_withDirectives {g : List Directive → α → β}
    (hp : Prompt ⟨false, false⟩ 0 none definitionStops p) :
    Fills (some (.punctuator .atSign)) definitionStops
      (directives true >>= fun ds => p >>= fun x => pure (g ds x)) :=
  .bind (by decide) fills_directives fun _ => hp.last.fills

theorem tells_withDirectives {H : Prop} {empty : α → Bool} {empty' : β → Bool}
    {g : List Directive → α → β} (hp : Tells True empty p)
    (hg : ∀ ds a, empty' (g ds a) = true ↔ H ∧ ds.isEmpty = true ∧ empty a = true) :
    Tells H empty' (directives true >>= fun ds => p >>= fun x => pure (g ds x)) :=
  .bind (.whileSees (reads_directive true)) fun ds => .bind hp fun a => .pure (by
    rw [hg ds a, and_assoc])

end

/-- What an extension adds to a schema. -/
def schemaContents : Parser (List Directive × List OperationTypeDefinition) := do
  let ds ← directives true
  let os ← schemaOperations true
  return (ds, os)

theorem prompt_schemaContents : Prompt k N none definitionStops schemaContents :=
  prompt_withDirectives (prompt_optionalBlock prompt_operationTypeDefinition
    reads_operationTypeDefinition (by decide))

theorem fills_schemaContents :
    Fills (some (.punctuator .atSign)) definitionStops schemaContents :=
  fills_withDirectives (prompt_optionalBlock prompt_operationTypeDefinition
    reads_operationTypeDefinition (by decide))

theorem tells_schemaContents :
    Tells True (fun r => r.1.isEmpty && r.2.isEmpty) schemaContents := by
  have hoperations : Tells True List.isEmpty (schemaOperations true) :=
    .optionalMany reads_operationTypeDefinition
  exact tells_withDirectives hoperations fun ds os => by simp

theorem fills_fieldsBody (body : List Name → List FieldDefinition → TypeBody) :
    Fills (some (.punctuator .atSign)) definitionStops (fieldsBody body) := by
  have hinterfaces : Prompt ⟨false, false⟩ 0 none _ interfaces := prompt_interfaces
  exact .bind (by decide) hinterfaces.fills fun _ =>
    fills_withDirectives (prompt_optionalBlock prompt_fieldDefinition reads_fieldDefinition
      (by decide))

/-- Directives can be added to what follows the name of any type. -/
theorem fills_typeBody {word : Keyword} (hw : isTypeKeyword word = true) :
    Fills (some (.punctuator .atSign)) definitionStops (typeBody word) := by
  cases word with
  | scalar => exact .bind (by decide) fills_directives fun _ => .pure _
  | type => exact fills_fieldsBody _
  | interface => exact fills_fieldsBody _
  | union =>
      exact fills_withDirectives ((prompt_namesAfter (by decide)).widen (by decide))
  | enum =>
      exact fills_withDirectives (prompt_optionalBlock prompt_enumValueDefinition
        reads_enumValueDefinition (by decide))
  | input =>
      exact fills_withDirectives (prompt_optionalBlock prompt_inputValueDefinition
        reads_inputValueDefinition (by decide))
  | _ => cases hw

theorem tells_namesAfter {kind : TokenKind} (hk : kind ≠ .endOfInput) {sign : Punctuator} :
    Tells True List.isEmpty (namesAfter kind (.punctuator sign)) := by
  have hseparated : Yields List.isEmpty (separatedBy (.punctuator sign) name) :=
    .behind (reads_accept _) fun _ => .cons reads_name (reads_whileSees
      ((reads_expect (mark_ne_endOfInput sign)).bind_left fun _ => reads_name.zero))
  have hafter : Tells True (fun o => (o.getD []).isEmpty)
      (after kind (separatedBy (.punctuator sign) name)) := by
    show Tells _ _ (accept kind >>= fun b => if b = true then _ else _)
    rw [accept_bind]
    exact .sees (.of_yields (.behind (reads_expect hk).zero fun _ => hseparated.last fun _ h => h))
      (.pure (by simp))
  exact .bind hafter fun o => .pure (by simp)

theorem tells_fieldsBody {body : List Name → List FieldDefinition → TypeBody}
    (hbody : ∀ is fs, (body is fs).isEmpty = (is.isEmpty && fs.isEmpty)) :
    Tells True (fun r => r.1.isEmpty && r.2.isEmpty) (fieldsBody body) := by
  have hinterfaces : Tells True List.isEmpty interfaces := tells_namesAfter (by decide)
  have hfields : Tells True List.isEmpty (optionalBlock fieldDefinition) :=
    .optionalMany reads_fieldDefinition
  exact .bind hinterfaces fun is => tells_withDirectives hfields fun ds fs => by
    simp [hbody, and_left_comm]

theorem tells_typeBody {word : Keyword} (hw : isTypeKeyword word = true) :
    Tells True (fun r => r.1.isEmpty && r.2.isEmpty) (typeBody word) := by
  have hrest : ∀ {α : Type} {p : Parser (List α)} {body : List α → TypeBody},
      Tells True List.isEmpty p → (∀ xs, (body xs).isEmpty = xs.isEmpty) →
      Tells True (fun r => r.1.isEmpty && r.2.isEmpty)
        (directives true >>= fun ds => p >>= fun xs => pure (ds, body xs)) := fun hp hbody =>
    tells_withDirectives hp fun ds xs => by simp [hbody]
  cases word with
  | scalar =>
      exact .bind (.whileSees (reads_directive true)) fun ds => .pure (by simp [TypeBody.isEmpty])
  | type => exact tells_fieldsBody fun _ _ => rfl
  | interface => exact tells_fieldsBody fun _ _ => rfl
  | union => exact hrest (tells_namesAfter (by decide)) fun _ => rfl
  | enum => exact hrest (.optionalMany reads_enumValueDefinition) fun _ => rfl
  | input => exact hrest (.optionalMany reads_inputValueDefinition) fun _ => rfl
  | _ => cases hw

/-- What follows an extension's keyword, and its name if it has one, must not be empty. -/
theorem filled_schema : filled (fun build => isEmptyExtension (build none)) id
      (schema none true >>= fun build => pure fun span => Definition.schema (build span)) =
    (expect (.keyword .schema) >>= fun _ => filled (fun r => r.1.isEmpty && r.2.isEmpty)
      (fun r span => .schema ⟨none, true, r.1, r.2, span⟩) schemaContents) := by
  simp only [schema, schemaContents, filled, bind_assoc, pure_bind]
  rfl

theorem filled_typeDefinition (word : Keyword) :
    filled (fun build => isEmptyExtension (build none)) id (typeDefinition none true word >>=
        fun build => pure fun span => Definition.type (build span)) =
      (expect (.keyword word) >>= fun _ => name >>= fun n =>
        filled (fun r => r.1.isEmpty && r.2.isEmpty)
          (fun r span => .type ⟨none, true, n, r.1, r.2, span⟩) (typeBody word)) := by
  simp only [typeDefinition, filled, bind_assoc, pure_bind]
  rfl

theorem prompt_extended : Prompt k N (some (.keyword .schema)) definitionStops
    (filled (fun build => isEmptyExtension (build none)) id extended) := by
  have hschema : Prompt k N (some (.keyword .schema)) definitionStops
      (filled (fun build => isEmptyExtension (build none)) id
        (schema none true >>= fun build => pure fun span => Definition.schema (build span))) := by
    rw [filled_schema]
    exact .bind_left (by decide) (.keyword .schema) fun _ =>
      prompt_schemaContents.filled tells_schemaContents (by decide) fills_schemaContents
  have htype : ∀ {word : Keyword}, isTypeKeyword word = true →
      Prompt k N (some (.keyword word)) definitionStops
        (filled (fun build => isEmptyExtension (build none)) id
          (typeDefinition none true word >>= fun build =>
            pure fun span => Definition.type (build span))) := fun {word} hw => by
    rw [filled_typeDefinition]
    exact .bind_left (.some List.not_mem_nil) (.keyword word) fun _ =>
      .bind_left (by decide) prompt_name fun _ =>
        (prompt_typeBody hw).filled (tells_typeBody hw) (by decide) (fills_typeBody hw)
  unfold extended filled
  rw [bind_assoc]
  refine .current (fun l => ?_) hschema.fills
  split
  · exact hschema.steady
  · rename_i word _ _
    by_cases hw : isTypeKeyword word = true
    · rw [if_pos hw]
      exact (htype hw).steady
    · rw [if_neg hw]
      exact .unexpected
  · exact .unexpected

theorem prompt_extension :
    Prompt k N (some (.keyword .extend)) definitionStops extension :=
  .bind_left (by decide) (.keyword .extend) fun _ => prompt_extended

/-! ### Definitions -/

/-- A description is a fault in front of some keywords, if there can be one. -/
theorem steady_keywordDefinition {about : Option StringValue} {word : Keyword}
    (h : about.isSome ∧ takesNoDescription word → k.described = true) :
    Steady k N 1 definitionStops (keywordDefinition k.allowed about word) := by
  refine .ite (fun hstray => .fail fun _ => h hstray) fun _ => ?_
  split
  · exact prompt_operation.last.anyStops.steady
  · exact prompt_operation.last.anyStops.steady
  · exact prompt_operation.last.anyStops.steady
  · exact prompt_fragment.last.anyStops.steady
  · exact (prompt_schema about).last.anyStops.steady
  · exact ((prompt_directiveDefinition about).last.widen (by decide)).steady
  · exact prompt_extension.steady
  · exact .ite (fun hw => (prompt_typeDefinition about hw).last.steady) fun _ => .unexpected

/-- A definition of a scalar type can stand behind any description. -/
theorem fills_scalar (about : Option StringValue) :
    Fills (some (.keyword .scalar)) definitionStops
      (keywordDefinition k.allowed about .scalar) := by
  have hnot : ¬(about.isSome ∧ takesNoDescription .scalar = true) := nofun
  have htype : Prompt k 0 (some (.keyword .scalar)) definitionStops
      (typeDefinition about false .scalar) := prompt_typeDefinition about rfl
  unfold keywordDefinition
  rw [if_neg hnot]
  exact htype.last.fills

theorem prompt_definition (hk : k.described = true) :
    Prompt k N (some (.keyword .scalar)) definitionStops (definition k.allowed) := by
  refine .spanned (.test_false (spots_sees _)
    prompt_shorthandQuery.last.anyStops.steady
    (.bind_right (by decide) prompt_description fun about =>
      .current (fun l => ?_) (fills_scalar about)) (by decide))
  split
  · exact steady_keywordDefinition fun _ => hk
  · exact .unexpected

theorem steady_definition (allowed : Bool) (c : Cursor) :
    SteadyAt ⟨allowed, true⟩ 1 definitionStops (definition allowed) c :=
  (prompt_definition (k := ⟨allowed, true⟩) (N := c.rest.length + 1) rfl).steady
    (Nat.lt_succ_self _)

end GraphQL.Grammar
