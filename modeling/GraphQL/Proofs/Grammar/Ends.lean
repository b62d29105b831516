import GraphQL.Proofs.Grammar.Promptness

/-!
Parsers leave the end of the input. The lexer answers with it for ever, so a parser that read
it would not have to come to an end. None does, whether it succeeds or fails: what is read are
other lexemes, and however many ends stand behind them, all of these are left.
-/

namespace GraphQL.Grammar

variable {α β : Type}

/-! ### Cursors -/

/-- Between two cursors stand at least a number of lexemes, and the end of the input is not
among them. -/
def Passes (k : Nat) (c d : Cursor) : Prop :=
  ∃ ls : List Lexeme, k ≤ ls.length ∧ (∀ l ∈ ls, l.kind ≠ .endOfInput) ∧
    c.rest = ls ++ d.rest ∧ d.position = c.position + ls.length

namespace Passes

variable {j k : Nat} {c d e : Cursor}

theorem refl (c : Cursor) : Passes 0 c c := ⟨[], Nat.le_refl _, by simp, rfl, rfl⟩

theorem trans (h : Passes j c d) (h' : Passes k d e) : Passes (j + k) c e := by
  obtain ⟨ls, hj, hls, hrest, hposition⟩ := h
  obtain ⟨ms, hk, hms, hrest', hposition'⟩ := h'
  refine ⟨ls ++ ms, ?_, ?_, ?_, ?_⟩
  · rw [List.length_append]
    omega
  · intro l hl
    exact (List.mem_append.1 hl).elim (hls l) (hms l)
  · rw [hrest, hrest', List.append_assoc]
  · rw [hposition', hposition, List.length_append]
    omega

/-- What was read is told by what is left. -/
theorem of_length (h : Passes j c d) (hlength : d.rest.length + k ≤ c.rest.length) :
    Passes k c d := by
  obtain ⟨ls, -, hls, hrest, hposition⟩ := h
  refine ⟨ls, ?_, hls, hrest, hposition⟩
  rw [hrest, List.length_append] at hlength
  omega

end Passes

/-- The same lexemes, with the end of the input behind them a number of times. -/
def Cursor.ended (n : Nat) (c : Cursor) : Cursor :=
  ⟨c.position, c.rest ++ List.replicate n .endOfInput⟩

@[simp] theorem Cursor.ended_position (n : Nat) (c : Cursor) :
    (c.ended n).position = c.position := rfl

@[simp] theorem Cursor.ended_current (n : Nat) (c : Cursor) :
    (c.ended n).current = c.current := by
  obtain ⟨m, _ | ⟨l, ls⟩⟩ := c
  · cases n <;> rfl
  · rfl

/-! ### Parsers that leave the end -/

/-- A parser never reads the end of the input. It has come as far as it says, and it makes no
difference how often the end can be read again. -/
structure KeepsEnd (p : Parser α) : Prop where
  answered : ∀ {c d : Cursor} {a : α}, p c = .ok (a, d) → Passes 0 c d
  refused : ∀ {c : Cursor} {e : SyntaxError}, p c = .error e →
    ∃ d, Passes 0 c d ∧ e.position = d.position
  ended : ∀ (n : Nat) (c : Cursor), p (c.ended n) = (p c).map fun r => (r.1, r.2.ended n)

namespace KeepsEnd

variable {p q : Parser α} {f : α → Parser β}

theorem pure (a : α) : KeepsEnd (pure a : Parser α) where
  answered h := by
    obtain ⟨-, rfl⟩ := Prod.mk.inj (pure_eq_ok.1 h)
    exact .refl _
  refused h := nomatch h
  ended _ _ := rfl

theorem bind (hp : KeepsEnd p) (hf : ∀ a, KeepsEnd (f a)) : KeepsEnd (p >>= f) where
  answered h := by
    obtain ⟨a, d, ha, hb⟩ := bind_eq_ok.1 h
    exact (hp.answered ha).trans ((hf a).answered hb)
  refused h := by
    rcases bind_eq_error.1 h with he | ⟨a, d, ha, he⟩
    · exact hp.refused he
    · obtain ⟨d', hd', hposition⟩ := (hf a).refused he
      exact ⟨d', (hp.answered ha).trans hd', hposition⟩
  ended n c := by
    show (p (c.ended n) >>= fun x => f x.1 x.2) = (p c >>= fun x => f x.1 x.2).map _
    rw [hp.ended]
    cases p c with
    | error e => rfl
    | ok r => exact (hf r.1).ended n r.2

theorem last {g : α → β} (hp : KeepsEnd p) : KeepsEnd (p >>= fun a => Pure.pure (g a)) :=
  hp.bind fun _ => .pure _

theorem map {g : α → β} (hp : KeepsEnd p) : KeepsEnd (g <$> p) := by
  rw [map_eq_pure_bind]
  exact hp.last

theorem ite {c : Prop} [Decidable c] (hp : KeepsEnd p) (hq : KeepsEnd q) :
    KeepsEnd (if c then p else q) := by
  split
  · exact hp
  · exact hq

theorem fail {fault : Lexeme → Fault} : KeepsEnd (fail fault : Parser α) where
  answered h := nomatch h
  refused h := by
    cases h
    exact ⟨_, .refl _, rfl⟩
  ended n c := by
    show Except.error _ = Except.error _
    rw [Cursor.ended_current, Cursor.ended_position]

theorem unexpected : KeepsEnd (unexpected : Parser α) := fail

end KeepsEnd

/-! ### Single lexemes -/

theorem keepsEnd_position : KeepsEnd position where
  answered h := by
    cases h
    exact .refl _
  refused h := nomatch h
  ended _ _ := rfl

theorem keepsEnd_current : KeepsEnd current where
  answered h := by
    cases h
    exact .refl _
  refused h := nomatch h
  ended n c := by
    show Except.ok (_, _) = Except.ok (_, _)
    rw [Cursor.ended_current]

theorem keepsEnd_sees {kind : TokenKind} : KeepsEnd (sees kind) := keepsEnd_current.last

theorem keepsEnd_seesName : KeepsEnd seesName := keepsEnd_current.last

theorem keepsEnd_seesString : KeepsEnd seesString := by
  refine keepsEnd_current.bind fun l => ?_
  split
  · exact .pure _
  · exact .pure _
  · exact .pure _

/-- The next lexeme is read if it passes a test that the end of the input does not pass. -/
theorem keepsEnd_test {f : Lexeme → Bool} (hf : ∀ l, f l = true → l.kind ≠ .endOfInput)
    {fault : Lexeme → Fault} :
    KeepsEnd ((current >>= fun l => pure (f l)) >>= fun b =>
      if b = true then advance else fail fault) := by
  have hend : f .endOfInput = false := Bool.eq_false_iff.2 fun h => hf _ h rfl
  constructor
  · intro c d l h
    obtain ⟨htest, hrest, hposition⟩ := advance_of_test hend h
    exact ⟨[l], Nat.zero_le _, by simpa using hf l htest, hrest, hposition⟩
  · intro c e h
    rw [test_bind] at h
    split at h
    · unfold advance at h
      split at h <;> cases h
    · exact KeepsEnd.fail.refused h
  · intro n c
    rw [test_bind, test_bind, Cursor.ended_current]
    split
    · rename_i htest
      obtain ⟨m, _ | ⟨l, ls⟩⟩ := c
      · exact absurd (hend.symm.trans htest) (by decide)
      · rfl
    · exact KeepsEnd.fail.ended n c

theorem keepsEnd_expect {kind : TokenKind} (hk : kind ≠ .endOfInput) : KeepsEnd (expect kind) :=
  keepsEnd_test fun l hl => by rwa [beq_iff_eq.1 hl]

theorem keepsEnd_expectName : KeepsEnd expectName :=
  keepsEnd_test fun l hl heq => by simp [heq, TokenKind.isName] at hl

theorem keepsEnd_accept {kind : TokenKind} (hk : kind ≠ .endOfInput) : KeepsEnd (accept kind) := by
  rw [accept_eq]
  exact keepsEnd_sees.bind fun _ => .ite (keepsEnd_expect hk).last (.pure _)

namespace KeepsEnd

variable {p : Parser α}

theorem spanned {p : Parser (Option Span → α)} (hp : KeepsEnd p) : KeepsEnd (spanned p) :=
  keepsEnd_position.bind fun _ => hp.bind fun _ => keepsEnd_position.last

/-- A fault that is handed on as an answer was met where nothing was read. -/
theorem attempt (hp : KeepsEnd p) : KeepsEnd (attempt p) where
  answered h := by
    unfold Grammar.attempt at h
    split at h
    · rename_i heq
      cases h
      exact hp.answered heq
    · cases h
      exact .refl _
  refused h := by
    unfold Grammar.attempt at h
    split at h <;> cases h
  ended n c := by
    unfold Grammar.attempt
    rw [hp.ended]
    cases p c <;> rfl

/-! ### Recursion -/

/-- How deep a recursion is unrolled makes no difference, so neither do the ends behind the
lexemes that are left. -/
theorem fix {k : Nat} {body : Parser α → Parser α} (hg : Guarded k body)
    (h : ∀ p, Reads k p → KeepsEnd p → KeepsEnd (body p)) : KeepsEnd (fix body) := by
  have hunroll : ∀ ls, KeepsEnd (unroll body ls) := by
    intro ls
    induction ls with
    | nil => exact unexpected
    | cons l ls ih => exact h _ (hg.reads_unroll ls) ih
  have hbody : ∀ ls, KeepsEnd (body (unroll body ls)) := fun ls =>
    h _ (hg.reads_unroll ls) (hunroll ls)
  refine ⟨fun {c _ _} => (hbody c.rest).answered, fun {c _} => (hbody c.rest).refused, ?_⟩
  intro n c
  have hdeep : c.rest.length ≤ (c.ended n).rest.length := by
    rw [Cursor.ended, List.length_append]
    omega
  have hagree : body (unroll body (c.ended n).rest) c = Grammar.fix body c :=
    hg.agree c.rest.length _ _ (hg.reads_unroll _) (hg.unroll_agree hdeep (Nat.le_refl _)) c
      (Nat.lt_succ_self _)
  show body (unroll body (c.ended n).rest) (c.ended n) = _
  rw [(hbody _).ended, hagree]

/-! ### Lists -/

theorem upTo {close : TokenKind} {item : Parser α} (hc : close ≠ .endOfInput)
    (hr : Reads 1 item) (hi : KeepsEnd item) : KeepsEnd (upTo close item) :=
  .fix (guarded_upTo hr) fun _ _ hp =>
    (keepsEnd_accept hc).bind fun _ => ite (.pure _) (hi.bind fun _ => hp.last)

theorem many {opening close : TokenKind} {item : Parser α} (ho : opening ≠ .endOfInput)
    (hc : close ≠ .endOfInput) (hr : Reads 1 item) (hi : KeepsEnd item) :
    KeepsEnd (many opening close item) :=
  (keepsEnd_expect ho).bind fun _ => hi.bind fun _ => (hi.upTo hc hr).last

theorem optionalMany {opening close : TokenKind} {item : Parser α} (ho : opening ≠ .endOfInput)
    (hc : close ≠ .endOfInput) (hr : Reads 1 item) (hi : KeepsEnd item) :
    KeepsEnd (optionalMany opening close item) :=
  keepsEnd_sees.bind fun _ => ite (hi.many ho hc hr) (.pure _)

theorem whileSees {kind : TokenKind} {item : Parser α} (hr : Reads 1 item) (hi : KeepsEnd item) :
    KeepsEnd (whileSees kind item) :=
  .fix (guarded_whileSees hr) fun _ _ hp =>
    keepsEnd_sees.bind fun _ => ite (hi.bind fun _ => hp.last) (.pure _)

theorem separatedBy {separator : TokenKind} {item : Parser α} (hs : separator ≠ .endOfInput)
    (hr : Reads 1 item) (hi : KeepsEnd item) : KeepsEnd (separatedBy separator item) :=
  (keepsEnd_accept hs).bind fun _ => hi.bind fun _ =>
    (whileSees ((reads_expect hs).bind_left fun _ => hr.zero)
      ((keepsEnd_expect hs).bind fun _ => hi)).last

theorem onlyIf {test : Parser Bool} {item : Parser α} (ht : KeepsEnd test) (hi : KeepsEnd item) :
    KeepsEnd (onlyIf test item) :=
  ht.bind fun _ => ite hi.last (.pure _)

theorem after {kind : TokenKind} {item : Parser α} (hk : kind ≠ .endOfInput)
    (hi : KeepsEnd item) : KeepsEnd (after kind item) :=
  (keepsEnd_accept hk).onlyIf hi

end KeepsEnd

/-! ### Values -/

theorem keepsEnd_name : KeepsEnd name := .spanned keepsEnd_expectName.last

theorem keepsEnd_stringValueNode : KeepsEnd stringValueNode := by
  refine .spanned (keepsEnd_current.bind fun l => ?_)
  split
  · exact (keepsEnd_expect (by decide)).last
  · split
    · exact (keepsEnd_expect (by decide)).last
    · exact .fail
  · exact .unexpected

theorem keepsEnd_description : KeepsEnd description :=
  keepsEnd_seesString.onlyIf keepsEnd_stringValueNode

theorem keepsEnd_argumentOf {value : Parser Value} (hv : KeepsEnd value) :
    KeepsEnd (argumentOf value) :=
  .spanned (keepsEnd_name.bind fun _ => (keepsEnd_expect (by decide)).bind fun _ => hv.last)

theorem keepsEnd_valueBody {const : Bool} {inner : Parser Value} (hr : Reads 1 inner)
    (hi : KeepsEnd inner) : KeepsEnd (valueBody const inner) := by
  have hword : ∀ {k : TokenKind} {f : Lexeme → Option Span → Value}, k ≠ .endOfInput →
      KeepsEnd (spanned (expect k >>= fun l => pure (f l))) :=
    fun hk => .spanned (keepsEnd_expect hk).last
  refine keepsEnd_current.bind fun l => ?_
  split
  · exact .ite .unexpected ((keepsEnd_expect (by decide)).bind fun _ => keepsEnd_name.last)
  · exact hword (by decide)
  · exact hword (by decide)
  · exact keepsEnd_stringValueNode.last
  · exact keepsEnd_stringValueNode.last
  · exact hword (by decide)
  · exact hword (by decide)
  · exact hword (by decide)
  · exact .spanned ((keepsEnd_expect (by decide)).bind fun _ => (hi.upTo (by decide) hr).last)
  · exact .spanned ((keepsEnd_expect (by decide)).bind fun _ =>
      ((keepsEnd_argumentOf hi).upTo (by decide) (reads_argumentOf hr.zero)).last)
  · exact keepsEnd_name.last
  · exact keepsEnd_name.last
  · exact .unexpected

theorem keepsEnd_value (const : Bool) : KeepsEnd (value const) :=
  .fix (guarded_value const) fun _ => keepsEnd_valueBody

theorem keepsEnd_arguments (const : Bool) : KeepsEnd (arguments const) :=
  (keepsEnd_argumentOf (keepsEnd_value const)).optionalMany (by decide) (by decide)
    (reads_argumentOf (reads_value const).zero)

theorem keepsEnd_directive (const : Bool) : KeepsEnd (directive const) :=
  .spanned ((keepsEnd_expect (by decide)).bind fun _ => keepsEnd_name.bind fun _ =>
    (keepsEnd_arguments const).last)

theorem keepsEnd_directives (const : Bool) : KeepsEnd (directives const) :=
  (keepsEnd_directive const).whileSees (reads_directive const)

/-! ### Types -/

theorem keepsEnd_nullableTypeRef {inner : Parser TypeRef} (hi : KeepsEnd inner) :
    KeepsEnd (nullableTypeRef inner) :=
  keepsEnd_sees.bind fun _ => .ite
    (.spanned ((keepsEnd_expect (by decide)).bind fun _ => hi.bind fun _ =>
      (keepsEnd_expect (by decide)).last))
    keepsEnd_name.last

theorem keepsEnd_typeRef : KeepsEnd typeRef :=
  .fix guarded_typeRef fun _ _ hi => keepsEnd_position.bind fun _ =>
    (keepsEnd_nullableTypeRef hi).bind fun _ => (keepsEnd_accept (by decide)).bind fun _ =>
      .ite keepsEnd_position.last (.pure _)

/-! ### What is executed -/

theorem keepsEnd_field {set : Parser SelectionSet} (hs : KeepsEnd set) : KeepsEnd (field set) := by
  refine .spanned (keepsEnd_name.bind fun _ => (keepsEnd_name.after (by decide)).bind fun second =>
    (keepsEnd_arguments false).bind fun _ => (keepsEnd_directives false).bind fun _ =>
      (keepsEnd_sees.onlyIf hs).bind fun _ => ?_)
  split
  · exact .pure _
  · exact .pure _

theorem keepsEnd_spread {set : Parser SelectionSet} (hs : KeepsEnd set) : KeepsEnd (spread set) :=
  (keepsEnd_expect (by decide)).bind fun _ => keepsEnd_current.bind fun _ => .ite
    (keepsEnd_name.bind fun _ => (keepsEnd_directives false).last)
    ((keepsEnd_name.after (by decide)).bind fun _ => (keepsEnd_directives false).bind fun _ =>
      hs.last)

theorem keepsEnd_selection {set : Parser SelectionSet} (hs : KeepsEnd set) :
    KeepsEnd (selection set) :=
  keepsEnd_sees.bind fun _ => .ite (.spanned (keepsEnd_spread hs)) (keepsEnd_field hs).map

theorem keepsEnd_selectionSet : KeepsEnd selectionSet :=
  .fix guarded_selectionSet fun _ hr hs => .spanned
    ((keepsEnd_selection hs).many (by decide) (by decide) (reads_selection hr.zero)).last

theorem keepsEnd_default : KeepsEnd (after (.punctuator .equals) (value true)) :=
  (keepsEnd_value true).after (by decide)

theorem keepsEnd_variableDefinition : KeepsEnd variableDefinition :=
  .spanned ((keepsEnd_expect (by decide)).bind fun _ => keepsEnd_name.bind fun _ =>
    (keepsEnd_expect (by decide)).bind fun _ => keepsEnd_typeRef.bind fun _ =>
      keepsEnd_default.bind fun _ => (keepsEnd_directives true).last)

theorem keepsEnd_variableDefinitions : KeepsEnd variableDefinitions :=
  keepsEnd_variableDefinition.optionalMany (by decide) (by decide) reads_variableDefinition

theorem keepsEnd_operationType : KeepsEnd operationType := by
  refine keepsEnd_current.bind fun l => ?_
  split
  · exact (keepsEnd_expect (by decide)).last
  · exact (keepsEnd_expect (by decide)).last
  · exact (keepsEnd_expect (by decide)).last
  · exact .unexpected

theorem keepsEnd_shorthandQuery : KeepsEnd shorthandQuery := keepsEnd_selectionSet.last

theorem keepsEnd_operation : KeepsEnd operation :=
  keepsEnd_operationType.bind fun _ => (keepsEnd_seesName.onlyIf keepsEnd_name).bind fun _ =>
    keepsEnd_variableDefinitions.bind fun _ => (keepsEnd_directives false).bind fun _ =>
      keepsEnd_selectionSet.last

theorem keepsEnd_fragmentVariables (allowed : Bool) : KeepsEnd (fragmentVariables allowed) :=
  keepsEnd_sees.bind fun _ => .ite (.ite keepsEnd_variableDefinitions.map .fail) (.pure _)

theorem keepsEnd_fragment (allowed : Bool) : KeepsEnd (fragment allowed) :=
  (keepsEnd_expect (by decide)).bind fun _ => keepsEnd_sees.bind fun _ => .ite .unexpected
    (keepsEnd_name.bind fun _ => (keepsEnd_fragmentVariables allowed).bind fun _ =>
      (keepsEnd_expect (by decide)).bind fun _ => keepsEnd_name.bind fun _ =>
        (keepsEnd_directives false).bind fun _ => keepsEnd_selectionSet.last)

/-! ### The type system -/

theorem keepsEnd_inputValueDefinition : KeepsEnd inputValueDefinition :=
  .spanned (keepsEnd_description.bind fun _ => keepsEnd_name.bind fun _ =>
    (keepsEnd_expect (by decide)).bind fun _ => keepsEnd_typeRef.bind fun _ =>
      keepsEnd_default.bind fun _ => (keepsEnd_directives true).last)

theorem keepsEnd_argumentDefinitions : KeepsEnd argumentDefinitions :=
  keepsEnd_inputValueDefinition.optionalMany (by decide) (by decide) reads_inputValueDefinition

theorem keepsEnd_fieldDefinition : KeepsEnd fieldDefinition :=
  .spanned (keepsEnd_description.bind fun _ => keepsEnd_name.bind fun _ =>
    keepsEnd_argumentDefinitions.bind fun _ => (keepsEnd_expect (by decide)).bind fun _ =>
      keepsEnd_typeRef.bind fun _ => (keepsEnd_directives true).last)

theorem keepsEnd_enumValueDefinition : KeepsEnd enumValueDefinition :=
  .spanned (keepsEnd_description.bind fun _ => keepsEnd_current.bind fun _ => .ite .fail
    (keepsEnd_name.bind fun _ => (keepsEnd_directives true).last))

theorem keepsEnd_optionalBlock {item : Parser α} (hr : Reads 1 item) (hi : KeepsEnd item) :
    KeepsEnd (optionalBlock item) :=
  hi.optionalMany (by decide) (by decide) hr

theorem keepsEnd_namesAfter {kind separator : TokenKind} (hk : kind ≠ .endOfInput)
    (hs : separator ≠ .endOfInput) : KeepsEnd (namesAfter kind separator) :=
  ((keepsEnd_name.separatedBy hs reads_name).after hk).last

theorem keepsEnd_interfaces : KeepsEnd interfaces := keepsEnd_namesAfter (by decide) (by decide)

theorem keepsEnd_operationTypeDefinition : KeepsEnd operationTypeDefinition :=
  .spanned (keepsEnd_operationType.bind fun _ => (keepsEnd_expect (by decide)).bind fun _ =>
    keepsEnd_name.last)

theorem keepsEnd_schemaOperations (extend : Bool) : KeepsEnd (schemaOperations extend) :=
  .ite (keepsEnd_optionalBlock reads_operationTypeDefinition keepsEnd_operationTypeDefinition)
    (keepsEnd_operationTypeDefinition.many (by decide) (by decide) reads_operationTypeDefinition)

theorem keepsEnd_schema (about : Option StringValue) (extend : Bool) :
    KeepsEnd (schema about extend) :=
  (keepsEnd_expect (by decide)).bind fun _ => (keepsEnd_directives true).bind fun _ =>
    (keepsEnd_schemaOperations extend).last

theorem keepsEnd_fieldsBody (body : List Name → List FieldDefinition → TypeBody) :
    KeepsEnd (fieldsBody body) :=
  keepsEnd_interfaces.bind fun _ => (keepsEnd_directives true).bind fun _ =>
    (keepsEnd_optionalBlock reads_fieldDefinition keepsEnd_fieldDefinition).last

theorem keepsEnd_typeBody (k : Keyword) : KeepsEnd (typeBody k) := by
  unfold typeBody
  split
  · exact (keepsEnd_directives true).last
  · exact keepsEnd_fieldsBody _
  · exact keepsEnd_fieldsBody _
  · exact (keepsEnd_directives true).bind fun _ =>
      (keepsEnd_namesAfter (by decide) (by decide)).last
  · exact (keepsEnd_directives true).bind fun _ =>
      (keepsEnd_optionalBlock reads_enumValueDefinition keepsEnd_enumValueDefinition).last
  · exact (keepsEnd_directives true).bind fun _ =>
      (keepsEnd_optionalBlock reads_inputValueDefinition keepsEnd_inputValueDefinition).last
  · exact .unexpected

theorem keepsEnd_typeDefinition (about : Option StringValue) (extend : Bool) (k : Keyword) :
    KeepsEnd (typeDefinition about extend k) :=
  (keepsEnd_expect (keyword_ne_endOfInput k)).bind fun _ => keepsEnd_name.bind fun _ =>
    (keepsEnd_typeBody k).last

theorem keepsEnd_directiveLocation : KeepsEnd directiveLocation := by
  refine keepsEnd_current.bind fun l => .ite ?_ .fail
  split
  · exact keepsEnd_expectName.last
  · exact .unexpected

theorem keepsEnd_directiveDefinition (about : Option StringValue) :
    KeepsEnd (directiveDefinition about) :=
  (keepsEnd_expect (by decide)).bind fun _ => (keepsEnd_expect (by decide)).bind fun _ =>
    keepsEnd_name.bind fun _ => keepsEnd_argumentDefinitions.bind fun _ =>
      (keepsEnd_accept (by decide)).bind fun _ => (keepsEnd_expect (by decide)).bind fun _ =>
        (keepsEnd_directiveLocation.separatedBy (by decide) reads_directiveLocation).last

/-! ### Definitions -/

theorem keepsEnd_extended : KeepsEnd extended := by
  refine keepsEnd_current.bind fun l => ?_
  split
  · exact (keepsEnd_schema _ _).last
  · exact .ite (keepsEnd_typeDefinition _ _ _).last .unexpected
  · exact .unexpected

theorem keepsEnd_extension : KeepsEnd extension :=
  (keepsEnd_expect (by decide)).bind fun _ => keepsEnd_extended.bind fun _ =>
    .ite .unexpected (.pure _)

theorem keepsEnd_keywordDefinition (allowed : Bool) (about : Option StringValue) (k : Keyword) :
    KeepsEnd (keywordDefinition allowed about k) := by
  unfold keywordDefinition
  refine .ite .fail ?_
  split
  · exact keepsEnd_operation.last
  · exact keepsEnd_operation.last
  · exact keepsEnd_operation.last
  · exact (keepsEnd_fragment _).last
  · exact (keepsEnd_schema _ _).last
  · exact (keepsEnd_directiveDefinition _).last
  · exact keepsEnd_extension
  · exact .ite (keepsEnd_typeDefinition _ _ _).last .unexpected

theorem keepsEnd_definition (allowed : Bool) : KeepsEnd (definition allowed) := by
  refine .spanned (keepsEnd_sees.bind fun _ => .ite keepsEnd_shorthandQuery.last
    (keepsEnd_description.bind fun _ => keepsEnd_current.bind fun l => ?_))
  split
  · exact keepsEnd_keywordDefinition _ _ _
  · exact .unexpected

theorem keepsEnd_definitions (allowed : Bool) : KeepsEnd (definitions allowed) := by
  refine .fix (guarded_definitions allowed) fun _ _ hp =>
    (keepsEnd_definition allowed).attempt.bind fun r => ?_
  split
  · exact .pure _
  · exact keepsEnd_sees.bind fun _ => .ite (.pure _) hp.last

end GraphQL.Grammar
