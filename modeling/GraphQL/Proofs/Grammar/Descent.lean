import GraphQL.Proofs.Grammar.Ends
import GraphQL.Proofs.Grammar.Placement
import GraphQL.Proofs.Lexer.Slices
import GraphQL.Proofs.Lexer.Tiling
import Mathlib.Logic.Function.Iterate

/-!
How reading comes to an end. Whatever is read again and again reads at least one lexeme each
time, and a parser calls itself only where fewer lexemes are left. So whatever stands for the
calls that are nested deeper than there are lexemes, it is not called.
-/

namespace GraphQL.Grammar

variable {α : Type}

/-! ### Productions -/

/-- A parser that leaves the end of the input reads at least a number of other lexemes. -/
structure Progresses (k : Nat) (p : Parser α) : Prop extends KeepsEnd p where
  passes : ∀ {c d : Cursor} {a : α}, p c = .ok (a, d) → Passes k c d

theorem KeepsEnd.progresses {k : Nat} {p : Parser α} (h : KeepsEnd p) (hr : Reads k p) :
    Progresses k p where
  toKeepsEnd := h
  passes hc := (h.answered hc).of_length (hr.length_le hc)

/-- The parsers of the grammar, each with a number of lexemes that it reads at least. A list, and
what may be absent, need not read any; what lists are made of reads one. -/
inductive Production (allowed : Bool) : Nat → {α : Type} → Parser α → Prop
  | name : Production allowed 1 name
  | stringValueNode : Production allowed 1 stringValueNode
  | description : Production allowed 0 description
  | argument (const : Bool) : Production allowed 1 (argumentOf (value const))
  | value (const : Bool) : Production allowed 1 (value const)
  | arguments (const : Bool) : Production allowed 0 (arguments const)
  | directive (const : Bool) : Production allowed 1 (directive const)
  | directives (const : Bool) : Production allowed 0 (directives const)
  | typeRef : Production allowed 1 typeRef
  | field : Production allowed 1 (field selectionSet)
  | spread : Production allowed 1 (spread selectionSet)
  | selection : Production allowed 1 (selection selectionSet)
  | selectionSet : Production allowed 1 selectionSet
  | variableDefinition : Production allowed 1 variableDefinition
  | variableDefinitions : Production allowed 0 variableDefinitions
  | operationType : Production allowed 1 operationType
  | shorthandQuery : Production allowed 1 shorthandQuery
  | operation : Production allowed 1 operation
  | fragmentVariables : Production allowed 0 (fragmentVariables allowed)
  | fragment : Production allowed 1 (fragment allowed)
  | inputValueDefinition : Production allowed 1 inputValueDefinition
  | argumentDefinitions : Production allowed 0 argumentDefinitions
  | fieldDefinition : Production allowed 1 fieldDefinition
  | enumValueDefinition : Production allowed 1 enumValueDefinition
  | interfaces : Production allowed 0 interfaces
  | members : Production allowed 0 (namesAfter (.punctuator .equals) (.punctuator .pipe))
  | operationTypeDefinition : Production allowed 1 operationTypeDefinition
  | schemaOperations (extend : Bool) : Production allowed 0 (schemaOperations extend)
  | schema (about : Option StringValue) (extend : Bool) :
      Production allowed 1 (schema about extend)
  | typeBody (k : Keyword) : Production allowed 0 (typeBody k)
  | typeDefinition (about : Option StringValue) (extend : Bool) (k : Keyword) :
      Production allowed 1 (typeDefinition about extend k)
  | directiveLocation : Production allowed 1 directiveLocation
  | directiveDefinition (about : Option StringValue) :
      Production allowed 1 (directiveDefinition about)
  | extended : Production allowed 1 extended
  | extension : Production allowed 1 extension
  | keywordDefinition (about : Option StringValue) (k : Keyword) :
      Production allowed 1 (keywordDefinition allowed about k)
  | definition : Production allowed 1 (definition allowed)
  | definitions : Production allowed 0 (definitions allowed)
  | many {opening close : TokenKind} {α : Type} {item : Parser α} :
      opening ≠ .endOfInput → close ≠ .endOfInput → Production allowed 1 item →
        Production allowed 1 (many opening close item)
  | optionalMany {opening close : TokenKind} {α : Type} {item : Parser α} :
      opening ≠ .endOfInput → close ≠ .endOfInput → Production allowed 1 item →
        Production allowed 0 (optionalMany opening close item)
  | upTo {close : TokenKind} {α : Type} {item : Parser α} :
      close ≠ .endOfInput → Production allowed 1 item → Production allowed 0 (upTo close item)
  | whileSees {kind : TokenKind} {α : Type} {item : Parser α} :
      Production allowed 1 item → Production allowed 0 (whileSees kind item)
  | behind {separator : TokenKind} {α : Type} {item : Parser α} :
      separator ≠ .endOfInput → Production allowed 1 item →
        Production allowed 1 (expect separator >>= fun _ => item)
  | separatedBy {separator : TokenKind} {α : Type} {item : Parser α} :
      separator ≠ .endOfInput → Production allowed 1 item →
        Production allowed 1 (separatedBy separator item)

namespace Production

variable {allowed : Bool} {k : Nat} {p : Parser α}

theorem reads (h : Production allowed k p) : Reads k p := by
  induction h with
  | name => exact reads_name
  | stringValueNode => exact reads_stringValueNode
  | description => exact reads_description
  | argument const => exact reads_argumentOf (reads_value const).zero
  | value const => exact reads_value const
  | arguments const => exact reads_arguments const
  | directive const => exact reads_directive const
  | directives const => exact reads_directives const
  | typeRef => exact reads_typeRef
  | field => exact reads_field reads_selectionSet.zero
  | spread => exact reads_spread reads_selectionSet.zero
  | selection => exact reads_selection reads_selectionSet.zero
  | selectionSet => exact reads_selectionSet
  | variableDefinition => exact reads_variableDefinition
  | variableDefinitions => exact reads_variableDefinitions
  | operationType => exact reads_operationType
  | shorthandQuery => exact reads_shorthandQuery
  | operation => exact reads_operation
  | fragmentVariables => exact reads_fragmentVariables allowed
  | fragment => exact reads_fragment allowed
  | inputValueDefinition => exact reads_inputValueDefinition
  | argumentDefinitions => exact reads_argumentDefinitions
  | fieldDefinition => exact reads_fieldDefinition
  | enumValueDefinition => exact reads_enumValueDefinition
  | interfaces => exact reads_interfaces
  | members => exact reads_namesAfter (by decide)
  | operationTypeDefinition => exact reads_operationTypeDefinition
  | schemaOperations extend => exact reads_schemaOperations extend
  | schema about extend => exact reads_schema about extend
  | typeBody k => exact reads_typeBody k
  | typeDefinition about extend k => exact reads_typeDefinition about extend k
  | directiveLocation => exact reads_directiveLocation
  | directiveDefinition about => exact reads_directiveDefinition about
  | extended => exact reads_extended
  | extension => exact reads_extension
  | keywordDefinition about k => exact reads_keywordDefinition allowed about k
  | definition => exact reads_definition allowed
  | definitions => exact reads_definitions allowed
  | many ho hc _ ih => exact reads_many ho ih
  | optionalMany ho hc _ ih => exact reads_optionalMany ho ih
  | upTo hc _ ih => exact reads_upTo ih
  | whileSees _ ih => exact reads_whileSees ih
  | behind hs _ ih => exact (reads_expect hs).bind_left fun _ => ih.zero
  | separatedBy hs _ ih => exact reads_separatedBy hs ih

theorem keepsEnd (h : Production allowed k p) : KeepsEnd p := by
  induction h with
  | name => exact keepsEnd_name
  | stringValueNode => exact keepsEnd_stringValueNode
  | description => exact keepsEnd_description
  | argument const => exact keepsEnd_argumentOf (keepsEnd_value const)
  | value const => exact keepsEnd_value const
  | arguments const => exact keepsEnd_arguments const
  | directive const => exact keepsEnd_directive const
  | directives const => exact keepsEnd_directives const
  | typeRef => exact keepsEnd_typeRef
  | field => exact keepsEnd_field keepsEnd_selectionSet
  | spread => exact keepsEnd_spread keepsEnd_selectionSet
  | selection => exact keepsEnd_selection keepsEnd_selectionSet
  | selectionSet => exact keepsEnd_selectionSet
  | variableDefinition => exact keepsEnd_variableDefinition
  | variableDefinitions => exact keepsEnd_variableDefinitions
  | operationType => exact keepsEnd_operationType
  | shorthandQuery => exact keepsEnd_shorthandQuery
  | operation => exact keepsEnd_operation
  | fragmentVariables => exact keepsEnd_fragmentVariables allowed
  | fragment => exact keepsEnd_fragment allowed
  | inputValueDefinition => exact keepsEnd_inputValueDefinition
  | argumentDefinitions => exact keepsEnd_argumentDefinitions
  | fieldDefinition => exact keepsEnd_fieldDefinition
  | enumValueDefinition => exact keepsEnd_enumValueDefinition
  | interfaces => exact keepsEnd_interfaces
  | members => exact keepsEnd_namesAfter (by decide) (by decide)
  | operationTypeDefinition => exact keepsEnd_operationTypeDefinition
  | schemaOperations extend => exact keepsEnd_schemaOperations extend
  | schema about extend => exact keepsEnd_schema about extend
  | typeBody k => exact keepsEnd_typeBody k
  | typeDefinition about extend k => exact keepsEnd_typeDefinition about extend k
  | directiveLocation => exact keepsEnd_directiveLocation
  | directiveDefinition about => exact keepsEnd_directiveDefinition about
  | extended => exact keepsEnd_extended
  | extension => exact keepsEnd_extension
  | keywordDefinition about k => exact keepsEnd_keywordDefinition allowed about k
  | definition => exact keepsEnd_definition allowed
  | definitions => exact keepsEnd_definitions allowed
  | many ho hc h ih => exact ih.many ho hc h.reads
  | optionalMany ho hc h ih => exact ih.optionalMany ho hc h.reads
  | upTo hc h ih => exact ih.upTo hc h.reads
  | whileSees h ih => exact ih.whileSees h.reads
  | behind hs _ ih => exact (keepsEnd_expect hs).bind fun _ => ih
  | separatedBy hs h ih => exact ih.separatedBy hs h.reads

end Production

/-- A description that is there is one lexeme at least. -/
theorem passes_description {c d : Cursor} {about : StringValue}
    (h : description c = .ok (some about, d)) : Passes 1 c d := by
  obtain ⟨b, c', hb, h⟩ := bind_eq_ok.1 h
  have hseen := keepsEnd_seesString.answered hb
  cases b with
  | false => cases h
  | true =>
      obtain ⟨v, d', hv, h⟩ := bind_eq_ok.1 h
      obtain ⟨-, rfl⟩ := Prod.mk.inj (pure_eq_ok.1 h)
      exact hseen.trans ((keepsEnd_stringValueNode.progresses reads_stringValueNode).passes hv)

/-! ### Recursion -/

/-- The parsers that call themselves, as their bodies: the rest of a list, and productions that
are nested in themselves. -/
inductive Recursion (allowed : Bool) : {α : Type} → (Parser α → Parser α) → Prop
  | upTo {close : TokenKind} {α : Type} {item : Parser α} :
      Production allowed 1 item → Recursion allowed (upToBody close item)
  | whileSees {kind : TokenKind} {α : Type} {item : Parser α} :
      Production allowed 1 item → Recursion allowed (whileSeesBody kind item)
  | value (const : Bool) : Recursion allowed (valueBody const)
  | typeRef : Recursion allowed typeRefBody
  | selectionSet : Recursion allowed selectionSetBody
  | definitions : Recursion allowed (definitionsBody allowed)

theorem Recursion.guarded {allowed : Bool} {body : Parser α → Parser α}
    (h : Recursion allowed body) : ∃ k, Guarded k body := by
  cases h with
  | upTo hi => exact ⟨0, guarded_upTo hi.reads⟩
  | whileSees hi => exact ⟨0, guarded_whileSees hi.reads⟩
  | value const => exact ⟨1, guarded_value const⟩
  | typeRef => exact ⟨1, guarded_typeRef⟩
  | selectionSet => exact ⟨1, guarded_selectionSet⟩
  | definitions => exact ⟨0, guarded_definitions allowed⟩

/-- A parser calls itself only where fewer lexemes are left, so that it comes to an end: as many
nested calls as there are lexemes are enough, and none is made beyond them. -/
structure Descends (body : Parser α → Parser α) : Prop where
  step : ∀ (q : Parser α) (c : Cursor),
    (∀ d : Cursor, d.rest.length < c.rest.length → q d = fix body d) → body q c = fix body c
  run : ∀ (q : Parser α) (n : Nat) (c : Cursor), c.rest.length ≤ n →
    body^[n + 1] q c = fix body c

theorem Guarded.descends {k : Nat} {body : Parser α → Parser α} (h : Guarded k body) :
    Descends body := by
  have hstep : ∀ (q : Parser α) (c : Cursor),
      (∀ d : Cursor, d.rest.length < c.rest.length → q d = fix body d) →
        body q c = fix body c := by
    intro q c hq
    have hagree : body (fix body) c = body q c :=
      h.agree c.rest.length _ _ h.reads_fix (fun d hd => (hq d hd).symm) c (Nat.lt_succ_self _)
    rw [← hagree, ← h.fix_eq]
  refine ⟨hstep, fun q n => ?_⟩
  induction n with
  | zero =>
      intro c hc
      exact hstep _ c fun d hd => absurd hd (by omega)
  | succ n ih =>
      intro c hc
      rw [Function.iterate_succ_apply']
      exact hstep _ c fun d hd => ih d (by omega)

/-! ### Sources -/

/-- A lexer that is asked more often than there are tokens goes on with the end of the input. -/
theorem map_toLexeme_read (source : String) (n : Nat) :
    ((Reader.ofSource source).read ((tokenize source).length + n)).map Token.toLexeme =
      lexemes source ++ List.replicate (n + 1) .endOfInput := by
  rw [tokenize, Reader.read_tokens, ← tokenize, List.map_append, List.map_replicate,
    map_toLexeme_tokenize_append, List.append_assoc, List.replicate_succ]
  rfl

/-- Where definitions are read, and where the fault is met that ends them. -/
theorem definitions_passes (allowed : Bool) (c : Cursor) :
    ∃ r d, definitions allowed c = .ok (r, d) ∧ Passes 0 c d ∧
      ∀ e ∈ r.2, ∃ d', Passes 0 d d' ∧ e.position = d'.position := by
  obtain ⟨ds, d, -, ⟨-, -, h⟩ | ⟨err, herr, h⟩⟩ := definitions_cases allowed c
  · exact ⟨_, d, h, (keepsEnd_definitions allowed).answered h, by simp⟩
  · refine ⟨_, d, h, (keepsEnd_definitions allowed).answered h, fun e he => ?_⟩
    obtain rfl : err = e := Option.some.inj he
    exact (keepsEnd_definition allowed).refused herr

/-- What is read up to the end or the fault are lexemes of the list, and none of them is the end
of the input. -/
theorem read_passes (allowed : Bool) (ls : List Lexeme) :
    ∃ d, Passes 0 ⟨0, ls⟩ d ∧ (read allowed ls).consumed = d.position := by
  obtain ⟨⟨ds, e⟩, d, h, hpasses, hfault⟩ := definitions_passes allowed ⟨0, ls⟩
  cases e with
  | none => exact ⟨d, hpasses, by simp [read, h]⟩
  | some e =>
      obtain ⟨d', hd', hposition⟩ := hfault e rfl
      exact ⟨d', hpasses.trans hd', by simp [read, h, hposition]⟩

theorem read_append_endOfInput (allowed : Bool) (ls : List Lexeme) (n : Nat) :
    read allowed (ls ++ List.replicate n .endOfInput) = read allowed ls := by
  have h : definitions allowed ⟨0, ls ++ List.replicate n .endOfInput⟩ = _ :=
    (keepsEnd_definitions allowed).ended n ⟨0, ls⟩
  rw [read, h, read]
  rcases definitions allowed ⟨0, ls⟩ with e | ⟨⟨ds, _ | e⟩, d⟩
  · rfl
  · rfl
  · rfl

/-- Reading comes to an end. Each parser of the grammar leaves the end of the input, and reads as
many lexemes as it must for what is built from it; each that calls itself does so only where
fewer lexemes are left. So a source is read within its own lexemes, and it makes no difference
how often its lexer would go on with the end of the input. -/
theorem productions_progress (allowed : Bool) :
    (∀ (k : Nat) (α : Type) (p : Parser α), Production allowed k p → Progresses k p) ∧
      (∀ c d about, description c = .ok (some about, d) → Passes 1 c d) ∧
      (∀ (α : Type) (body : Parser α → Parser α), Recursion allowed body → Descends body) ∧
      ∀ source : String,
        let own := (tokenize source).dropLast.map Token.toLexeme
        (∃ d, Passes 0 ⟨0, own⟩ d ∧ (read allowed own).consumed = d.position) ∧
          ∀ n, read allowed (((Reader.ofSource source).read
            ((tokenize source).length + n)).map Token.toLexeme) = read allowed own := by
  refine ⟨fun k α p h => h.keepsEnd.progresses h.reads, fun c d about => passes_description,
    fun α body h => ?_, fun source => ⟨read_passes allowed _, fun n => ?_⟩⟩
  · obtain ⟨k, hg⟩ := h.guarded
    exact hg.descends
  · rw [map_toLexeme_read, read_append_endOfInput, map_toLexeme_tokenize]

end GraphQL.Grammar
