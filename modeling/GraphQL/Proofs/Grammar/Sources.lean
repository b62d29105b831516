import GraphQL.Parse
import GraphQL.Proofs.Grammar.Completeness
import GraphQL.Proofs.Grammar.Placement

/-!
Parsing and spelling are inverse to each other. A source that is read without a
diagnostic spells the definitions of its document; a source that spells valid
definitions is read as those definitions.
-/

namespace GraphQL

open Grammar

/-- The document of a source holds what was read of its lexemes, placed. -/
theorem definitions_parse (options : ParseOptions) (source : String) :
    (parse options source).document.definitions =
      (Grammar.read options.legacyFragmentVariables (lexemes source)).definitions.map
        (·.mapSpans (Option.map (placeSpan (tokenize source).toArray))) := by
  rw [← map_toLexeme_tokenize]
  rfl

theorem diagnostics_parse (options : ParseOptions) (source : String) :
    (parse options source).diagnostics =
      ⟨((Grammar.read options.legacyFragmentVariables (lexemes source)).error?.map
        (·.diagnostic (tokenize source).toArray)).toList⟩ := by
  rw [← map_toLexeme_tokenize]
  rfl

/-- There is a diagnostic if and only if there is a fault in the lexemes. -/
theorem diagnostics_parse_eq_nil_iff (options : ParseOptions) (source : String) :
    (parse options source).diagnostics = ⟨[]⟩ ↔
      (Grammar.read options.legacyFragmentVariables (lexemes source)).error? = none := by
  rw [diagnostics_parse]
  simp

/-- What was read without a diagnostic was read from all the lexemes. -/
theorem placed_of_parse {options : ParseOptions} {source : String}
    (h : (parse options source).diagnostics = ⟨[]⟩) :
    let r := Grammar.read options.legacyFragmentVariables (lexemes source)
    r.definitions ≠ [] ∧
      Placed options.legacyFragmentVariables 0 r.definitions (lexemes source) :=
  placed_read _ (fun _ => coherent_of_mem) ((diagnostics_parse_eq_nil_iff options source).1 h)

/-- A source that is read without a diagnostic spells the definitions of its
document in order, and all of them are valid. -/
theorem spells_of_parse (options : ParseOptions) (source : String)
    (h : (parse options source).diagnostics = ⟨[]⟩) :
    let ds := (parse options source).document.definitions
    ds ≠ [] ∧ Spells (ds.flatMap Definition.slots) (lexemes source) ∧
      ∀ d ∈ ds, d.Valid options.legacyFragmentVariables := by
  obtain ⟨hne, hplaced⟩ := placed_of_parse h
  obtain ⟨hspells, hvalid⟩ := hplaced.spells
  simp only [definitions_parse]
  refine ⟨by simpa using hne, ?_, forall_mem_map hvalid fun _ => Definition.Valid.mapSpans _⟩
  rw [flatMap_map_slots _ (Definition.slots_mapSpans _)]
  exact hspells

/-- Here keywords serve as names, and an extension without a block ends the source. -/
theorem spells_of_parse_example :
    let source := "fragment type on on \x7b on: query(a: [\"b\", C]) @d \x7d extend schema @g"
    (parse {} source).diagnostics = ⟨[]⟩ ∧
      Spells ((parse {} source).document.definitions.flatMap Definition.slots)
        (lexemes source) := by
  intro source
  have h : (parse {} source).diagnostics = ⟨[]⟩ := by decide +kernel
  exact ⟨h, (spells_of_parse {} source h).2.1⟩

/-- A source that spells valid definitions is read without a diagnostic, as those
definitions. That names and numbers have the right form need not be asked: they
are lexemes of a source. -/
theorem parse_of_spells (options : ParseOptions) (source : String) (ds : List Definition)
    (hne : ds ≠ []) (hv : ∀ d ∈ ds, d.Valid options.legacyFragmentVariables)
    (h : SpellsDocument ds (lexemes source)) :
    (parse options source).diagnostics = ⟨[]⟩ ∧
      (parse options source).document.definitions.map Definition.strip =
        ds.map Definition.strip := by
  obtain ⟨ds', c, hread, hstrip⟩ := complete_definitions h hne hv 0
  rw [diagnostics_parse, definitions_parse]
  unfold Grammar.read
  rw [hread]
  refine ⟨rfl, ?_⟩
  rw [List.map_map, ← hstrip]
  exact List.map_congr_left fun d _ => d.strip_mapSpans _

/-- A type without a block may stand in front of a query that has its keyword. -/
theorem parse_of_spells_example :
    let type : Definition := .type ⟨none, false, ⟨"A", none⟩, [], .object [] [], none⟩
    let query : Definition := .operation ⟨.query, none, [], [],
      ⟨[.field ⟨none, ⟨"type", none⟩, [], [], none, none⟩], none⟩, none⟩
    SpellsDocument [type, query] (lexemes "type A query \x7b type \x7d") ∧
      (parse {} "type A query \x7b type \x7d").diagnostics = ⟨[]⟩ ∧
      (parse {} "type A query \x7b type \x7d").document.definitions.map Definition.strip =
        [type, query].map Definition.strip := by
  intro type query
  have hlexemes : lexemes "type A query \x7b type \x7d" =
      [.keyword .type, .word "A"] ++ ([.keyword .query, .punctuator .braceOpen, .word "type",
        .punctuator .braceClose] ++ []) := by decide +kernel
  have htype : Spells type.slots [.keyword .type, .word "A"] :=
    .lexeme _ (.lexeme _ .nil)
  have hquery : Spells query.slots [.keyword .query, .punctuator .braceOpen, .word "type",
      .punctuator .braceClose] :=
    .present _ (.lexeme _ (.lexeme _ (.lexeme _ .nil)))
  have hspells : SpellsDocument [type, query] (lexemes "type A query \x7b type \x7d") := by
    rw [hlexemes]
    exact .cons htype (fun _ => by decide) (.cons hquery nofun .nil)
  refine ⟨hspells, parse_of_spells {} _ [type, query] (List.cons_ne_nil _ _) ?_ hspells⟩
  refine List.forall_mem_cons.2 ⟨?_, List.forall_mem_cons.2 ⟨?_, List.forall_mem_nil _⟩⟩
  · exact ⟨List.forall_mem_nil _, List.forall_mem_nil _, nofun⟩
  · refine ⟨List.forall_mem_nil _, List.forall_mem_nil _, .mk _ _ (List.cons_ne_nil _ _) ?_ ?_⟩
    · exact List.forall_mem_cons.2 ⟨⟨List.forall_mem_nil _, List.forall_mem_nil _⟩,
        List.forall_mem_nil _⟩
    · exact List.forall_mem_cons.2 ⟨nofun, List.forall_mem_nil _⟩

end GraphQL
