import GraphQL.Proofs.Grammar.Sources
import GraphQL.Proofs.Lexer.Slices

/-!
Sources that differ in nothing but what lies between their tokens. Reading looks at
the tokens without their places, so it takes the same steps in both, and what it
finds differs in places alone: in the spans of the definitions before the fault, and
in the span of the label on the fault.
-/

namespace GraphQL

/-- The diagnostics say the same, perhaps about different places. -/
structure Diagnostic.SaysSame (d e : Diagnostic) : Prop where
  severity : d.severity = e.severity
  code : d.code = e.code
  title : d.title = e.title
  messages : d.labels.map Label.message = e.labels.map Label.message

/-- What is said about a fault does not depend on where the lexemes are. -/
theorem SyntaxError.diagnostic_saysSame (e : SyntaxError) (tokens tokens' : Array Token) :
    (e.diagnostic tokens).SaysSame (e.diagnostic tokens') :=
  ⟨rfl, rfl, rfl, rfl⟩

theorem lexemes_eq_of_tokenize {s t : String}
    (h : (tokenize s).map Token.toLexeme = (tokenize t).map Token.toLexeme) :
    lexemes s = lexemes t := by
  rw [map_toLexeme_tokenize_append, map_toLexeme_tokenize_append] at h
  exact List.append_cancel_right h

section
variable {s t : String} (h : lexemes s = lexemes t) (options : ParseOptions)
include h

/-- The definitions are the same but for their spans. -/
theorem map_strip_parse_eq :
    (parse options s).document.definitions.map Definition.strip =
      (parse options t).document.definitions.map Definition.strip := by
  rw [definitions_parse, definitions_parse, h, List.map_map, List.map_map]
  exact List.map_congr_left fun d _ => (d.strip_mapSpans _).trans (d.strip_mapSpans _).symm

/-- No source has a fault, or both have the same. -/
theorem diagnostics_parse_saysSame :
    (parse options s).diagnostics = ⟨[]⟩ ∧ (parse options t).diagnostics = ⟨[]⟩ ∨
      ∃ d e, (parse options s).diagnostics = ⟨[d]⟩ ∧ (parse options t).diagnostics = ⟨[e]⟩ ∧
        d.isError = true ∧ d.SaysSame e := by
  rw [diagnostics_parse, diagnostics_parse, h]
  cases (Grammar.read options.legacyFragmentVariables (lexemes t)).error? with
  | none => exact .inl ⟨rfl, rfl⟩
  | some e => exact .inr ⟨_, _, rfl, rfl, rfl, e.diagnostic_saysSame _ _⟩

end

/-- Sources with the same tokens are both read, as the same definitions but for spans,
or both are refused in the same words, with the same definitions before the fault. -/
theorem parse_eq_of_tokenize_eq (options : ParseOptions) (s t : String)
    (h : (tokenize s).map Token.toLexeme = (tokenize t).map Token.toLexeme) :
    (parse options s).document.definitions.map Definition.strip =
        (parse options t).document.definitions.map Definition.strip ∧
      ((parse options s).diagnostics = ⟨[]⟩ ∧ (parse options t).diagnostics = ⟨[]⟩ ∨
        ∃ d e, (parse options s).diagnostics = ⟨[d]⟩ ∧ (parse options t).diagnostics = ⟨[e]⟩ ∧
          d.isError = true ∧ d.SaysSame e) :=
  ⟨map_strip_parse_eq (lexemes_eq_of_tokenize h) options,
    diagnostics_parse_saysSame (lexemes_eq_of_tokenize h) options⟩

/-- A query, and after it a brace too many. -/
theorem parse_eq_of_tokenize_eq_example :
    let s := "query Q($a: [Int!]) \x7b b(c: \"d\") @e \x7d # done\n\x7d"
    let t := "query,Q($a:[Int!])\x7b\n\tb(c:\"d\")@e\r\x7d\x7d"
    (tokenize s).map Token.toLexeme = (tokenize t).map Token.toLexeme ∧
      (parse {} s).document.definitions.length = 1 ∧
      (parse {} s).document.definitions.map Definition.strip =
        (parse {} t).document.definitions.map Definition.strip ∧
      ∃ d e, (parse {} s).diagnostics = ⟨[d]⟩ ∧ (parse {} t).diagnostics = ⟨[e]⟩ ∧
        d.isError = true ∧ d.SaysSame e := by
  intro s t
  have h : (tokenize s).map Token.toLexeme = (tokenize t).map Token.toLexeme := by
    decide +kernel
  obtain ⟨hdefinitions, hdiagnostics⟩ := parse_eq_of_tokenize_eq {} s t h
  have hfault : (parse {} s).diagnostics ≠ ⟨[]⟩ := by decide +kernel
  exact ⟨h, by decide +kernel, hdefinitions, hdiagnostics.resolve_left fun hnone => hfault hnone.1⟩

end GraphQL
