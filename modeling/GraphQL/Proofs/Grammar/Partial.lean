import GraphQL.Proofs.Document.Stripping
import GraphQL.Proofs.Fragments.Locations
import GraphQL.Proofs.Grammar.Cuttings
import GraphQL.Proofs.Grammar.Earliest
import GraphQL.Proofs.Lexer.Tiling

/-!
What is left of a source that is not read to its end. There is one diagnostic, about the
token at which reading stopped or about the string in front of it, and the definitions are
those of the source up to the end of the last of them, where nothing is wrong.
-/

namespace GraphQL

open Grammar Lexer

section
variable (options : ParseOptions) (source : String)

/-- The definitions of a document are those of the text up to the end of the last one. -/
theorem definitions_front {last : Definition}
    (h : (parse options source).document.definitions.getLast? = some last) :
    ∃ span front, last.span = some span ∧ Span.slice? ⟨0, span.stop⟩ source = some front ∧
      (parse options front).diagnostics = ⟨[]⟩ ∧
      (parse options front).document.definitions = (parse options source).document.definitions := by
  obtain ⟨ds, e, hruns, hds⟩ := runs_of_parse options source
  rw [hds] at h ⊢
  rw [List.getLast?_map, Option.map_eq_some_iff] at h
  obtain ⟨x, hx, rfl⟩ := h
  obtain ⟨xs, rfl⟩ := List.getLast?_eq_some_iff.1 hx
  obtain ⟨c, -, hlast⟩ := hruns.of_append
  have hcoherent : ∀ l ∈ lexemes source, l.Coherent := fun _ => coherent_of_mem
  obtain ⟨front, hfront, hposition, hproper⟩ := hruns.chunk hcoherent
  obtain ⟨text, htext, hcut⟩ := exists_cutting_front hfront hproper
  rw [show lexemes source = front ++ e.rest from hfront] at hruns
  obtain ⟨hdiagnostics, hdefinitions⟩ := hcut.parse_eq hruns rfl (by simp)
  refine ⟨placeSpan (tokenize source).toArray ⟨c.position, e.position⟩, text, ?_, ?_,
    hdiagnostics, ?_⟩
  · rw [Definition.span_mapSpans, hlast.single.1]
    rfl
  · rw [placeSpan, hposition, Nat.zero_add]
    exact htext
  · -- At the start of the source nothing has to be moved.
    have hid : Option.map (fun s : Span => s.shift 0) = id := by
      funext s
      cases s <;> rfl
    rw [hid] at hdefinitions
    simpa using hdefinitions

/-! ### The diagnostic -/

theorem prefix_readTokens : readTokens options source <+: (tokenize source).dropLast :=
  List.take_prefix _ _

variable {options source} {e : SyntaxError}
  (he : (Grammar.read options.legacyFragmentVariables (lexemes source)).error? = some e)
include he

theorem consumed_of_error :
    (Grammar.read options.legacyFragmentVariables (lexemes source)).consumed = e.position := by
  obtain ⟨ds, d, -, -, hread⟩ := read_of_error he
  rw [hread]

/-- A diagnostic is about the first token that was not read, or about the last that was. -/
theorem culprit_of_error :
    ∃ t, ((tokenize source)[(readTokens options source).length]? = some t ∨
        (readTokens options source).getLast? = some t) ∧
      (tokenize source)[e.culprit]? = some t := by
  have hle := (laid_read options.legacyFragmentVariables (lexemes source)).2
  rw [consumed_of_error he] at hle
  have hread : readTokens options source = (tokenize source).dropLast.take e.position := by
    rw [readTokens, consumed_of_error he]
  by_cases hstray : e.fault = .strayDescription
  · obtain ⟨-, -, -, hposition⟩ := stray_token he hstray
    rw [hposition] at hle hread
    obtain ⟨t, -, ht, hplaced⟩ := getElem?_tokenize hle
    refine ⟨t, .inr ?_, ?_⟩
    · rw [hread, List.take_add_one, ht, List.getLast?_append]
      rfl
    · rwa [← List.getElem?_toArray]
  · have hlength : (readTokens options source).length = e.position := by
      rw [hread, List.length_take, ← length_lexemes, Nat.min_eq_left hle]
    have hlt : e.position < (tokenize source).length := by
      have htokens := congrArg List.length (map_toLexeme_tokenize_append source)
      rw [List.length_map, List.length_append, List.length_singleton] at htokens
      omega
    rw [culprit_of_ne hstray, hlength]
    exact ⟨_, .inl (List.getElem?_eq_getElem hlt), List.getElem?_eq_getElem hlt⟩

end

/-- The shape of a result. It has at most one diagnostic, and the document has the source and the
span of what was read. With no diagnostic everything was read, and not nothing. A diagnostic is
an error with a single label, on a text of the source: the first token that was not read or the
last one that was. Whatever definitions there are in front of it are those of the source up to
the end of the last of them, which is read without a diagnostic. -/
theorem parse_shape (options : ParseOptions) (source : String) :
    let result := parse options source
    let read := readTokens options source
    read <+: (tokenize source).dropLast ∧
    result.document.location =
      some ⟨some ⟨0, read.getLast?.elim 0 (·.span.stop)⟩, source⟩ ∧
    (∀ last ∈ result.document.definitions.getLast?, ∃ span front, last.span = some span ∧
      Span.slice? ⟨0, span.stop⟩ source = some front ∧
      (parse options front).diagnostics = ⟨[]⟩ ∧
      (parse options front).document.definitions = result.document.definitions) ∧
    (result.diagnostics = ⟨[]⟩ ∧ result.document.definitions ≠ [] ∧
        read = (tokenize source).dropLast ∨
      ∃ d label t, result.diagnostics = ⟨[d]⟩ ∧ d.severity = .error ∧ d.labels = [label] ∧
        ((tokenize source)[read.length]? = some t ∨ read.getLast? = some t) ∧
        label.span = t.span ∧ label.span.slice? source = some t.text) := by
  intro result read
  refine ⟨prefix_readTokens options source, location_parse options source,
    fun last hlast => definitions_front options source hlast, ?_⟩
  cases he : (Grammar.read options.legacyFragmentVariables (lexemes source)).error? with
  | none =>
      have hdiagnostics := (diagnostics_parse_eq_nil_iff options source).2 he
      refine .inl ⟨hdiagnostics, ?_, ?_⟩
      · rw [definitions_parse]
        exact fun hnil => (placed_of_parse hdiagnostics).1 (List.map_eq_nil_iff.1 hnil)
      · show readTokens options source = _
        rw [readTokens, consumed_read (fun _ => coherent_of_mem) he, length_lexemes,
          List.take_length]
  | some e =>
      obtain ⟨t, hread, ht⟩ := culprit_of_error he
      have hspan : placeSpan (tokenize source).toArray ⟨e.culprit, e.culprit + 1⟩ = t.span :=
        placeSpan_token (by rw [List.getElem?_toArray, ht])
      have hslice := (tiles_tokenize source).slices t (List.mem_of_getElem? ht)
      refine .inr ⟨e.diagnostic (tokenize source).toArray, _, t, ?_, rfl, rfl, hread, hspan, ?_⟩
      · rw [diagnostics_parse, he]
        rfl
      · rw [hspan, Span.slice?, hslice]
        exact congrArg some String.ofList_toList

end GraphQL
