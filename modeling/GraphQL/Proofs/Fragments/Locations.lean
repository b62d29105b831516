import GraphQL.Proofs.Fragments.Enrollment
import GraphQL.Proofs.Fragments.Texts
import GraphQL.Proofs.Grammar.Layout

/-!
Where the nodes of a document are in its source. Their spans start and stop with tokens and
are laid out as the nodes are in the document, also if reading stopped at a fault. So each
of them has a text, and fragments can always be registered.
-/

namespace GraphQL

open Grammar Lexer SpanTree

/-- A span from the start of a token to the end of one, with the text under it, which for a
name is its value. -/
structure Covers (source : String) (name : Option String) (span : Span) : Prop where
  starts : ∃ t ∈ (tokenize source).dropLast, span.start = t.span.start
  stops : ∃ t ∈ (tokenize source).dropLast, span.stop = t.span.stop
  text : ∃ text, span.slice? source = some text ∧ ∀ w ∈ name, text = w

/-- The tokens in front of the end of the source or of a fault. -/
def readTokens (options : ParseOptions) (source : String) : List Token :=
  (tokenize source).dropLast.take
    (Grammar.read options.legacyFragmentVariables (lexemes source)).consumed

/-! ### Spans of lexemes -/

section
variable {source : String}

theorem orderly_places (source : String) :
    Orderly (startOf (tokenize source).toArray) (endOf (tokenize source).toArray)
      (lexemes source).length where
  start_lt := startOf_lt_endOf
  stop_le := endOf_le_startOf

theorem getElem?_tokenize {i : Nat} (h : i < (lexemes source).length) :
    ∃ t ∈ (tokenize source).dropLast, (tokenize source).dropLast[i]? = some t ∧
      (tokenize source).toArray[i]? = some t := by
  rw [length_lexemes] at h
  refine ⟨_, List.getElem_mem h, List.getElem?_eq_getElem h, ?_⟩
  rw [List.getElem?_toArray, List.getElem_dropLast, List.getElem?_eq_getElem]

/-- A number of lexemes end where the last of their tokens does. -/
theorem endOf_eq {k : Nat} (h : k ≤ (lexemes source).length) :
    endOf (tokenize source).toArray k =
      ((tokenize source).dropLast.take k).getLast?.elim 0 (·.span.stop) := by
  cases k with
  | zero => rfl
  | succ k =>
      obtain ⟨t, -, ht, hplaced⟩ := getElem?_tokenize h
      rw [endOf, hplaced, List.take_add_one, ht, List.getLast?_append]
      rfl

/-- Places of lexemes are covered by their tokens. -/
theorem covers_placeSpan {name : Option String} {span : Span} (hlt : span.start < span.stop)
    (hle : span.stop ≤ (lexemes source).length) (h : IsNamed (lexemes source) name span) :
    Covers source name (placeSpan (tokenize source).toArray span) := by
  obtain ⟨start, stop⟩ := span
  obtain ⟨front, part, back, gap, hpieces, rfl, rfl, -⟩ :=
    pieces_between (Nat.le_of_lt hlt) hle
  have hne : part ≠ [] := by
    rintro rfl
    exact Nat.lt_irrefl _ hlt
  refine ⟨?_, ?_, _, congrArg (Option.map _) (slice_placeSpan hpieces hne), ?_⟩
  · obtain ⟨t, ht, -, hplaced⟩ := getElem?_tokenize (Nat.lt_of_lt_of_le hlt hle)
    refine ⟨t, ht, ?_⟩
    rw [placeSpan, startOf, hplaced]
  · obtain ⟨k, hk⟩ := Nat.exists_eq_succ_of_ne_zero (Nat.ne_zero_of_lt hlt)
    obtain ⟨t, ht, -, hplaced⟩ := getElem?_tokenize (Nat.lt_of_succ_le (hk ▸ hle))
    refine ⟨t, ht, ?_⟩
    show endOf _ _ = _
    rw [hk, endOf, hplaced]
  · -- The text of a name is that of its only lexeme.
    intro w hw
    obtain ⟨hstop, l, hl, rfl⟩ := h w hw
    obtain ⟨p, rfl⟩ := List.length_eq_one_iff.1 (Nat.add_left_cancel hstop)
    have hlexemes : lexemes source = (front ++ [p] ++ back).map Piece.lexeme :=
      lexemes_of_split (by rw [hpieces, ← List.append_assoc])
    rw [hlexemes, List.getElem?_map, List.append_assoc, List.getElem?_append_right
      (Nat.le_refl _), Nat.sub_self] at hl
    cases hl
    exact congrArg String.ofList (List.append_nil p.text)

end

/-! ### Documents -/

section
variable (options : ParseOptions) (source : String)

theorem location_parse : (parse options source).document.location =
    some ⟨some ⟨0, (readTokens options source).getLast?.elim 0 (·.span.stop)⟩, source⟩ := by
  rw [readTokens, ← endOf_eq (laid_read _ _).2, ← map_toLexeme_tokenize]
  rfl

/-- The definitions of a document are laid out in what was read. -/
theorem laid_parse :
    Laid (Covers source) 0 ((readTokens options source).getLast?.elim 0 (·.span.stop))
      ((parse options source).document.definitions.map Definition.tree) := by
  obtain ⟨hlaid, hle⟩ := laid_read options.legacyFragmentVariables (lexemes source)
  have htrees : (parse options source).document.definitions.map Definition.tree =
      ((Grammar.read options.legacyFragmentVariables (lexemes source)).definitions.map
        Definition.tree).map (·.mapSpans (Option.map (placeSpan (tokenize source).toArray))) := by
    simp [definitions_parse, Function.comp_def]
  rw [readTokens, ← endOf_eq hle, htrees]
  exact hlaid.place (orderly_places source) (fun _ _ => covers_placeSpan) hle (Nat.zero_le _)
    fun _ _ _ => Nat.zero_le _

end

/-- Every fragment of a document has a fingerprint. -/
theorem fingerprint?_of_parse {options : ParseOptions} {source : String} {f : FragmentDefinition}
    (hf : .fragment f ∈ (parse options source).document.definitions) :
    ∃ p, f.fingerprint? source = some p := by
  have hmem : f.span ∈
      ((parse options source).document.definitions.map Definition.tree).flatMap postorder := by
    rw [flatMap_postorder_map]
    refine List.mem_flatMap.2 ⟨_, hf, ?_⟩
    rw [Definition.postorder_tree]
    exact List.mem_append_right _ (List.mem_singleton_self _)
  obtain ⟨_, span, hspan, -, -, -, hcovers⟩ := (laid_parse options source).of_mem_postorder hmem
  obtain ⟨text, htext, -⟩ := hcovers.text
  rw [f.fingerprint?_eq, FragmentDefinition.text?, hspan, Option.bind_some, htext]
  exact ⟨_, rfl⟩

/-- Registering a document that was read always succeeds. -/
theorem registerFragments_of_parse (options : ParseOptions) (source : String)
    (r : FragmentRegistry) :
    registerFragments r source (parse options source).document =
      .ok (enroll r [] ((parse options source).document.definitions.map
        fun d => ⟨d, d.fingerprint? source⟩)) := by
  rw [registerFragments, candidates_eq fun f => fingerprint?_of_parse]
  rfl

/-- The spans of a document lie in its source as its nodes lie in each other. They are listed
in the order of the trees that the definitions make, the span of the document last. -/
theorem parse_laid (options : ParseOptions) (source : String) :
    let document := (parse options source).document
    let trees := document.definitions.map Definition.tree
    let stop := (readTokens options source).getLast?.elim 0 (·.span.stop)
    ((parse options source).diagnostics = ⟨[]⟩ →
      readTokens options source = (tokenize source).dropLast) ∧
    document.location = some ⟨some ⟨0, stop⟩, source⟩ ∧
    Laid (Covers source) 0 stop trees ∧
    document.spans = trees.flatMap postorder ++ [some ⟨0, stop⟩] ∧
    document.spans.Pairwise StopsBy ∧
    (∀ f, (document.mapSpans f).definitions.map Definition.tree = trees.map (·.mapSpans f) ∧
      (document.mapSpans f).location = some ⟨f (some ⟨0, stop⟩), source⟩) ∧
    ∀ r, ∃ e, registerFragments r source document = .ok e := by
  intro document trees stop
  have hlocation : document.location = some ⟨some ⟨0, stop⟩, source⟩ :=
    location_parse options source
  have hlaid : Laid (Covers source) 0 stop trees := laid_parse options source
  have hspans : document.spans = trees.flatMap postorder ++ [some ⟨0, stop⟩] := by
    rw [Document.spans, hlocation]
    simp [trees, optionalSpans]
  refine ⟨fun h => ?_, hlocation, hlaid, hspans, ?_, fun f => ?_, fun r => ?_⟩
  · have hread := (diagnostics_parse_eq_nil_iff options source).1 h
    rw [readTokens, consumed_read (fun _ => coherent_of_mem) hread, length_lexemes,
      List.take_length]
  · -- Nothing stops behind the last token that was read.
    rw [hspans]
    refine List.pairwise_append.2 ⟨hlaid.pairwise_postorder, List.pairwise_singleton _ _, ?_⟩
    rintro s hs t ht x hx y hy
    obtain ⟨_, span, rfl, -, -, hstop, -⟩ := hlaid.of_mem_postorder hs
    rw [List.mem_singleton.1 ht] at hy
    cases hx
    cases hy
    exact hstop
  · rw [Document.mapSpans, hlocation]
    exact ⟨by simp [trees], rfl⟩
  · exact ⟨_, registerFragments_of_parse options source r⟩

/-- The comment is no part of the document. -/
theorem parse_laid_example :
    let source := "fragment F on T \x7b a \x7d # b"
    (parse {} source).diagnostics = ⟨[]⟩ ∧
      readTokens {} source = (tokenize source).dropLast ∧
      (parse {} source).document.location = some ⟨some ⟨0, 21⟩, source⟩ := by
  intro source
  have h : (parse {} source).diagnostics = ⟨[]⟩ := by decide +kernel
  obtain ⟨hread, hlocation, -⟩ := parse_laid {} source
  refine ⟨h, hread h, hlocation.trans ?_⟩
  have hstop : (readTokens {} source).getLast?.elim 0 (·.span.stop) = 21 := by decide +kernel
  rw [hstop]

end GraphQL
