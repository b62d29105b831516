import GraphQL.Document.Equality
import GraphQL.Proofs.Fragments.Texts
import GraphQL.Proofs.Grammar.Concatenation
import GraphQL.Proofs.Lexer.Fronts

/-!
Definitions cut out of their source. The text under the span of a definition is the
definition on its own: it is read alike, at other places. A definition that something may
still be added to looks at the lexeme behind it, but only to find that nothing is added; and
neither a lexeme nor the gap in front of it looks further than the cut.
-/

namespace GraphQL

open Grammar Lexer Text

/-! ### Texts on their own -/

/-- On its own a text has some lexemes of a source, those behind a number of others. In the
source they are `offset` bytes further on. -/
structure Cutting (source : String) (front : Nat) (ls : List Lexeme) (offset : Nat)
    (text : String) : Prop where
  lexemes_eq : lexemes text = ls
  place_eq : ∀ start stop, start < stop → stop ≤ ls.length →
    placeSpan (tokenize source).toArray ⟨front + start, front + stop⟩ =
      (placeSpan (tokenize text).toArray ⟨start, stop⟩).shift offset

/-- A text that has the pieces of a source from a place on, but for a part of the gap in front
of them, has their tokens, each of them as far behind. -/
theorem Cutting.of_pieces {source text : String} {front ps : List Piece} (gap : List Char)
    (back : List Piece) (hsource : pieces source.toList = front ++ (lead gap ps ++ back))
    (htext : pieces text.toList = ps ++ [endPiece]) :
    Cutting source front.length (ps.map Piece.lexeme) (byteLength (textOf front ++ gap)) text where
  lexemes_eq := lexemes_of_split htext
  place_eq start stop hlt hle := by
    have hplaces : tokenize source = Reader.place 0 front ++
        (Reader.place 0 ps).map (·.shift (byteLength (textOf front ++ gap))) ++
        Reader.place (byteLength (textOf front) + byteLength (textOf (lead gap ps))) back := by
      rw [tokenize, Reader.tokens, Reader.ofSource, hsource, Reader.place_append,
        Reader.place_append, Reader.place_lead, ← Reader.place_add, byteLength_append]
      simp only [Nat.zero_add, List.append_assoc]
    have hplaces' : tokenize text = Reader.place 0 ps ++
        Reader.place (0 + byteLength (textOf ps)) [endPiece] := by
      rw [tokenize, Reader.tokens, Reader.ofSource, htext, Reader.place_append]
    have hlength : stop ≤ (Reader.place 0 ps).length := by
      rwa [Reader.length_place, ← List.length_map]
    rw [hplaces, hplaces', placeSpan_append_left hlt hlength, ← Reader.length_place 0 front]
    refine (placeSpan_append_left (Nat.add_lt_add_left hlt _) ?_).trans
      (placeSpan_append_right hlt hlength _)
    rw [List.length_append, List.length_map]
    exact Nat.add_le_add_left hlength _

section
variable {source : String} {front run back : List Piece}

/-- The text from the start of a lexeme to the end of another one. -/
theorem cutting_run (h : pieces source.toList = front ++ (run ++ back)) (hne : run ≠ [])
    (hrun : ∀ p ∈ run, p.kind ≠ .endOfInput) :
    Cutting source front.length (run.map Piece.lexeme)
      (startOf (tokenize source).toArray front.length) (String.ofList (textOf (unlead run))) := by
  obtain ⟨p, ps, rfl⟩ := List.exists_cons_of_ne_nil hne
  have hstart : startOf (tokenize source).toArray front.length =
      byteLength (textOf front ++ p.gap) := by
    rw [tokenize, Reader.tokens, Reader.ofSource, h]
    exact startOf_place front p (ps ++ back)
  rw [hstart, ← map_lexeme_unlead]
  refine .of_pieces p.gap back (h.trans ?_) ?_
  · rw [lead_unlead]
  · rw [String.toList_ofList]
    exact pieces_run h hrun

/-- The text up to the end of a lexeme. -/
theorem cutting_front (h : pieces source.toList = front ++ back)
    (hfront : ∀ p ∈ front, p.kind ≠ .endOfInput) :
    Cutting source 0 (front.map Piece.lexeme) 0 (String.ofList (textOf front)) := by
  have hlead : lead [] front = front := by cases front <;> rfl
  have hstart : pieces source.toList = [] ++ (lead [] front ++ back) := by
    rw [hlead, h, List.nil_append]
  refine .of_pieces [] back hstart ?_
  rw [String.toList_ofList]
  exact pieces_front h hfront

end

/-- The text under the span of some lexemes has them on its own. -/
theorem exists_cutting {source : String} {front run back : List Lexeme}
    (h : lexemes source = front ++ (run ++ back)) (hne : run ≠ [])
    (hrun : ∀ l ∈ run, l.Proper) :
    let span := placeSpan (tokenize source).toArray ⟨front.length, front.length + run.length⟩
    ∃ text, span.slice? source = some text ∧ Cutting source front.length run span.start text := by
  obtain ⟨ps, qs, rs, hpieces, rfl, rfl⟩ := pieces_of_lexemes h
  have hqs : qs ≠ [] := fun hqs => hne (List.map_eq_nil_iff.2 hqs)
  have hkinds : ∀ p ∈ qs, p.kind ≠ .endOfInput := fun p hp =>
    (TokenKind.ne_of_isProper (hrun _ (List.mem_map_of_mem hp)).kind).1
  have hslice := slice_placeSpan ((List.append_assoc ps qs rs).symm ▸ hpieces) hqs
  rw [List.length_map, List.length_map]
  exact ⟨_, congrArg (Option.map _) hslice, cutting_run hpieces hqs hkinds⟩

/-- The text up to the end of some lexemes has them on its own. -/
theorem exists_cutting_front {source : String} {front back : List Lexeme}
    (h : lexemes source = front ++ back) (hfront : ∀ l ∈ front, l.Proper) :
    ∃ text, Span.slice? ⟨0, endOf (tokenize source).toArray front.length⟩ source = some text ∧
      Cutting source 0 front 0 text := by
  have hwhole : lexemes source = [] ++ (front ++ back) := h
  obtain ⟨_, qs, rs, hpieces, hnil, rfl⟩ := pieces_of_lexemes hwhole
  obtain rfl := List.map_eq_nil_iff.1 hnil
  rw [List.nil_append] at hpieces
  have hkinds : ∀ p ∈ qs, p.kind ≠ .endOfInput := fun p hp =>
    (TokenKind.ne_of_isProper (hfront _ (List.mem_map_of_mem hp)).kind).1
  have htext : source.toList = textOf qs ++ textOf rs := by
    rw [← textOf_append, ← hpieces, textOf_pieces]
  have hslice := Span.slice?_front htext
  rw [← endOf_front hpieces] at hslice
  rw [List.length_map]
  exact ⟨_, hslice, cutting_front hpieces hkinds⟩

/-- Definitions that were read from some lexemes of a source are read from a text that has
those on its own. -/
theorem Cutting.parse_eq {options : ParseOptions} {source text : String} {front offset : Nat}
    {ls back : List Lexeme} {ds : List Definition} {e : Cursor}
    (hcut : Cutting source front ls offset text)
    (h : Runs options.legacyFragmentVariables ⟨front, ls ++ back⟩ ds e) (he : e.rest = back)
    (hne : ds ≠ []) :
    (parse options text).diagnostics = ⟨[]⟩ ∧
      (parse options text).document.definitions.map
          (·.mapSpans (Option.map (·.shift offset))) =
        ds.map (·.mapSpans (Option.map (placeSpan (tokenize source).toArray))) := by
  let moved : Span → Span := fun s => (placeSpan (tokenize text).toArray s).shift offset
  have hmoved : ∀ start stop, start < stop → stop ≤ ls.length →
      placeSpan (tokenize source).toArray ⟨front + start, front + stop⟩ =
        moved ⟨0 + start, 0 + stop⟩ := by
    simpa [moved] using hcut.place_eq
  obtain ⟨ds', f, hds', hf, hsame⟩ := h.moved he 0 hmoved
  have hne' : ds' ≠ [] := by
    rintro rfl
    exact hne (List.map_eq_nil_iff.1 hsame.symm)
  rw [← hcut.lexemes_eq] at hds'
  have hread := read_of_runs hds' hne' (fun _ => coherent_of_mem) hf
  rw [diagnostics_parse_eq_nil_iff, definitions_parse, hread, ← hsame, Definition.map_mapSpans_map]
  exact ⟨rfl, rfl⟩

/-! ### Definitions on their own -/

@[simp] theorem Definition.span_mapSpans (f : Option Span → Option Span) (d : Definition) :
    (d.mapSpans f).span = f d.span := by
  cases d <;> rfl

/-- The definitions of a document, also if reading stopped at a fault behind them. -/
theorem runs_of_parse (options : ParseOptions) (source : String) :
    ∃ ds e, Runs options.legacyFragmentVariables ⟨0, lexemes source⟩ ds e ∧
      (parse options source).document.definitions =
        ds.map (·.mapSpans (Option.map (placeSpan (tokenize source).toArray))) := by
  obtain ⟨e, hruns⟩ := runs_read options.legacyFragmentVariables (lexemes source)
  exact ⟨_, e, hruns, definitions_parse options source⟩

/-- The text under the span of a definition is read without a diagnostic, as that definition
alone, with its spans as far in front as the text starts in the source. In the case of a
fragment it is the text that the fragment is registered by. -/
theorem parse_slice {options : ParseOptions} {source : String} {d : Definition}
    (hd : d ∈ (parse options source).document.definitions) :
    ∃ span text, d.span = some span ∧ span.slice? source = some text ∧
      (parse options text).diagnostics = ⟨[]⟩ ∧
      (parse options text).document.definitions.map
        (·.mapSpans (Option.map (·.shift span.start))) = [d] ∧
      ∀ f, d = .fragment f → f.fingerprint? source = some ⟨f.name.value, Key.ofSource text⟩ := by
  obtain ⟨ds, e, hruns, hds⟩ := runs_of_parse options source
  rw [hds] at hd
  obtain ⟨x, hx, rfl⟩ := List.mem_map.1 hd
  obtain ⟨xs, ys, rfl⟩ := List.append_of_mem hx
  obtain ⟨c, hxs, hys⟩ := hruns.of_append
  obtain ⟨c', hx', -⟩ : ∃ c', Runs options.legacyFragmentVariables c [x] c' ∧
      Runs options.legacyFragmentVariables c' ys e := Runs.of_append hys
  -- The definition stands behind the lexemes of those in front of it.
  have hcoherent : ∀ l ∈ lexemes source, l.Coherent := fun _ => coherent_of_mem
  obtain ⟨front, hfront, hposition, -⟩ := hxs.chunk hcoherent
  obtain ⟨chunk, hchunk, hposition', hproper⟩ := hx'.chunk (hxs.coherent hcoherent)
  obtain ⟨hspan, hlength⟩ := hx'.single
  obtain ⟨position, rest⟩ := c
  obtain rfl : position = front.length := hposition.trans (Nat.zero_add _)
  obtain rfl : rest = chunk ++ c'.rest := hchunk
  have hne : chunk ≠ [] := by
    rintro rfl
    exact Nat.lt_irrefl _ hlength
  obtain ⟨text, htext, hcut⟩ := exists_cutting hfront hne hproper
  obtain ⟨hdiagnostics, hdefinitions⟩ := hcut.parse_eq hx' rfl (List.cons_ne_nil _ _)
  rw [← hposition'] at htext hdefinitions
  have hplaced : (x.mapSpans (Option.map (placeSpan (tokenize source).toArray))).span =
      some (placeSpan (tokenize source).toArray ⟨front.length, c'.position⟩) := by
    rw [Definition.span_mapSpans, hspan]
    rfl
  refine ⟨_, text, hplaced, htext, hdiagnostics, hdefinitions, fun f hf => ?_⟩
  have hfragment : f.span = some _ := (congrArg Definition.span hf).symm.trans hplaced
  rw [f.fingerprint?_eq, FragmentDefinition.text?, hfragment, Option.bind_some, htext]
  rfl

/-- An extension of a schema could go on with operations. What stands behind this one was
looked at for a brace. -/
theorem parse_slice_example :
    let source := "# é\nextend schema @a type B"
    let d : Definition := .schema ⟨none, true, [⟨⟨"a", some ⟨20, 21⟩⟩, [], some ⟨19, 21⟩⟩], [],
      some ⟨5, 21⟩⟩
    d ∈ (parse {} source).document.definitions ∧
      (parse {} "extend schema @a").diagnostics = ⟨[]⟩ ∧
      (parse {} "extend schema @a").document.definitions.map
        (·.mapSpans (Option.map (·.shift 5))) = [d] := by
  intro source d
  have hd : d ∈ (parse {} source).document.definitions := by decide +kernel
  obtain ⟨span, text, hspan, htext, hdiagnostics, hdefinitions, -⟩ := parse_slice hd
  obtain rfl : (⟨5, 21⟩ : Span) = span := Option.some.inj hspan
  have hslice : (⟨5, 21⟩ : Span).slice? source = some "extend schema @a" := by decide +kernel
  obtain rfl : "extend schema @a" = text := Option.some.inj (hslice.symm.trans htext)
  exact ⟨hd, hdiagnostics, hdefinitions⟩

end GraphQL
