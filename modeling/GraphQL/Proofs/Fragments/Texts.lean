import GraphQL.Fragments
import GraphQL.Proofs.Grammar.Sources
import GraphQL.Proofs.Key.Parts
import GraphQL.Proofs.Lexer.Places

/-!
The text of a fragment. In a source that is read without a diagnostic every
fragment has one, and on its own this text has the lexemes that it has in the
source: they spell the fragment, and the last of them is a closing brace.
-/

namespace GraphQL

open Grammar Lexer

/-- The source under the span of a fragment. -/
def FragmentDefinition.text? (source : String) (f : FragmentDefinition) : Option String :=
  f.span.bind (·.slice? source)

theorem FragmentDefinition.fingerprint?_eq (source : String) (f : FragmentDefinition) :
    f.fingerprint? source =
      (f.text? source).map fun text => ⟨f.name.value, Key.ofSource text⟩ := by
  rw [fingerprint?, text?]
  cases f.span with
  | none => rfl
  | some s =>
      show (s.slice? source).bind _ = (s.slice? source).map _
      cases s.slice? source with
      | none => rfl
      | some text => rfl

/-- A fragment ends with the brace that closes its selection set. -/
theorem braceClose_of_spells {f : FragmentDefinition} {ls : List Lexeme}
    (h : Spells (Definition.fragment f).slots ls) :
    ∃ front, ls = front ++ [.punctuator .braceClose] := by
  have hslots : ∃ ss, (Definition.fragment f).slots = ss ++ [.mark .braceClose] := by
    rw [Definition.slots, FragmentDefinition.slots, SelectionSet.slots_eq, enclosed]
    simp only [← List.append_assoc, ← List.cons_append]
    exact ⟨_, rfl⟩
  obtain ⟨ss, hss⟩ := hslots
  rw [hss] at h
  obtain ⟨front, back, rfl, -, hback⟩ := h.of_append
  obtain ⟨rest, rfl, hrest⟩ := Spells.lexeme_iff.1 hback
  rw [Spells.nil_iff.1 hrest]
  exact ⟨front, rfl⟩

/-- The pieces of a fragment: what stands in front of them, all but the last, the
last, and what stands behind. -/
structure FragmentPieces (allowed : Bool) (cs : List Char) (f : FragmentDefinition)
    (front body : List Piece) (brace : Piece) (back : List Piece) : Prop where
  pieces_eq : pieces cs = front ++ (body ++ [brace]) ++ back
  span_eq : f.span = some ⟨front.length, front.length + (body ++ [brace]).length⟩
  brace_kind : brace.kind = .punctuator .braceClose
  proper : ∀ p ∈ front ++ (body ++ [brace]), p.lexeme.Proper
  spells : Spells (Definition.fragment f).slots ((body ++ [brace]).map Piece.lexeme)
  valid : f.Valid allowed

theorem fragmentPieces_of_placed {allowed : Bool} {cs : List Char} {ds : List Definition}
    (h : Placed allowed 0 ds (Lexer.lexemes cs)) {f : FragmentDefinition}
    (hf : .fragment f ∈ ds) :
    ∃ front body brace back, FragmentPieces allowed cs f front body brace back := by
  obtain ⟨front, chunk, back, hls, hspan, hchunk, hvalid⟩ := h.of_mem hf
  obtain ⟨body, rfl⟩ := braceClose_of_spells hchunk
  obtain ⟨ps, gap, hpieces, -⟩ := pieces_split cs
  have hproper := h.proper
  rw [lexemes_of_split hpieces] at hls hproper
  obtain ⟨ps₁, ps₂, rfl, hps₁, rfl⟩ := List.map_eq_append_iff.1 hls
  obtain ⟨front', part, rfl, rfl, hpart⟩ := List.map_eq_append_iff.1 hps₁
  obtain ⟨body', braces, rfl, rfl, hbraces⟩ := List.map_eq_append_iff.1 hpart
  obtain ⟨brace, braces, rfl, hbrace, hrest⟩ := List.map_eq_cons_iff.1 hbraces
  cases List.map_eq_nil_iff.1 hrest
  refine ⟨front', body', brace, ps₂ ++ [⟨gap, .endOfInput, []⟩], ?_, ?_, ?_, ?_, ?_, hvalid⟩
  · rw [hpieces, List.append_assoc _ ps₂]
  · rw [show f.span = _ from hspan]
    simp
  · exact congrArg Lexeme.kind hbrace
  · intro p hp
    exact hproper _ (List.mem_map_of_mem (List.mem_append_left _ hp))
  · rw [List.map_append, hbraces]
    exact hchunk

section
variable {allowed : Bool} {cs : List Char} {f : FragmentDefinition} {front body : List Piece}
  {brace : Piece} {back : List Piece} (h : FragmentPieces allowed cs f front body brace back)
include h

/-- On its own, the text of a fragment has the lexemes that spell it. -/
theorem FragmentPieces.lexemes_textOf :
    Lexer.lexemes (textOf (unlead (body ++ [brace]))) = (body ++ [brace]).map Piece.lexeme := by
  have hkinds : ∀ p ∈ body ++ [brace], p.kind ≠ .endOfInput :=
    fun p hp => (TokenKind.ne_of_isProper (h.proper p (List.mem_append_right _ hp)).kind).1
  have hpieces := pieces_run (h.pieces_eq.trans (List.append_assoc ..)) hkinds
  rw [lexemes_of_split hpieces, map_lexeme_unlead]

end

theorem FragmentPieces.text?_eq {allowed : Bool} {source : String} {f : FragmentDefinition}
    {front body : List Piece} {brace : Piece} {back : List Piece}
    (h : FragmentPieces allowed source.toList f front body brace back) :
    (f.mapSpans (Option.map (placeSpan (tokenize source).toArray))).text? source =
      some (String.ofList (textOf (unlead (body ++ [brace])))) := by
  have hslice := slice_placeSpan h.pieces_eq (by simp)
  show ((f.span.map _).bind _) = _
  rw [h.span_eq]
  exact congrArg (Option.map String.ofList) hslice

/-- Fragments that stand at the same place in two regular texts with one key have
one key themselves. -/
theorem FragmentPieces.ofText_eq {allowed : Bool} {s t : String} {f g : FragmentDefinition}
    {front body front' body' : List Piece} {brace brace' : Piece} {back back' : List Piece}
    (hf : FragmentPieces allowed s.toList f front body brace back)
    (hg : FragmentPieces allowed t.toList g front' body' brace' back') (hspan : f.span = g.span)
    (hs : Key.Regular s) (ht : Key.Regular t) (hkey : Key.ofSource s = Key.ofSource t) :
    Key.ofText (textOf (unlead (body ++ [brace]))) =
      Key.ofText (textOf (unlead (body' ++ [brace']))) := by
  rw [hf.span_eq, hg.span_eq] at hspan
  obtain ⟨hfront, hbody⟩ := Span.mk.inj (Option.some.inj hspan)
  refine Key.ofText_part_eq hs ht (Key.ofText_eq_of_ofSource_eq hkey) hf.pieces_eq hg.pieces_eq
    (List.append_ne_nil_of_right_ne_nil _ (List.cons_ne_nil _ _))
    (fun p hp => (hf.proper p hp).kind) (fun p hp => (hg.proper p hp).kind) hfront ?_
  rw [hfront] at hbody
  exact Nat.add_left_cancel hbody

/-! ### Fragments of a source -/

/-- A fragment of a source that is read without a diagnostic, as it was read and
as it was placed. -/
theorem fragmentPieces_of_parse {options : ParseOptions} {source : String}
    (h : (parse options source).diagnostics = ⟨[]⟩) {f : FragmentDefinition}
    (hf : .fragment f ∈ (parse options source).document.definitions) :
    ∃ g front body brace back,
      FragmentPieces options.legacyFragmentVariables source.toList g front body brace back ∧
      f = g.mapSpans (Option.map (placeSpan (tokenize source).toArray)) := by
  have hplaced := (placed_of_parse h).2
  rw [definitions_parse] at hf
  obtain ⟨d, hd, hdf⟩ := List.mem_map.1 hf
  cases d with
  | fragment g =>
      obtain ⟨front, body, brace, back, hpieces⟩ := fragmentPieces_of_placed hplaced hd
      exact ⟨g, front, body, brace, back, hpieces, (Definition.fragment.inj hdf).symm⟩
  | _ => cases hdf

/-- Every fragment has a text, and its lexemes spell it. -/
theorem text_of_parse {options : ParseOptions} {source : String}
    (h : (parse options source).diagnostics = ⟨[]⟩) {f : FragmentDefinition}
    (hf : .fragment f ∈ (parse options source).document.definitions) :
    ∃ text, f.text? source = some text ∧ (∀ l ∈ lexemes text, l.Proper) ∧
      Spells (Definition.fragment f).slots (lexemes text) ∧
      f.Valid options.legacyFragmentVariables := by
  obtain ⟨g, front, body, brace, back, hpieces, rfl⟩ := fragmentPieces_of_parse h hf
  have hslots := (Definition.fragment g).slots_mapSpans
    (Option.map (placeSpan (tokenize source).toArray))
  refine ⟨_, hpieces.text?_eq, ?_⟩
  rw [lexemes, String.toList_ofList, hpieces.lexemes_textOf]
  refine ⟨?_, hslots ▸ hpieces.spells, FragmentDefinition.Valid.mapSpans _ hpieces.valid⟩
  exact List.forall_mem_map.2 fun p hp => hpieces.proper p (List.mem_append_right _ hp)

end GraphQL
