import GraphQL.Proofs.Key.Definitions

/-!
What a key leaves out. The contents of a text are its characters but for the
separators. A key has the contents of the lexemes of its text, in order, where the
reader of marks and the scanner agree on what is a comment. They do if the reader of
marks is in step with the scanner, and also if there is no sign of a comment.
-/

namespace GraphQL

open Text

/-- The characters that do not separate. -/
def Text.contents (cs : List Char) : List Char := cs.filter (!isSeparator ·)

namespace Text

theorem contents_append (cs ds : List Char) : contents (cs ++ ds) = contents cs ++ contents ds :=
  List.filter_append ..

theorem contents_separator {c : Char} (h : isSeparator c = true) (cs : List Char) :
    contents (c :: cs) = contents cs := by
  simp [contents, h]

theorem contents_plain {c : Char} (h : isSeparator c = false) (cs : List Char) :
    contents (c :: cs) = c :: contents cs := by
  simp [contents, h]

end Text

/-- The characters of a lexeme that do not separate. -/
def Lexeme.contents (l : Lexeme) : List Char := Text.contents l.text.toList

namespace Key

open Lexer

/-! ### Contents of what is written -/

theorem contents_space (due : Bool) : contents (space due) = [] := by
  cases due <;> decide

/-- The characters that marks keep. -/
def keptBy : List Mark → List Char
  | [] => []
  | .gap :: ms => keptBy ms
  | .keep c :: ms => c :: keptBy ms

theorem contents_writeAfter (due : Bool) (ms : List Mark) :
    contents (writeAfter due ms) = contents (keptBy ms) := by
  induction ms generalizing due with
  | nil => rfl
  | cons m ms ih =>
      cases m with
      | gap => exact ih true
      | keep c =>
          rw [writeAfter_keep, contents_append, contents_space, List.nil_append, keptBy]
          cases hc : isSeparator c with
          | true => rw [contents_separator hc, contents_separator hc, ih]
          | false => rw [contents_plain hc, contents_plain hc, ih]

theorem contents_write (ms : List Mark) : contents (write ms) = contents (keptBy ms) := by
  induction ms with
  | nil => rfl
  | cons m ms ih =>
      cases m with
      | gap => exact ih
      | keep c => exact contents_writeAfter false (.keep c :: ms)

theorem keptBy_markOf (cs : List Char) : contents (keptBy (cs.map markOf)) = contents cs := by
  induction cs with
  | nil => rfl
  | cons c cs ih =>
      rw [List.map_cons]
      cases hc : isSeparator c with
      | true =>
          rw [markOf_separator hc, contents_separator hc]
          exact ih
      | false =>
          rw [markOf_plain hc, keptBy, contents_plain hc, contents_plain hc, ih]

/-- Single spaces take nothing else away. -/
theorem contents_squeezed (l : Lexeme) : l.squeezed.contents = l.contents := by
  rw [Lexeme.contents, Lexeme.squeezed, String.toList_ofList, tidyText]
  split
  · rw [squeeze, contents_writeAfter, keptBy_markOf]
    rfl
  · rfl

/-! ### Contents of lexemes -/

/-- A text has the contents of its lexemes, if there is none between them. -/
theorem contents_eq_of_gaps {cs : List Char} (h : ∀ p ∈ pieces cs, contents p.gap = []) :
    contents cs = (Lexer.lexemes cs).flatMap Lexeme.contents := by
  have hpieces : ∀ ps : List Piece, (∀ p ∈ ps, contents p.gap = []) →
      contents (textOf ps) = (ps.map Piece.lexeme).flatMap Lexeme.contents := by
    intro ps hps
    induction ps with
    | nil => rfl
    | cons p ps ih =>
        obtain ⟨hp, hps⟩ := List.forall_mem_cons.1 hps
        rw [textOf_cons, Piece.whole, contents_append, contents_append, hp, List.nil_append,
          ih hps, List.map_cons, List.flatMap_cons, Lexeme.contents, Piece.lexeme,
          String.toList_ofList]
  obtain ⟨ps, gap, hsplit, -⟩ := pieces_split cs
  have hwhole := hpieces (pieces cs) h
  rw [textOf_pieces, hsplit, List.map_append, List.flatMap_append] at hwhole
  rw [hwhole, lexemes_of_split hsplit]
  exact List.append_nil _

/-- The gaps of a key are spaces. -/
theorem contents_gap_tidy (due : Bool) (ps : List Piece) :
    ∀ p ∈ tidy due ps, contents p.gap = [] := by
  induction ps generalizing due with
  | nil => exact List.forall_mem_nil _
  | cons p ps ih =>
      rw [tidy]
      split
      · exact List.forall_mem_singleton.2 rfl
      · exact List.forall_mem_cons.2 ⟨contents_space _, ih _⟩

theorem contents_gap_unlead {ps : List Piece} (h : ∀ p ∈ ps, contents p.gap = []) :
    ∀ p ∈ unlead ps, contents p.gap = [] := by
  cases ps with
  | nil => exact h
  | cons p ps =>
      exact List.forall_mem_cons.2 ⟨rfl, (List.forall_mem_cons.1 h).2⟩

/-- The key of a regular text has the contents of its lexemes. -/
theorem contents_ofText {cs : List Char} (hreg : ∀ l ∈ Lexer.lexemes cs, l.Regular) :
    contents (ofText cs) = (Lexer.lexemes cs).flatMap Lexeme.contents := by
  have hgaps : ∀ p ∈ pieces (ofText cs), contents p.gap = [] := by
    rw [pieces_ofText (regular_of_mem_pieces hreg)]
    exact contents_gap_unlead (contents_gap_tidy _ _)
  rw [contents_eq_of_gaps hgaps, lexemes_ofText hreg, List.flatMap_map]
  exact List.flatMap_congr fun l _ => contents_squeezed l

/-! ### Texts without a sign of a comment -/

theorem contents_gap {cs gap rest : List Char} (h : splitGap false cs = (gap, rest))
    (hcs : '#' ∉ cs) : contents gap = [] := by
  induction cs generalizing gap with
  | nil =>
      cases h
      rfl
  | cons c cs ih =>
      obtain ⟨hc, hcs⟩ : '#' ≠ c ∧ '#' ∉ cs := by simpa using hcs
      rw [splitGap] at h
      split at h
      · rename_i hignored
        obtain ⟨rfl, hrest⟩ := Prod.mk.inj h
        rw [contents_separator (isSeparator_of_isIgnored hignored)]
        exact ih (Prod.ext rfl hrest) hcs
      · rw [if_neg hc.symm] at h
        cases h
        rfl

theorem contents_gaps {cs : List Char} (hcs : '#' ∉ cs) : ∀ p ∈ pieces cs, contents p.gap = [] := by
  induction cs using pieces_induction with
  | ending cs gap hgap =>
      rw [pieces_of_end hgap]
      exact List.forall_mem_singleton.2 (contents_gap hgap hcs)
  | piece cs gap c r hgap ih =>
      have hwhole := splitGap_append false cs
      rw [hgap, ← scan_whole c r] at hwhole
      rw [pieces_of_lexeme hgap]
      refine List.forall_mem_cons.2 ⟨contents_gap hgap hcs, ih fun hmem => hcs ?_⟩
      rw [← hwhole]
      exact List.mem_append_right _ (List.mem_append_right _ hmem)

/-- The reader of marks keeps everything but separators and comments, whichever way it
takes quotes. -/
theorem contents_keptBy_marks {mode : Mode} {cs : List Char} (hmode : mode ≠ .comment)
    (hcs : '#' ∉ cs) : contents (keptBy (marks mode cs)) = contents cs := by
  have hquote : isSeparator '"' = false := by decide
  fun_induction marks mode cs with
  | case4 => exact absurd List.mem_cons_self hcs
  | case9 => exact absurd rfl hmode
  | case10 => exact absurd rfl hmode
  | case11 c cs hend ih =>
      rw [contents_separator (isSeparator_of_isLineEnd hend)]
      exact ih (by simp) fun hmem => hcs (List.mem_cons_of_mem _ hmem)
  | _ => simp_all [keptBy, contents]

theorem contents_ofText_of_no_comment {cs : List Char} (hcs : '#' ∉ cs) :
    contents (ofText cs) = (Lexer.lexemes cs).flatMap Lexeme.contents := by
  rw [ofText, contents_write, contents_keptBy_marks (by simp) hcs,
    contents_eq_of_gaps (contents_gaps hcs)]

end Key

/-! ### Sources -/

/-- The end of the input has no contents. -/
theorem flatMap_contents_tokenize (s : String) :
    (tokenize s).flatMap (fun t => contents t.text.toList) =
      (lexemes s).flatMap Lexeme.contents := by
  have hmap := congrArg (List.flatMap Lexeme.contents) (map_toLexeme_tokenize_append s)
  rw [List.flatMap_map, List.flatMap_append] at hmap
  exact hmap.trans (List.append_nil _)

/-- The key of a source that is read without a diagnostic has the contents of the
tokens, in order, if no block string of it has an escaped triple quote in front of a
quote. Where one has, the reader of marks may leave it early, and take a sign in it
for that of a comment; so nothing is lost either if there is no such sign. -/
theorem contents_ofSource {options : ParseOptions} {source : String}
    (h : (parse options source).diagnostics = ⟨[]⟩)
    (hcomments : Key.BlockRegular source ∨ '#' ∉ source.toList) :
    contents (Key.ofSource source).toList =
      (tokenize source).flatMap fun t => contents t.text.toList := by
  rw [flatMap_contents_tokenize, Key.ofSource, String.toList_ofList]
  rcases hcomments with hblock | hhash
  · exact Key.contents_ofText (Key.regular_of_parse h hblock)
  · exact Key.contents_ofText_of_no_comment hhash

/-- Signs of comments in strings, and a comment with a quote. -/
theorem contents_ofSource_example :
    let s := "\x7b a(b: \"# x\", c: \"\"\"# \\\"\"\" y\"\"\") \x7d # \"z"
    ((parse ⟨false⟩ s).diagnostics = ⟨[]⟩ ∧ Key.BlockRegular s) ∧
      contents (Key.ofSource s).toList = (tokenize s).flatMap fun t => contents t.text.toList := by
  intro s
  have h : (parse ⟨false⟩ s).diagnostics = ⟨[]⟩ ∧ Key.BlockRegular s := by decide +kernel
  exact ⟨h, contents_ofSource h.1 (.inl h.2)⟩

/-- The reader of marks takes the quotes of an escaped triple quote with the one behind
them for the end of the block string, and drops the rest of the line. -/
theorem contents_ofSource_lost :
    ¬∀ (options : ParseOptions) (source : String), (parse options source).diagnostics = ⟨[]⟩ →
      contents (Key.ofSource source).toList =
        (tokenize source).flatMap fun t => contents t.text.toList := by
  intro h
  have hlost := h ⟨false⟩ "\x7b a(b: \"\"\"\\\"\"\"\" # \"\"\") \x7d" (by decide +kernel)
  revert hlost
  decide +kernel

end GraphQL
