import GraphQL.Proofs.Lexer.Locality

/-!
A text taken apart into pieces, which are its lexemes with the gaps in front of them. A text
that starts in front of a lexeme has the pieces that it has behind what stood before it.
-/

namespace GraphQL.Lexer

/-! ### First characters -/

theorem scan_punctuator {c : Char} {p : Punctuator} (h : Punctuator.ofChar? c = some p)
    (cs : List Char) : scan c cs = ⟨.punctuator p, [c], cs⟩ := by
  unfold scan
  rw [h]

/-- The first character of a lexeme tells what else is scanned. -/
theorem scan_cases (c : Char) :
    (∃ p, ∀ cs, scan c cs = ⟨.punctuator p, [c], cs⟩) ∨ c = '"' ∨ c = '.' ∨
      (∀ cs, scan c cs = number (c :: cs)) ∨ (∀ cs, scan c cs = name (c :: cs)) ∨
      ∀ cs, scan c cs = ⟨.invalid, [c], cs⟩ := by
  cases hp : Punctuator.ofChar? c with
  | some p => exact .inl ⟨p, scan_punctuator hp⟩
  | none =>
      by_cases hquote : c = '"'
      · exact .inr (.inl hquote)
      by_cases hdot : c = '.'
      · exact .inr (.inr (.inl hdot))
      refine .inr (.inr (.inr ?_))
      simp only [scan, hp, if_neg hdot, if_neg hquote]
      split
      · exact .inl fun _ => rfl
      · split
        · exact .inr (.inl fun _ => rfl)
        · exact .inr (.inr fun _ => rfl)

theorem scan_quote_block (r : List Char) :
    scan '"' ('"' :: '"' :: r) = (blockString r).prepend ['"', '"', '"'] := rfl

theorem scan_quote_string {r : List Char} (h : ¬['"', '"'] <+: r) :
    scan '"' r = (string r).prepend ['"'] := by
  have hnone : Punctuator.ofChar? '"' = none := rfl
  unfold scan
  simp only [hnone, if_neg (show '"' ≠ '.' by decide), if_pos]
  split
  · rename_i r
    exact absurd ⟨r, rfl⟩ h
  · rfl

/-! ### Pieces -/

/-- A gap ends in front of the same character, whatever stands behind it. -/
theorem splitGap_of_cons {inComment : Bool} {cs gap r : List Char} {c : Char}
    (h : splitGap inComment cs = (gap, c :: r)) (r' : List Char) :
    splitGap inComment (gap ++ c :: r') = (gap, c :: r') := by
  induction inComment, cs, gap, h using splitGap_induction with
  | nil _ hrest _ => cases hrest
  | inside d cs gap _ _ ih => rw [List.cons_append, splitGap_inside, ih]
  | ignored d cs gap hd _ _ ih => rw [List.cons_append, splitGap_ignored hd, ih]
  | hash cs gap _ _ ih => rw [List.cons_append, splitGap_hash, ih]
  | lexeme d cs hd hhash hrest _ =>
      cases hrest
      exact splitGap_lexeme hd hhash r'

/-- No gap starts at a character that ends one. -/
theorem splitGap_at_lexeme {inComment : Bool} {cs gap r : List Char} {c : Char}
    (h : splitGap inComment cs = (gap, c :: r)) (r' : List Char) :
    splitGap false (c :: r') = ([], c :: r') := by
  induction inComment, cs, gap, h using splitGap_induction with
  | nil _ hrest _ => cases hrest
  | inside d cs gap _ _ ih => exact ih
  | ignored d cs gap hd _ _ ih => exact ih
  | hash cs gap _ _ ih => exact ih
  | lexeme d cs hd hhash hrest _ =>
      cases hrest
      exact splitGap_lexeme hd hhash r'

theorem nextPiece_of_lexeme {cs gap r : List Char} {c : Char}
    (h : splitGap false cs = (gap, c :: r)) :
    nextPiece cs = (⟨gap, (scan c r).kind, (scan c r).text⟩, (scan c r).rest) := by
  unfold nextPiece
  rw [h]

theorem pieces_of_lexeme {cs gap r : List Char} {c : Char}
    (h : splitGap false cs = (gap, c :: r)) :
    pieces cs = ⟨gap, (scan c r).kind, (scan c r).text⟩ :: pieces (scan c r).rest := by
  rw [pieces, nextPiece_of_lexeme h, if_neg (scan_kind_ne_endOfInput c r)]

theorem pieces_of_end {cs gap : List Char} (h : splitGap false cs = (gap, [])) :
    pieces cs = [⟨gap, .endOfInput, []⟩] := by
  have hnext : nextPiece cs = (⟨gap, .endOfInput, []⟩, []) := by
    unfold nextPiece
    rw [h]
  rw [pieces, hnext, if_pos rfl]

/-- A text is a gap alone, or a gap and a lexeme in front of a shorter text. -/
theorem pieces_induction {motive : List Char → Prop}
    (ending : ∀ cs gap, splitGap false cs = (gap, []) → motive cs)
    (piece : ∀ cs gap c r, splitGap false cs = (gap, c :: r) → motive (scan c r).rest → motive cs)
    (cs : List Char) : motive cs := by
  fun_induction pieces cs with
  | case1 cs hend =>
      unfold nextPiece at hend
      split at hend
      · exact ending cs _ ‹_›
      · exact absurd hend (scan_kind_ne_endOfInput _ _)
  | case2 cs hpiece ih =>
      cases h : splitGap false cs with
      | mk gap rest =>
          cases rest with
          | nil => exact ending cs gap h
          | cons c r =>
              rw [nextPiece_of_lexeme h] at ih
              exact piece cs gap c r h ih

/-- What is left of a text when its last piece has been cut off. -/
def endPiece : Piece := ⟨[], .endOfInput, []⟩

/-- The text of pieces. -/
def textOf (ps : List Piece) : List Char := (ps.map Piece.whole).flatten

theorem textOf_cons (p : Piece) (ps : List Piece) : textOf (p :: ps) = p.whole ++ textOf ps := rfl

theorem textOf_append (ps qs : List Piece) : textOf (ps ++ qs) = textOf ps ++ textOf qs := by
  simp [textOf]

theorem textOf_pieces (cs : List Char) : textOf (pieces cs) = cs := flatten_pieces cs

/-- Pieces without the gap in front of the first one. -/
def unlead : List Piece → List Piece
  | [] => []
  | p :: ps => { p with gap := [] } :: ps

theorem unlead_append {ps : List Piece} (h : ps ≠ []) (qs : List Piece) :
    unlead (ps ++ qs) = unlead ps ++ qs := by
  cases ps with
  | nil => exact absurd rfl h
  | cons p ps => rfl

/-- A text up to the text of a piece, and the text from there on. -/
theorem textOf_append_unlead (front : List Piece) (p : Piece) (ps : List Piece) :
    textOf (front ++ p :: ps) = textOf front ++ p.gap ++ textOf (unlead (p :: ps)) := by
  rw [textOf_append, textOf_cons, unlead, textOf_cons, Piece.whole, Piece.whole]
  simp

theorem map_lexeme_unlead (ps : List Piece) :
    (unlead ps).map Piece.lexeme = ps.map Piece.lexeme := by
  cases ps with
  | nil => rfl
  | cons p ps => rfl

/-- Only the last piece is the end of the input. -/
theorem pieces_split (cs : List Char) : ∃ ps gap, pieces cs = ps ++ [⟨gap, .endOfInput, []⟩] ∧
    ∀ p ∈ ps, p.kind ≠ .endOfInput := by
  induction cs using pieces_induction with
  | ending cs gap hgap => exact ⟨[], gap, pieces_of_end hgap, List.forall_mem_nil _⟩
  | piece cs gap c r hgap ih =>
      obtain ⟨ps, gap', hpieces, hps⟩ := ih
      refine ⟨⟨gap, (scan c r).kind, (scan c r).text⟩ :: ps, gap', ?_,
        List.forall_mem_cons.2 ⟨scan_kind_ne_endOfInput c r, hps⟩⟩
      rw [pieces_of_lexeme hgap, hpieces]
      rfl

/-- No piece in front of another one is the end of the input. -/
theorem kind_ne_of_pieces {cs : List Char} {front back : List Piece}
    (h : pieces cs = front ++ back) (hback : back ≠ []) : ∀ p ∈ front, p.kind ≠ .endOfInput := by
  obtain ⟨ps, gap, hpieces, hps⟩ := pieces_split cs
  obtain ⟨back, q, rfl⟩ := (List.eq_nil_or_concat back).resolve_left hback
  rw [List.concat_eq_append, ← List.append_assoc, hpieces] at h
  obtain ⟨rfl, -⟩ := List.append_inj' h rfl
  exact fun p hp => hps p (List.mem_append_left back hp)

theorem lexemes_of_split {cs : List Char} {ps : List Piece} {e : Piece}
    (h : pieces cs = ps ++ [e]) : lexemes cs = ps.map Piece.lexeme := by
  rw [lexemes, h, List.dropLast_concat]

/-- Some of the lexemes of a text are those of some of its pieces. -/
theorem pieces_of_lexemes {cs : List Char} {front run back : List Lexeme}
    (h : lexemes cs = front ++ (run ++ back)) : ∃ ps qs rs, pieces cs = ps ++ (qs ++ rs) ∧
      ps.map Piece.lexeme = front ∧ qs.map Piece.lexeme = run := by
  obtain ⟨all, gap, hpieces, -⟩ := pieces_split cs
  rw [lexemes_of_split hpieces] at h
  obtain ⟨ps, rest, rfl, hps, hrest⟩ := List.map_eq_append_iff.1 h
  obtain ⟨qs, rs, rfl, hqs, -⟩ := List.map_eq_append_iff.1 hrest
  exact ⟨ps, qs, rs ++ [⟨gap, .endOfInput, []⟩], by rw [hpieces]; simp, hps, hqs⟩

/-- Every piece but the last is a gap and a lexeme. -/
theorem pieces_eq_cons {cs : List Char} {p : Piece} {ps : List Piece} (h : pieces cs = p :: ps)
    (hp : p.kind ≠ .endOfInput ∨ ps ≠ []) :
    ∃ gap c r, splitGap false cs = (gap, c :: r) ∧
      p = ⟨gap, (scan c r).kind, (scan c r).text⟩ ∧ pieces (scan c r).rest = ps := by
  cases hgap : splitGap false cs with
  | mk gap rest =>
      cases rest with
      | nil =>
          rw [pieces_of_end hgap] at h
          obtain ⟨rfl, rfl⟩ := List.cons.inj h
          rcases hp with hp | hp
          · exact absurd rfl hp
          · exact absurd rfl hp
      | cons c r =>
          rw [pieces_of_lexeme hgap] at h
          obtain ⟨rfl, hrest⟩ := List.cons.inj h
          exact ⟨gap, c, r, rfl, rfl, hrest⟩

/-- From the start of the text of a piece on, the pieces are those of what is left of the
text. -/
theorem pieces_unlead {cs : List Char} {front ps : List Piece} {p : Piece}
    (h : pieces cs = front ++ p :: ps) :
    pieces (textOf (unlead (p :: ps))) = unlead (p :: ps) := by
  induction front generalizing cs with
  | nil =>
      cases hgap : splitGap false cs with
      | mk gap rest =>
          cases rest with
          | nil =>
              rw [pieces_of_end hgap] at h
              obtain ⟨rfl, rfl⟩ := List.cons.inj h
              exact pieces_of_end rfl
          | cons c r =>
              rw [pieces_of_lexeme hgap] at h
              obtain ⟨rfl, rfl⟩ := List.cons.inj h
              have htext : textOf (unlead (⟨gap, (scan c r).kind, (scan c r).text⟩ ::
                  pieces (scan c r).rest)) = c :: r := by
                rw [unlead, textOf_cons, textOf_pieces]
                exact scan_whole c r
              rw [htext, pieces_of_lexeme (splitGap_at_lexeme hgap r)]
              rfl
  | cons q front ih =>
      obtain ⟨gap, c, r, -, -, hrest⟩ := pieces_eq_cons h (.inr (by simp))
      exact ih hrest

/-- A lexeme is not empty. -/
theorem text_ne_nil_of_mem {cs : List Char} {p : Piece} (h : p ∈ pieces cs)
    (hk : p.kind ≠ .endOfInput) : p.text ≠ [] := by
  induction cs using pieces_induction with
  | ending cs gap hgap =>
      rw [pieces_of_end hgap, List.mem_singleton] at h
      subst h
      exact absurd rfl hk
  | piece cs gap c r hgap ih =>
      rw [pieces_of_lexeme hgap] at h
      rcases List.mem_cons.1 h with rfl | h
      · exact scan_text_ne_nil c r
      · exact ih h

/-- A lexeme starts with the character at which it was scanned. -/
theorem scan_text_eq_cons (c : Char) (r : List Char) :
    ∃ x, (scan c r).text = c :: x ∧ x ++ (scan c r).rest = r := by
  have hwhole : (scan c r).text ++ (scan c r).rest = c :: r := scan_whole c r
  cases hx : (scan c r).text with
  | nil => exact absurd hx (scan_text_ne_nil c r)
  | cons d x =>
      rw [hx] at hwhole
      obtain ⟨rfl, hr⟩ := List.cons.inj hwhole
      exact ⟨x, rfl, hr⟩

end GraphQL.Lexer

namespace GraphQL

/-- The end of the input comes last. -/
theorem map_toLexeme_tokenize_append (s : String) :
    (tokenize s).map Token.toLexeme = lexemes s ++ [.endOfInput] := by
  obtain ⟨ps, gap, hpieces, -⟩ := Lexer.pieces_split s.toList
  rw [tokenize, Reader.tokens, Reader.map_toLexeme_place, lexemes,
    Lexer.lexemes_of_split hpieces]
  show (Lexer.pieces s.toList).map Lexer.Piece.lexeme = _
  rw [hpieces, List.map_append]
  rfl

end GraphQL
