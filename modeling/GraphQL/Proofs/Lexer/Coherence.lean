import GraphQL.Lexer

/-!
The lexemes of a text, without the end of the input. In each of them kind and
text fit together: a punctuator has its own text, and what has the form of a
name has the kind that this name is due.
-/

namespace GraphQL

/-- Kinds that a document is made of. -/
def TokenKind.isProper : TokenKind → Bool
  | endOfInput => false
  | invalid => false
  | unterminated => false
  | _ => true

theorem TokenKind.ne_of_isProper {k : TokenKind} (h : k.isProper = true) :
    k ≠ .endOfInput ∧ k ≠ .unterminated := by
  refine ⟨?_, ?_⟩
  all_goals
    rintro rfl
    cases h

theorem TokenKind.isProper_of_isName {k : TokenKind} (h : k.isName = true) :
    k.isProper = true := by
  cases k with
  | name => rfl
  | keyword k => rfl
  | _ => cases h

/-- Kind and text are as they can be in a source before its end. -/
def Lexeme.Coherent (l : Lexeme) : Prop :=
  match l.kind with
  | .endOfInput => False
  | .punctuator p => l.text = p.word
  | .name | .keyword _ => l.kind = .ofName l.text
  | _ => True

theorem Punctuator.word_of_ofChar? {c : Char} {p : Punctuator} (h : ofChar? c = some p) :
    String.ofList [c] = p.word := by
  unfold ofChar? at h
  split at h <;> cases h <;> rfl

namespace Lexeme

/-- Where the kind asks nothing of the text. -/
theorem Coherent.of_kind {l : Lexeme} {k : TokenKind} (h : l.kind = k)
    (hk : k = .string ∨ k = .blockString ∨ k = .unterminated ∨ k = .int ∨ k = .float ∨
      k = .invalid) : l.Coherent := by
  unfold Coherent
  rw [h]
  rcases hk with rfl | rfl | rfl | rfl | rfl | rfl <;> trivial

theorem coherent_ofName (w : String) : Coherent ⟨.ofName w, w⟩ := by
  unfold Coherent
  cases h : TokenKind.ofName w with
  | name => rfl
  | keyword k => rfl
  | _ => exact absurd h (by unfold TokenKind.ofName; split <;> simp)

end Lexeme

namespace Lexer

/-- The lexemes of a text, its end left out. -/
def lexemes (cs : List Char) : List Lexeme :=
  (pieces cs).dropLast.map Piece.lexeme

theorem pieces_ne_nil (cs : List Char) : pieces cs ≠ [] := by
  rw [pieces]
  split <;> simp

/-- Where only ignored characters are left, there is no lexeme. -/
theorem lexemes_of_end {cs : List Char} (h : (nextPiece cs).1.kind = .endOfInput) :
    lexemes cs = [] := by
  rw [lexemes, pieces, if_pos h]
  rfl

theorem lexemes_of_piece {cs : List Char} (h : (nextPiece cs).1.kind ≠ .endOfInput) :
    lexemes cs = (nextPiece cs).1.lexeme :: lexemes (nextPiece cs).2 := by
  rw [lexemes, pieces, if_neg h, List.dropLast_cons_of_ne_nil (pieces_ne_nil _)]
  rfl

/-- A string or its beginning, but nothing else. -/
theorem string_kind (cs : List Char) :
    (string cs).kind = .string ∨ (string cs).kind = .unterminated := by
  fun_induction string cs with
  | case1 => exact .inr rfl
  | case2 c cs ih => exact ih
  | case3 => exact .inl rfl
  | case4 => exact .inr rfl
  | case5 c cs _ _ _ ih => exact ih

theorem blockString_kind (cs : List Char) :
    (blockString cs).kind = .blockString ∨ (blockString cs).kind = .unterminated := by
  fun_induction blockString cs with
  | case1 => exact .inr rfl
  | case2 => exact .inl rfl
  | case3 cs ih => exact ih
  | case4 c cs _ _ ih => exact ih

theorem number_kind (cs : List Char) :
    (number cs).kind = .int ∨ (number cs).kind = .float ∨ (number cs).kind = .invalid := by
  simp only [number]
  split
  · split
    · exact .inr (.inl rfl)
    · exact .inl rfl
  · exact .inr (.inr rfl)

theorem scan_coherent (c : Char) (cs : List Char) :
    Lexeme.Coherent ⟨(scan c cs).kind, String.ofList (scan c cs).text⟩ := by
  unfold scan
  split
  · rename_i p hp
    exact Punctuator.word_of_ofChar? hp
  · split
    · split
      · rfl
      · trivial
    · split
      · split
        · rename_i r
          refine .of_kind (k := (blockString r).kind) rfl ?_
          rcases blockString_kind r with h | h <;> simp [h]
        · refine .of_kind (k := (string cs).kind) rfl ?_
          rcases string_kind cs with h | h <;> simp [h]
      · split
        · refine .of_kind (k := (number (c :: cs)).kind) rfl ?_
          rcases number_kind (c :: cs) with h | h | h <;> simp [h]
        · split
          · exact Lexeme.coherent_ofName _
          · trivial

/-- Every lexeme of a text was scanned somewhere. -/
theorem scanned_of_mem_lexemes {cs : List Char} {l : Lexeme} (h : l ∈ lexemes cs) :
    ∃ c r, l = ⟨(scan c r).kind, String.ofList (scan c r).text⟩ := by
  fun_induction pieces cs with
  | case1 cs hend =>
      rw [lexemes_of_end hend] at h
      cases h
  | case2 cs hpiece ih =>
      rw [lexemes_of_piece hpiece] at h
      rcases List.mem_cons.1 h with rfl | h
      · unfold nextPiece at hpiece ⊢
        split
        · rename_i heq
          simp [heq] at hpiece
        · exact ⟨_, _, rfl⟩
      · exact ih h

theorem coherent_of_mem_lexemes {cs : List Char} {l : Lexeme} (h : l ∈ lexemes cs) :
    l.Coherent := by
  obtain ⟨c, r, rfl⟩ := scanned_of_mem_lexemes h
  exact scan_coherent c r

end Lexer

/-! ### Sources -/

/-- The lexemes of a source, its end left out. -/
def lexemes (source : String) : List Lexeme := Lexer.lexemes source.toList

theorem Reader.map_toLexeme_place (offset : Nat) (ps : List Lexer.Piece) :
    (place offset ps).map Token.toLexeme = ps.map Lexer.Piece.lexeme := by
  induction ps generalizing offset with
  | nil => rfl
  | cons p ps ih => simp [place, placePiece, ih]

/-- Places do not change what the lexemes are. -/
theorem map_toLexeme_tokenize (source : String) :
    (tokenize source).dropLast.map Token.toLexeme = lexemes source := by
  rw [List.map_dropLast, tokenize, Reader.tokens, Reader.map_toLexeme_place,
    ← List.map_dropLast]
  rfl

theorem length_lexemes (source : String) :
    (lexemes source).length = (tokenize source).dropLast.length := by
  rw [← map_toLexeme_tokenize, List.length_map]

theorem coherent_of_mem {source : String} {l : Lexeme} (h : l ∈ lexemes source) : l.Coherent :=
  Lexer.coherent_of_mem_lexemes h

end GraphQL
