import GraphQL.Parse
import GraphQL.Proofs.Lexer.Slices

/-!
The text under a span of lexemes. It starts with the first of them and ends with
the last, so that it is the text of their pieces without the gap in front.
-/

namespace GraphQL

open Lexer Text

namespace Reader

theorem place_append (offset : Nat) (ps qs : List Piece) :
    place offset (ps ++ qs) = place offset ps ++ place (offset + byteLength (textOf ps)) qs := by
  induction ps generalizing offset with
  | nil => rfl
  | cons p ps ih =>
      rw [List.cons_append, place, place, ih, textOf_cons, Piece.whole, List.cons_append]
      simp only [placePiece, byteLength_append, Nat.add_assoc]

theorem length_place (offset : Nat) (ps : List Piece) : (place offset ps).length = ps.length := by
  induction ps generalizing offset with
  | nil => rfl
  | cons p ps ih => exact congrArg Nat.succ (ih _)

/-- A lexeme stands where the text in front of it ends. -/
theorem getElem?_place {front : List Piece} (p : Piece) (back : List Piece) :
    (place 0 (front ++ p :: back)).toArray[front.length]? =
      some (placePiece (byteLength (textOf front)) p) := by
  have hlength := length_place 0 front
  rw [place_append, List.getElem?_toArray, List.getElem?_append_right (Nat.le_of_eq hlength),
    hlength, Nat.sub_self, Nat.zero_add]
  rfl

end Reader

theorem startOf_place (front : List Piece) (p : Piece) (back : List Piece) :
    startOf (Reader.place 0 (front ++ p :: back)).toArray front.length =
      byteLength (textOf front ++ p.gap) := by
  rw [startOf, Reader.getElem?_place, byteLength_append]
  rfl

theorem endOf_place (front : List Piece) (p : Piece) (back : List Piece) :
    endOf (Reader.place 0 (front ++ p :: back)).toArray (front.length + 1) =
      byteLength (textOf (front ++ [p])) := by
  rw [endOf, Reader.getElem?_place, textOf_append, textOf_cons, Piece.whole]
  simp only [Reader.placePiece, byteLength_append, Nat.add_assoc]
  simp [textOf]

/-- Pieces end where their text does. -/
theorem endOf_front {cs : List Char} {front back : List Piece} (h : pieces cs = front ++ back) :
    endOf (Reader.place 0 (pieces cs)).toArray front.length = byteLength (textOf front) := by
  rcases List.eq_nil_or_concat front with rfl | ⟨ps, p, rfl⟩
  · rfl
  · rw [List.concat_eq_append] at h ⊢
    rw [h, List.append_assoc, List.length_append]
    exact endOf_place ps p back

/-- The text under a span that two cuts make. -/
theorem Span.slice_append (before text back : List Char) :
    Span.slice ⟨byteLength before, byteLength (before ++ text)⟩ (before ++ (text ++ back)) =
      some text := by
  have hlength : Span.length ⟨byteLength before, byteLength (before ++ text)⟩ =
      byteLength text := by
    rw [Span.length, byteLength_append, Nat.add_sub_cancel_left]
  have hle : byteLength before ≤ byteLength (before ++ text) := by
    rw [byteLength_append]
    exact Nat.le_add_right _ _
  rw [Span.slice, if_pos hle, splitAtByte_append, hlength]
  show (splitAtByte (byteLength text) (text ++ back)).bind _ = _
  rw [splitAtByte_append]
  rfl

theorem Span.slice?_front {source : String} {before after : List Char}
    (h : source.toList = before ++ after) :
    Span.slice? ⟨0, byteLength before⟩ source = some (String.ofList before) := by
  have hslice := Span.slice_append [] before after
  rw [List.nil_append, List.nil_append, ← h] at hslice
  exact congrArg (Option.map String.ofList) hslice

theorem Span.slice?_back {source : String} {before after : List Char}
    (h : source.toList = before ++ after) :
    Span.slice? ⟨byteLength before, source.utf8ByteSize⟩ source = some (String.ofList after) := by
  have hslice := Span.slice_append before after []
  rw [List.append_nil, ← h, byteLength_toList] at hslice
  exact congrArg (Option.map String.ofList) hslice

/-- The text under the span of some lexemes. -/
theorem slice_placeSpan {cs : List Char} {front part post : List Piece}
    (h : pieces cs = front ++ part ++ post) (hne : part ≠ []) :
    (placeSpan (Reader.place 0 (pieces cs)).toArray
      ⟨front.length, front.length + part.length⟩).slice cs = some (textOf (unlead part)) := by
  obtain ⟨p, ps, rfl⟩ := List.exists_cons_of_ne_nil hne
  have hstart : startOf (Reader.place 0 (pieces cs)).toArray front.length =
      byteLength (textOf front ++ p.gap) := by
    rw [h, List.append_assoc]
    exact startOf_place front p (ps ++ post)
  have hstop : endOf (Reader.place 0 (pieces cs)).toArray (front.length + (p :: ps).length) =
      byteLength (textOf front ++ p.gap ++ textOf (unlead (p :: ps))) := by
    rw [← List.length_append, endOf_front h, textOf_append_unlead]
  have htext : cs = textOf front ++ p.gap ++ (textOf (unlead (p :: ps)) ++ textOf post) := by
    rw [← textOf_pieces cs, h, textOf_append, textOf_append_unlead, List.append_assoc]
  rw [placeSpan, hstart, hstop]
  conv => lhs; rw [htext]
  exact Span.slice_append _ _ _

/-! ### The order of places -/

/-- The pieces between two places, with those in front of them and behind them. -/
theorem pieces_between {cs : List Char} {i j : Nat} (hij : i ≤ j)
    (hj : j ≤ (Lexer.lexemes cs).length) :
    ∃ front part back gap, pieces cs = front ++ part ++ (back ++ [⟨gap, .endOfInput, []⟩]) ∧
      i = front.length ∧ j = front.length + part.length ∧ ∀ p ∈ part, p.kind ≠ .endOfInput := by
  obtain ⟨ps, gap, hpieces, hkinds⟩ := pieces_split cs
  rw [lexemes_of_split hpieces, List.length_map] at hj
  refine ⟨ps.take i, (ps.drop i).take (j - i), ps.drop j, gap, ?_, ?_, ?_, fun p hp =>
    hkinds p (List.mem_of_mem_drop (List.mem_of_mem_take hp))⟩
  · have hdrop : ps.drop j = (ps.drop i).drop (j - i) := by
      rw [List.drop_drop, Nat.add_sub_cancel' hij]
    rw [hpieces, hdrop, ← List.append_assoc, List.append_assoc (ps.take i),
      List.take_append_drop, List.take_append_drop]
  · rw [List.length_take]
    omega
  · rw [List.length_take, List.length_take, List.length_drop]
    omega

/-- A lexeme stands between the pieces in front of it and those behind it. -/
theorem piece_of_lt {cs : List Char} {i : Nat} (h : i < (Lexer.lexemes cs).length) :
    ∃ front p back, pieces cs = front ++ p :: back ∧ i = front.length ∧ p.kind ≠ .endOfInput := by
  obtain ⟨front, part, back, gap, hpieces, hi, hlength, hkinds⟩ := pieces_between (Nat.le_succ i) h
  obtain ⟨p, rfl⟩ := List.length_eq_one_iff.1 (show part.length = 1 by omega)
  rw [List.append_assoc] at hpieces
  exact ⟨front, p, _, hpieces, hi, hkinds p List.mem_cons_self⟩

/-- A lexeme starts in front of its end. -/
theorem startOf_lt_endOf {source : String} {i : Nat} (h : i < (lexemes source).length) :
    startOf (tokenize source).toArray i < endOf (tokenize source).toArray (i + 1) := by
  obtain ⟨front, p, back, hpieces, rfl, hkind⟩ := piece_of_lt h
  have htext : p.text ≠ [] := text_ne_nil_of_mem (hpieces ▸ List.mem_append_cons_self) hkind
  rw [tokenize, Reader.tokens, Reader.ofSource, hpieces, startOf_place, endOf_place,
    textOf_append, textOf_cons, Piece.whole]
  simp only [byteLength_append]
  have hpos := byteLength_pos htext
  omega

/-- A lexeme does not start in front of the end of the lexeme before it. -/
theorem endOf_le_startOf {source : String} {i : Nat} (h : i < (lexemes source).length) :
    endOf (tokenize source).toArray i ≤ startOf (tokenize source).toArray i := by
  obtain ⟨front, p, back, hpieces, rfl, -⟩ := piece_of_lt h
  have hend := endOf_front hpieces
  rw [tokenize, Reader.tokens, Reader.ofSource]
  rw [hpieces] at hend ⊢
  rw [hend, startOf_place, byteLength_append]
  exact Nat.le_add_right _ _

end GraphQL
