import GraphQL.Proofs.Lexer.Places
import GraphQL.Proofs.Lexer.Tiling

/-!
Parts of a text on their own. What is behind a lexeme is looked at to see that the lexeme goes
no further, and a text that ends there leaves it as it is. So the text may be cut off behind
any lexeme, and in front of any lexeme: the pieces of what is between the cuts are those that
it has in the whole text, and the tokens are the same, as far in front as the text starts.
-/

namespace GraphQL.Lexer

/-! ### Pieces -/

/-- The text up to the end of a lexeme has the pieces that it has in the whole text. -/
theorem pieces_front {cs : List Char} {front back : List Piece} (h : pieces cs = front ++ back)
    (hfront : ∀ p ∈ front, p.kind ≠ .endOfInput) :
    pieces (textOf front) = front ++ [endPiece] := by
  induction front generalizing cs with
  | nil => exact pieces_of_end rfl
  | cons p front ih =>
      obtain ⟨hp, hkinds⟩ := List.forall_mem_cons.1 hfront
      obtain ⟨gap, c, r, hgap, rfl, htail⟩ := pieces_eq_cons h (.inl hp)
      change pieces (scan c r).rest = front ++ back at htail
      obtain ⟨x, hx, hr⟩ := scan_text_eq_cons c r
      have hrest : (scan c r).rest = textOf front ++ textOf back := by
        rw [← textOf_append, ← htail, textOf_pieces]
      have hlong : scan c (x ++ (textOf front ++ textOf back)) =
          ⟨(scan c r).kind, c :: x, textOf front ++ textOf back⟩ := by
        rw [← hrest, hr, ← hx]
      have hpieces := pieces_of_lexeme (splitGap_of_cons hgap (x ++ textOf front))
      rw [scan_front hlong, ih htail hkinds] at hpieces
      rw [textOf_cons, Piece.whole, hx, List.append_assoc]
      exact hpieces

/-- The text of a run of lexemes, from the start of the first one to the end of the last one,
has the pieces that it has in the whole text. -/
theorem pieces_run {cs : List Char} {front run back : List Piece}
    (h : pieces cs = front ++ (run ++ back)) (hrun : ∀ p ∈ run, p.kind ≠ .endOfInput) :
    pieces (textOf (unlead run)) = unlead run ++ [endPiece] := by
  cases run with
  | nil => exact pieces_of_end rfl
  | cons p run =>
      have hsuffix : pieces (textOf (unlead (p :: (run ++ back)))) = unlead (p :: run) ++ back :=
        pieces_unlead h
      exact pieces_front hsuffix (List.forall_mem_cons.2 (List.forall_mem_cons.1 hrun))

end GraphQL.Lexer

namespace GraphQL

open Lexer Text

/-! ### Tokens -/

/-- Tokens in front of others come from pieces in front of theirs. -/
theorem Reader.place_eq_append {offset : Nat} {ps : List Piece} {front back : List Token}
    (h : place offset ps = front ++ back) :
    ∃ qs rs, ps = qs ++ rs ∧ place offset qs = front ∧
      place (offset + byteLength (textOf qs)) rs = back := by
  have hplaces := place_append offset (ps.take front.length) (ps.drop front.length)
  rw [List.take_append_drop, h] at hplaces
  have hle : front.length ≤ ps.length := by
    rw [← length_place offset ps, h, List.length_append]
    exact Nat.le_add_right _ _
  have hlength : front.length = (place offset (ps.take front.length)).length := by
    rw [length_place, List.length_take, Nat.min_eq_left hle]
  obtain ⟨hfront, hback⟩ := List.append_inj hplaces hlength
  exact ⟨_, _, (List.take_append_drop ..).symm, hfront.symm, hback.symm⟩

section
variable {source : String} {front back : List Token} {t : Token}
  (h : tokenize source = front ++ t :: back)
include h

/-- A token comes from a piece, and the tokens around it from those around that piece. -/
theorem exists_piece : ∃ qs p rs, pieces source.toList = qs ++ p :: rs ∧
    Reader.place 0 qs = front ∧ Reader.placePiece (byteLength (textOf qs)) p = t ∧
    Reader.place (byteLength (textOf qs)) (p :: rs) = t :: back := by
  obtain ⟨qs, ps, hpieces, hfront, hback⟩ :=
    Reader.place_eq_append (show Reader.place 0 (pieces source.toList) = _ from h)
  rw [Nat.zero_add] at hback
  cases ps with
  | nil => cases hback
  | cons p rs => exact ⟨qs, p, rs, hpieces, hfront, (List.cons.inj hback).1, hback⟩

/-- From the start of a token on, a source has the tokens that are left of it. -/
theorem tokenize_back :
    ∃ text, Span.slice? ⟨t.span.start, source.utf8ByteSize⟩ source = some text ∧
      (tokenize text).map (·.shift t.span.start) = t :: back := by
  obtain ⟨qs, p, rs, hpieces, -, ht, hback⟩ := exists_piece h
  have hstart : t.span.start = byteLength (textOf qs ++ p.gap) := by
    rw [← ht, Reader.placePiece_eq]
  have htext : source.toList = textOf qs ++ p.gap ++ textOf (unlead (p :: rs)) := by
    rw [← textOf_pieces source.toList, hpieces, textOf_append_unlead]
  have hslice := Span.slice?_back htext
  rw [← hstart] at hslice
  refine ⟨_, hslice, ?_⟩
  rw [tokenize, Reader.tokens, Reader.ofSource, String.toList_ofList, pieces_unlead hpieces,
    ← Reader.place_add, Nat.zero_add, hstart, byteLength_append, ← Reader.place_lead, lead_unlead]
  exact hback

/-- Up to the end of a token, a source has the tokens up to that one, and then ends. -/
theorem tokenize_front (ht : t.kind ≠ .endOfInput) :
    ∃ text, Span.slice? ⟨0, t.span.stop⟩ source = some text ∧
      tokenize text = front ++ [t] ++ [⟨.endOfInput, .empty t.span.stop⟩] := by
  obtain ⟨qs, p, rs, hpieces, hfront, rfl, -⟩ := exists_piece h
  have hsplit : pieces source.toList = qs ++ [p] ++ rs := hpieces.trans (List.append_cons ..)
  have hkinds : ∀ q ∈ qs ++ [p], q.kind ≠ .endOfInput :=
    List.forall_mem_append.2 ⟨kind_ne_of_pieces hpieces (List.cons_ne_nil _ _),
      List.forall_mem_singleton.2 ht⟩
  have hstop : (Reader.placePiece (byteLength (textOf qs)) p).span.stop =
      byteLength (textOf (qs ++ [p])) := by
    rw [Reader.placePiece_eq, textOf_append, textOf_cons, Piece.whole]
    simp [textOf]
  have htext : source.toList = textOf (qs ++ [p]) ++ textOf rs := by
    rw [← textOf_append, ← hsplit, textOf_pieces]
  have hend := Reader.place_endOfInput (textOf (qs ++ [p])) []
  rw [List.append_nil] at hend
  rw [hstop]
  refine ⟨_, Span.slice?_front htext, ?_⟩
  rw [tokenize, Reader.tokens, Reader.ofSource, String.toList_ofList, pieces_front hsplit hkinds,
    Reader.place_append, Nat.zero_add, endPiece, hend, Reader.place_append, Nat.zero_add, hfront]
  rfl

/-- The token that is the end of the input is the last one, at the end of the source. -/
theorem eq_endOfInput (ht : t.kind = .endOfInput) :
    back = [] ∧ t = ⟨.endOfInput, .empty source.utf8ByteSize⟩ := by
  obtain ⟨ts, hts, hkinds⟩ := (tiles_tokenize source).ending
  rw [byteLength_toList] at hts
  rw [hts] at h
  rcases List.eq_nil_or_concat back with rfl | ⟨back, u, rfl⟩
  · exact ⟨rfl, (List.cons.inj (List.append_inj' h rfl).2).1.symm⟩
  · rw [List.concat_eq_append, ← List.cons_append, ← List.append_assoc] at h
    obtain ⟨rfl, -⟩ := List.append_inj' h rfl
    exact absurd ht (hkinds t (by simp)).1

end

/-- A source may be cut at its tokens. From the start of a token on, it has the tokens that are
left of it, as far in front as the text starts; up to the end of a token, it has the tokens up to
that one, and then ends. With a line end between them, two sources have the tokens of both,
unless a string is left open in the first one. -/
theorem tokenize_local (source : String) :
    (∀ front t back, tokenize source = front ++ t :: back →
      (∃ text, Span.slice? ⟨t.span.start, source.utf8ByteSize⟩ source = some text ∧
        (tokenize text).map (·.shift t.span.start) = t :: back) ∧
      ∃ text, Span.slice? ⟨0, t.span.stop⟩ source = some text ∧
        tokenize text = (if t.kind = .endOfInput then front else front ++ [t]) ++
          [⟨.endOfInput, .empty t.span.stop⟩]) ∧
    ((∀ t ∈ tokenize source, t.kind ≠ .unterminated) → ∃ ts,
      tokenize source = ts ++ [⟨.endOfInput, .empty source.utf8ByteSize⟩] ∧
      ∀ next, tokenize (source ++ "\n" ++ next) =
        ts ++ (tokenize next).map (·.shift (source.utf8ByteSize + 1))) := by
  refine ⟨fun front t back h => ⟨tokenize_back h, ?_⟩, fun hclosed => ?_⟩
  · by_cases ht : t.kind = .endOfInput
    · obtain ⟨rfl, rfl⟩ := eq_endOfInput h ht
      have hslice := Span.slice?_front (List.append_nil source.toList).symm
      rw [byteLength_toList, String.ofList_toList] at hslice
      exact ⟨source, hslice, h⟩
    · rw [if_neg ht]
      exact tokenize_front h ht
  · have hlexemes : ∀ l ∈ lexemes source, l.kind ≠ .unterminated := by
      rw [← map_toLexeme_tokenize]
      exact List.forall_mem_map.2 fun t ht => hclosed t (List.dropLast_subset _ ht)
    obtain ⟨ts, hts, -⟩ := (tiles_tokenize source).ending
    rw [byteLength_toList] at hts
    refine ⟨ts, hts, fun next => ?_⟩
    rw [tokenize_append hlexemes, hts, List.dropLast_concat]

/-- A dot, another dot and a number without digits in its exponent, each of them looked at
together with what is behind it; and a comment that stays open. -/
theorem tokenize_local_example :
    let source := "é..1e+ # x"
    let front : List Token := [⟨⟨.invalid, "é"⟩, ⟨0, 2⟩⟩, ⟨⟨.invalid, "."⟩, ⟨2, 3⟩⟩]
    let t : Token := ⟨⟨.invalid, "."⟩, ⟨3, 4⟩⟩
    let back : List Token := [⟨⟨.invalid, "1e+"⟩, ⟨4, 7⟩⟩, ⟨.endOfInput, .empty 11⟩]
    (tokenize source = front ++ t :: back ∧ ∀ t ∈ tokenize source, t.kind ≠ .unterminated) ∧
      (tokenize ".1e+ # x").map (·.shift 3) = t :: back ∧
      tokenize "é.." = front ++ [t, ⟨.endOfInput, .empty 4⟩] ∧
      tokenize (source ++ "\n" ++ "\x7d") = front ++ t :: back.dropLast ++
        [⟨⟨.punctuator .braceClose, "\x7d"⟩, ⟨12, 13⟩⟩, ⟨.endOfInput, .empty 13⟩] := by
  intro source front t back
  have htokens : tokenize source = front ++ t :: back := by decide +kernel
  have hclosed : ∀ t ∈ tokenize source, t.kind ≠ .unterminated := by
    rw [htokens]
    decide
  obtain ⟨hcuts, hnext⟩ := tokenize_local source
  obtain ⟨⟨right, hright, hback⟩, left, hleft, hfront⟩ := hcuts front t back htokens
  obtain rfl : ".1e+ # x" = right := Option.some.inj
    ((by decide +kernel : Span.slice? ⟨3, 11⟩ source = some ".1e+ # x").symm.trans hright)
  obtain rfl : "é.." = left := Option.some.inj
    ((by decide +kernel : Span.slice? ⟨0, 4⟩ source = some "é..").symm.trans hleft)
  obtain ⟨ts, hts, hjoined⟩ := hnext hclosed
  have hsplit : front ++ t :: back = front ++ t :: back.dropLast ++ [⟨.endOfInput, .empty 11⟩] :=
    rfl
  obtain rfl : front ++ t :: back.dropLast = ts :=
    (List.append_inj' (hsplit.symm.trans (htokens.symm.trans hts)) rfl).1
  have hbrace : (tokenize "\x7d").map (·.shift (source.utf8ByteSize + 1)) =
      [⟨⟨.punctuator .braceClose, "\x7d"⟩, ⟨12, 13⟩⟩, ⟨.endOfInput, .empty 13⟩] := by
    decide +kernel
  exact ⟨⟨htokens, hclosed⟩, hback, hfront, (hjoined "\x7d").trans (congrArg _ hbrace)⟩

end GraphQL
