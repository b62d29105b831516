import GraphQL.Proofs.Lexer.Cuts

/-!
Tokens and the gaps between them tile their source.
-/

namespace GraphQL

open Text

namespace Lexer

/-! ### Gaps -/

/-- What is ignored in front of a text: single characters, and comments up to the end of
their line. -/
inductive Ignored (after : List Char) : List Char → Prop
  | nil : Ignored after []
  | char (c : Char) (cs : List Char) : isIgnored c = true → Ignored after cs →
      Ignored after (c :: cs)
  | comment (body cs : List Char) : (∀ c ∈ body, isLineEnd c = false) →
      StartsLine (cs ++ after) → Ignored after cs → Ignored after ('#' :: (body ++ cs))

/-- A comment takes the rest of its line. -/
theorem splitGap_comment (cs : List Char) :
    splitGap true cs =
      (cs.takeWhile (!isLineEnd ·) ++ (splitGap false (cs.dropWhile (!isLineEnd ·))).1,
        (splitGap false (cs.dropWhile (!isLineEnd ·))).2) := by
  induction cs with
  | nil => rfl
  | cons c cs ih =>
      rw [splitGap]
      cases hc : isLineEnd c with
      | true =>
          have hignored : isIgnored c = true := by simp [isIgnored, hc]
          simp [hc, splitGap, hignored]
      | false => simp [hc, ih]

/-- A text starts with an ignored character, with a comment or with neither. -/
theorem gap_induction {motive : List Char → Prop} (nil : motive [])
    (ignored : ∀ c cs, isIgnored c = true → motive cs → motive (c :: cs))
    (comment : ∀ cs, motive (cs.dropWhile (!isLineEnd ·)) → motive ('#' :: cs))
    (lexeme : ∀ c cs, isIgnored c = false → c ≠ '#' → motive (c :: cs)) (cs : List Char) :
    motive cs := by
  induction hn : cs.length using Nat.strongRecOn generalizing cs with
  | ind n ih =>
      cases cs with
      | nil => exact nil
      | cons c cs =>
          rw [List.length_cons] at hn
          cases hc : isIgnored c with
          | true => exact ignored c cs hc (ih cs.length (by omega) cs rfl)
          | false =>
              by_cases hhash : c = '#'
              · subst hhash
                have hle := (List.dropWhile_suffix (l := cs) (!isLineEnd ·)).length_le
                exact comment cs (ih _ (by omega) _ rfl)
              · exact lexeme c cs hc hhash

/-- A gap is what is ignored in front of the rest. -/
theorem ignored_splitGap (cs : List Char) :
    Ignored (splitGap false cs).2 (splitGap false cs).1 := by
  induction cs using gap_induction with
  | nil => exact .nil
  | ignored c cs hc ih =>
      rw [splitGap_ignored hc]
      exact .char c _ hc ih
  | comment cs ih =>
      rw [splitGap_hash, splitGap_comment]
      refine .comment _ _ ?_ ?_ ih
      · exact fun c hc => by simpa using List.all_eq_true.1 List.all_takeWhile c hc
      · rw [splitGap_append]
        exact fun c hc => by simpa using head_dropWhile cs c hc
  | lexeme c cs hc hhash =>
      rw [splitGap_lexeme hc hhash]
      exact .nil

/-- From a piece on, the pieces are those of what is left of the text. -/
theorem pieces_suffix {cs : List Char} {front ps : List Piece} (h : pieces cs = front ++ ps)
    (hps : ps ≠ []) : pieces (textOf ps) = ps := by
  induction front generalizing cs with
  | nil =>
      rw [List.nil_append] at h
      rw [← h, textOf_pieces]
  | cons q front ih =>
      obtain ⟨gap, c, r, -, -, hrest⟩ := pieces_eq_cons h (.inr (by simp [hps]))
      exact ih hrest

/-- A piece starts with what is ignored in front of its text. -/
theorem ignored_gap {cs : List Char} {front back : List Piece} {p : Piece}
    (h : pieces cs = front ++ p :: back) : Ignored (p.text ++ textOf back) p.gap := by
  have hpieces := pieces_suffix h (by simp)
  have hgap : p.gap = (splitGap false (textOf (p :: back))).1 := by
    induction htext : textOf (p :: back) using pieces_induction with
    | ending cs gap hgap =>
        rw [htext, pieces_of_end hgap] at hpieces
        rw [hgap, ← (List.cons.inj hpieces).1]
    | piece cs gap c r hgap _ =>
        rw [htext, pieces_of_lexeme hgap] at hpieces
        rw [hgap, ← (List.cons.inj hpieces).1]
  have hrest : p.text ++ textOf back = (splitGap false (textOf (p :: back))).2 := by
    have hwhole := splitGap_append false (textOf (p :: back))
    rw [← hgap, textOf_cons, Piece.whole, List.append_assoc] at hwhole
    rw [textOf_cons, Piece.whole, List.append_assoc]
    exact (List.append_cancel_left hwhole).symm
  rw [hgap, hrest]
  exact ignored_splitGap _

end Lexer

/-! ### Tokens -/

open Lexer

/-- The spans in front of the tokens, from an offset on. -/
def gaps (offset : Nat) : List Token → List Span
  | [] => []
  | t :: ts => ⟨offset, t.span.start⟩ :: gaps t.span.stop ts

/-- Tokens and ignored gaps take turns in a text, and nothing is left at its end. -/
structure Tiles (text : List Char) (tokens : List Token) : Prop where
  ending : ∃ ts, tokens = ts ++ [⟨.endOfInput, .empty (byteLength text)⟩] ∧
    ∀ t ∈ ts, t.kind ≠ .endOfInput ∧ t.span.start < t.span.stop
  slices : ∀ t ∈ tokens, t.span.slice text = some t.text.toList
  ordered : tokens.Pairwise fun t u => t.span.stop ≤ u.span.start
  gaps : ∀ g ∈ gaps 0 tokens, ∃ before gap after, text = before ++ (gap ++ after) ∧
    g = ⟨byteLength before, byteLength (before ++ gap)⟩ ∧ Ignored after gap

namespace Reader

theorem placePiece_eq (before : List Char) (p : Piece) :
    placePiece (byteLength before) p =
      ⟨p.lexeme, ⟨byteLength (before ++ p.gap), byteLength (before ++ p.gap ++ p.text)⟩⟩ := by
  simp only [placePiece, byteLength_append]

theorem mem_place (before : List Char) {ps : List Piece} {t : Token}
    (h : t ∈ place (byteLength before) ps) : ∃ front p back, ps = front ++ p :: back ∧
      t = placePiece (byteLength (before ++ textOf front)) p := by
  induction ps generalizing before with
  | nil => cases h
  | cons p ps ih =>
      rcases List.mem_cons.1 h with rfl | h
      · exact ⟨[], p, ps, rfl, by simp [textOf]⟩
      · rw [placePiece_eq] at h
        obtain ⟨front, q, back, rfl, rfl⟩ := ih _ h
        refine ⟨p :: front, q, back, rfl, ?_⟩
        rw [textOf_cons, Piece.whole, ← List.append_assoc, ← List.append_assoc]

theorem mem_gaps (before : List Char) {ps : List Piece} {g : Span}
    (h : g ∈ gaps (byteLength before) (place (byteLength before) ps)) :
    ∃ front p back, ps = front ++ p :: back ∧
      g = ⟨byteLength (before ++ textOf front), byteLength (before ++ textOf front ++ p.gap)⟩ := by
  induction ps generalizing before with
  | nil => cases h
  | cons p ps ih =>
      rw [place, gaps, placePiece_eq] at h
      rcases List.mem_cons.1 h with rfl | h
      · exact ⟨[], p, ps, rfl, by simp [textOf]⟩
      · obtain ⟨front, q, back, rfl, rfl⟩ := ih _ h
        refine ⟨p :: front, q, back, rfl, ?_⟩
        rw [textOf_cons, Piece.whole, ← List.append_assoc, ← List.append_assoc]

theorem pairwise_place (before : List Char) (ps : List Piece) :
    (place (byteLength before) ps).Pairwise fun t u => t.span.stop ≤ u.span.start := by
  induction ps generalizing before with
  | nil => exact .nil
  | cons p ps ih =>
      rw [place, placePiece_eq]
      refine List.pairwise_cons.2 ⟨fun u hu => ?_, ih _⟩
      obtain ⟨front, q, back, -, rfl⟩ := mem_place _ hu
      rw [placePiece_eq]
      simp only [byteLength_append]
      omega

/-- The place of the end of the input. -/
theorem place_endOfInput (before gap : List Char) :
    place (byteLength before) [⟨gap, .endOfInput, []⟩] =
      [⟨.endOfInput, .empty (byteLength (before ++ gap))⟩] := by
  rw [place, place, placePiece_eq, List.append_nil]
  rfl

/-- A lexeme behind some text, as a token. -/
def scanned (before : List Char) (s : Scan) : Token :=
  ⟨⟨s.kind, String.ofList s.text⟩, ⟨byteLength before, byteLength (before ++ s.text)⟩⟩

/-- A token is what is scanned where it starts, or the end of the input. -/
theorem mem_tokens (before : List Char) {rest : List Char} {t : Token}
    (h : t ∈ tokens ⟨byteLength before, rest⟩) :
    t = ⟨.endOfInput, .empty (byteLength (before ++ rest))⟩ ∨
      ∃ front c r, rest = front ++ c :: r ∧ t = scanned (before ++ front) (scan c r) := by
  induction rest using pieces_induction generalizing before with
  | ending rest gap hgap =>
      have hwhole := splitGap_append false rest
      rw [hgap, List.append_nil] at hwhole
      rw [tokens, pieces_of_end hgap, place_endOfInput, List.mem_singleton] at h
      rw [← hwhole]
      exact .inl h
  | piece rest gap c r hgap ih =>
      have hwhole := splitGap_append false rest
      have hscan : (scan c r).text ++ (scan c r).rest = c :: r := scan_whole c r
      rw [hgap] at hwhole
      rw [tokens, pieces_of_lexeme hgap, place, placePiece_eq] at h
      rcases List.mem_cons.1 h with rfl | h
      · exact .inr ⟨gap, c, r, hwhole.symm, rfl⟩
      · rcases ih _ h with rfl | ⟨front, d, ds, hrest, rfl⟩
        · left
          rw [List.append_assoc, List.append_assoc, hscan, hwhole]
        · refine .inr ⟨gap ++ (scan c r).text ++ front, d, ds, ?_, ?_⟩
          · rw [← hwhole, ← hscan, hrest]
            simp
          · simp only [List.append_assoc]

end Reader

/-! ### Tiles -/

/-- The tokens of a source tile it. -/
theorem tiles_tokenize (source : String) : Tiles source.toList (tokenize source) := by
  obtain ⟨ps, gap, hpieces, hkinds⟩ := pieces_split source.toList
  have htext := textOf_pieces source.toList
  have hplace : tokenize source = Reader.place (byteLength []) (pieces source.toList) := rfl
  have hcuts : ∀ {front p back}, pieces source.toList = front ++ p :: back →
      source.toList = textOf front ++ p.gap ++ (p.text ++ textOf back) := by
    intro front p back hcut
    rw [← htext, hcut, textOf_append, textOf_cons, Piece.whole]
    simp
  refine ⟨⟨Reader.place (byteLength []) ps, ?_, fun t ht => ?_⟩, fun t ht => ?_,
    Reader.pairwise_place [] _, fun g hg => ?_⟩
  · have hend : byteLength (textOf ps ++ gap) = byteLength source.toList := by
      rw [hcuts hpieces]
      simp [textOf]
    rw [hplace, hpieces, Reader.place_append, ← byteLength_append, Reader.place_endOfInput,
      List.nil_append, hend]
  · obtain ⟨front, p, back, rfl, rfl⟩ := Reader.mem_place [] ht
    have hkind := hkinds p (by simp)
    have hmem : p ∈ pieces source.toList := by
      rw [hpieces]
      simp
    have hpos := byteLength_pos (text_ne_nil_of_mem hmem hkind)
    refine ⟨hkind, ?_⟩
    rw [Reader.placePiece_eq]
    simp only [byteLength_append]
    omega
  · obtain ⟨front, p, back, hcut, rfl⟩ := Reader.mem_place [] ht
    rw [Reader.placePiece_eq, hcuts hcut, List.nil_append]
    show Span.slice _ _ = some (String.ofList p.text).toList
    rw [Span.slice_append, String.toList_ofList]
  · obtain ⟨front, p, back, hcut, rfl⟩ := Reader.mem_gaps [] hg
    refine ⟨textOf front, p.gap, p.text ++ textOf back, ?_, rfl, ignored_gap hcut⟩
    rw [hcuts hcut, List.append_assoc]

/-! ### Reading on -/

namespace Reader

/-- So many tokens, read one after the other. -/
def read : Nat → Reader → List Token
  | 0, _ => []
  | n + 1, r => r.next.1 :: read n r.next.2

theorem next_of_end {rest gap : List Char} (h : splitGap false rest = (gap, [])) (offset : Nat) :
    next ⟨offset, rest⟩ =
      (⟨.endOfInput, .empty (offset + byteLength rest)⟩, ⟨offset + byteLength rest, []⟩) := by
  have hgap : gap = rest := by
    have hwhole := splitGap_append false rest
    rwa [h, List.append_nil] at hwhole
  subst hgap
  have hnext : nextPiece gap = (⟨gap, .endOfInput, []⟩, []) := by
    unfold nextPiece
    rw [h]
  rw [next, hnext]
  rfl

/-- No byte of a source is lost between two tokens. -/
theorem next_total (r : Reader) :
    r.next.2.offset + byteLength r.next.2.rest = r.offset + byteLength r.rest := by
  have hwhole := congrArg byteLength (nextPiece_whole r.rest)
  simp only [Piece.whole, byteLength_append] at hwhole
  show r.offset + byteLength (nextPiece r.rest).1.gap + byteLength (nextPiece r.rest).1.text +
    byteLength (nextPiece r.rest).2 = _
  omega

theorem read_of_nil (n offset : Nat) :
    read n ⟨offset, []⟩ = List.replicate n ⟨.endOfInput, .empty offset⟩ := by
  induction n with
  | zero => rfl
  | succ n ih =>
      rw [read, next_of_end rfl, List.replicate_succ]
      exact congrArg _ ih

/-- Behind the end of the input, it is read again and again. -/
theorem read_tokens (r : Reader) (n : Nat) : r.read (r.tokens.length + n) =
    r.tokens ++ List.replicate n ⟨.endOfInput, .empty (r.offset + byteLength r.rest)⟩ := by
  obtain ⟨offset, rest⟩ := r
  induction rest using pieces_induction generalizing offset with
  | ending rest gap hgap =>
      have htokens : tokens ⟨offset, rest⟩ =
          [⟨.endOfInput, .empty (offset + byteLength rest)⟩] := by
        rw [tokens_eq, next_of_end hgap]
        rfl
      rw [htokens, List.length_singleton, Nat.add_comm, read, next_of_end hgap, read_of_nil]
      rfl
  | piece rest gap c r hgap ih =>
      have hrest : (next ⟨offset, rest⟩).2.rest = (scan c r).rest := by
        show (nextPiece rest).2 = _
        rw [nextPiece_of_lexeme hgap]
      have hkind : (next ⟨offset, rest⟩).1.kind ≠ .endOfInput := by
        show (nextPiece rest).1.kind ≠ _
        rw [nextPiece_of_lexeme hgap]
        exact scan_kind_ne_endOfInput c r
      have htotal := next_total ⟨offset, rest⟩
      have htail := ih (next ⟨offset, rest⟩).2.offset
      rw [← hrest] at htail
      rw [tokens_eq, if_neg hkind, List.length_cons, Nat.add_right_comm, read, List.cons_append,
        ← htotal]
      exact congrArg _ htail

end Reader

end GraphQL
