import GraphQL.Proofs.Lexer.Malformed
import GraphQL.Proofs.Lexer.Places

/-!
Two texts put together. Where no lexeme and no comment goes on from the first text
into the second one, the lexemes are those of the first text and then those of the
second. A line end between the texts is always enough for that, unless a string is
left open.
-/

namespace GraphQL.Lexer

open Text

/-- No lexeme grows over the place where two texts meet: the characters there do not
join, and are not two quotes. -/
def Apart (x y : List Char) : Prop :=
  ∀ c ∈ x.getLast?, ∀ d ∈ y.head?, (joins c = true → joins d = false) ∧ (c = '"' → d ≠ '"')

/-- Is a comment open behind a text? The flag tells whether one is in front of it. -/
def commentAfter (inComment : Bool) (cs : List Char) : Bool :=
  cs.foldl (fun inside c => if inside then !isLineEnd c else c == '#') inComment

theorem commentAfter_cons (inComment : Bool) (c : Char) (cs : List Char) :
    commentAfter inComment (c :: cs) =
      commentAfter (if inComment then !isLineEnd c else c == '#') cs := rfl

/-- Nothing of a text goes into a comment that was opened in front of it. -/
def StartsLine (cs : List Char) : Prop := ∀ c ∈ cs.head?, isLineEnd c = true

theorem Apart.of_append {front x y : List Char} (h : Apart (front ++ x) y) : Apart x y := by
  intro c hc
  refine h c ?_
  rw [List.getLast?_append, Option.mem_def.1 hc]
  rfl

theorem joins_of_isLineEnd {c : Char} (h : isLineEnd c = true) : joins c = false ∧ c ≠ '"' := by
  have hc : c = '\n' ∨ c = '\r' := by simpa [isLineEnd] using h
  rcases hc with rfl | rfl <;> decide

theorem StartsLine.apart {y : List Char} (h : StartsLine y) (x : List Char) : Apart x y :=
  fun _ _ d hd => (joins_of_isLineEnd (h d hd)).imp (fun hj _ => hj) fun hq _ => hq

/-! ### Lexemes in front of another text -/

/-- Either the second text stops numbers and names, or the first one does at its end. -/
def Halts (y x : List Char) : Prop :=
  ∀ d ∈ y.head?, joins d = false ∨ ∃ c ∈ x.getLast?, joins c = false

theorem keeps_halts (y : List Char) : Keeps (Halts y) (· ++ y) where
  joined c r h hj := by
    refine ⟨rfl, fun d hd => (h d hd).imp_right ?_⟩
    rintro ⟨e, he, hstop⟩
    cases r with
    | nil =>
        obtain rfl : c = e := by simpa using he
        rw [hj] at hstop
        cases hstop
    | cons f fs => exact ⟨e, by rwa [List.getLast?_cons_cons] at he, hstop⟩
  stopped r h hr := by
    cases r with
    | nil => exact fun d hd => (h d hd).resolve_right fun ⟨_, he, _⟩ => nomatch he
    | cons c cs => exact hr

theorem Apart.halts {c : Char} {r y : List Char} (h : Apart (c :: r) y) : Halts y (c :: r) := by
  intro d hd
  obtain ⟨e, he⟩ : ∃ e, (c :: r).getLast? = some e := ⟨_, List.getLast?_cons⟩
  cases hj : joins e with
  | true => exact .inl ((h e he d hd).1 hj)
  | false => exact .inr ⟨e, he, hj⟩

/-- A character that joins nothing is no part of a longer lexeme. -/
theorem scan_of_joins_eq_false {c : Char} (hp : Punctuator.ofChar? c = none) (hq : c ≠ '"')
    (hj : joins c = false) (r : List Char) : scan c r = ⟨.invalid, [c], r⟩ := by
  have hdot : c ≠ '.' := by
    rintro rfl
    cases hj
  have hnumber : ¬(c = '-' ∨ c.isDigit = true) := by
    rintro (rfl | hd)
    · cases hj
    · rw [joins_of_isDigit hd] at hj
      cases hj
  have hname : ¬isNameStart c = true := by
    intro hc
    have hchar : isNameChar c = true := by
      simp only [isNameStart, isNameChar, Char.isAlphanum, Bool.or_eq_true] at hc ⊢
      exact hc.imp_left .inl
    rw [joins_of_isNameChar hchar] at hj
    cases hj
  unfold scan
  rw [hp]
  simp only [if_neg hdot, if_neg hq, if_neg hnumber, if_neg hname]

/-- A string that is closed is the same in front of another text, if that does not
make its two quotes three. -/
theorem scan_quote_append {r y : List Char} (h : Apart ('"' :: r) y)
    (hk : (scan '"' r).kind ≠ .unterminated) :
    scan '"' (r ++ y) = (scan '"' r).mapRest (· ++ y) := by
  by_cases hblock : ['"', '"'] <+: r
  · obtain ⟨r, rfl⟩ := hblock
    have hkind := (blockString_kind r).resolve_right hk
    obtain ⟨k, x, rest, hx⟩ : ∃ k x rest, blockString r = ⟨k, x, rest⟩ := ⟨_, _, _, rfl⟩
    obtain rfl : k = .blockString := by rwa [hx] at hkind
    show (blockString (r ++ y)).prepend _ = Scan.mapRest _ ((blockString r).prepend _)
    rw [hx, eq_append_of_blockString hx, List.append_assoc, blockString_append hx]
    rfl
  · have hlong : ¬['"', '"'] <+: r ++ y := by
      rintro ⟨t, ht⟩
      match r, ht with
      | [], ht =>
          cases ht
          exact (h '"' rfl '"' rfl).2 rfl rfl
      | [d], ht =>
          obtain ⟨rfl, ht⟩ := List.cons.inj ht
          cases ht
          exact (h '"' rfl '"' rfl).2 rfl rfl
      | d :: e :: r, ht =>
          cases ht
          exact hblock ⟨r, rfl⟩
    rw [scan_quote_string hblock] at hk
    have hkind := (string_kind r).resolve_right hk
    obtain ⟨k, x, rest, hx⟩ : ∃ k x rest, string r = ⟨k, x, rest⟩ := ⟨_, _, _, rfl⟩
    obtain rfl : k = .string := by rwa [hx] at hkind
    rw [scan_quote_string hlong, scan_quote_string hblock, hx, eq_append_of_string hx,
      List.append_assoc, string_append hx]
    rfl

theorem scan_append {c : Char} {r y : List Char} (h : Apart (c :: r) y)
    (hk : (scan c r).kind ≠ .unterminated) : scan c (r ++ y) = (scan c r).mapRest (· ++ y) := by
  cases hp : Punctuator.ofChar? c with
  | some p =>
      unfold scan
      rw [hp]
      rfl
  | none =>
      by_cases hq : c = '"'
      · subst hq
        exact scan_quote_append h hk
      · cases hj : joins c with
        | true =>
            have hr := ((keeps_halts y).joined c r h.halts hj).2
            exact (keeps_halts y).scan hr (fun _ => h.halts) hp hq
        | false =>
            rw [scan_of_joins_eq_false hp hq hj, scan_of_joins_eq_false hp hq hj]
            rfl

/-! ### Gaps in front of another text -/

theorem splitGap_append_of_cons {inComment : Bool} {x gap r : List Char} {c : Char}
    (h : splitGap inComment x = (gap, c :: r)) (y : List Char) :
    splitGap inComment (x ++ y) = (gap, c :: (r ++ y)) := by
  have hx := splitGap_append inComment x
  rw [h] at hx
  rw [← hx, List.append_assoc]
  exact splitGap_of_cons h (r ++ y)

theorem splitGap_startsLine {y : List Char} (h : StartsLine y) :
    splitGap true y = splitGap false y := by
  cases y with
  | nil => rfl
  | cons d ds =>
      have hd : isLineEnd d = true := h d rfl
      have hignored : isIgnored d = true := by simp [isIgnored, hd]
      rw [splitGap_inside, splitGap_ignored hignored, hd]
      rfl

/-- A gap goes on with the gap of the next text, unless that would be in a comment. -/
theorem splitGap_append_of_nil {inComment : Bool} {x gap y : List Char}
    (h : splitGap inComment x = (gap, [])) (hy : commentAfter inComment x = true → StartsLine y) :
    splitGap inComment (x ++ y) = (gap ++ (splitGap false y).1, (splitGap false y).2) := by
  induction inComment, x, gap, h using splitGap_induction with
  | nil inComment _ _ =>
      cases inComment with
      | false => rfl
      | true => exact splitGap_startsLine (hy rfl)
  | inside c cs gap _ _ ih =>
      rw [List.cons_append, splitGap_inside, ih hy]
      rfl
  | ignored c cs gap hc _ _ ih =>
      have hhash : (c == '#') = false := by
        refine beq_false_of_ne ?_
        rintro rfl
        cases hc
      rw [commentAfter_cons, if_neg Bool.false_ne_true, hhash] at hy
      rw [List.cons_append, splitGap_ignored hc, ih hy]
      rfl
  | hash cs gap _ _ ih =>
      rw [List.cons_append, splitGap_hash, ih hy]
      rfl
  | lexeme _ _ _ _ hrest _ => cases hrest

/-! ### Pieces -/

/-- Pieces with more in front of the first gap. -/
def lead (front : List Char) : List Piece → List Piece
  | [] => []
  | p :: ps => { p with gap := front ++ p.gap } :: ps

@[simp] theorem lead_unlead (p : Piece) (ps : List Piece) :
    lead p.gap (unlead (p :: ps)) = p :: ps := by
  simp [lead, unlead]

/-- The pieces of two texts that stay apart. -/
theorem pieces_append {x y gap : List Char} {ps : List Piece}
    (h : pieces x = ps ++ [⟨gap, .endOfInput, []⟩]) (hps : ∀ p ∈ ps, p.kind ≠ .unterminated)
    (hapart : Apart x y) (hcomment : commentAfter false gap = true → StartsLine y) :
    pieces (x ++ y) = ps ++ lead gap (pieces y) := by
  induction x using pieces_induction generalizing ps with
  | ending x g hg =>
      have hx : g = x := by
        have happend := splitGap_append false x
        rw [hg] at happend
        simpa using happend
      rw [pieces_of_end hg] at h
      obtain ⟨rfl, hend⟩ := List.append_eq_singleton_iff.1 h.symm |>.resolve_right
        fun hne => nomatch hne.2
      obtain rfl : gap = g := by simpa using hend
      have hgap := splitGap_append_of_nil hg (hx ▸ hcomment)
      cases hy : splitGap false y with
      | mk g' rest =>
          rw [hy] at hgap
          cases rest with
          | nil =>
              rw [pieces_of_end hgap, pieces_of_end hy]
              rfl
          | cons c r =>
              rw [pieces_of_lexeme hgap, pieces_of_lexeme hy]
              rfl
  | piece x g c r hg ih =>
      rw [pieces_of_lexeme hg] at h
      cases ps with
      | nil => exact absurd (List.cons.inj h).2 (pieces_ne_nil _)
      | cons p ps =>
          obtain ⟨rfl, hrest⟩ := List.cons.inj h
          have hx : g ++ c :: r = x := by
            have happend := splitGap_append false x
            rwa [hg] at happend
          have hscan : scan c (r ++ y) = (scan c r).mapRest (· ++ y) := by
            refine scan_append ?_ (hps _ List.mem_cons_self)
            rw [← hx] at hapart
            exact hapart.of_append
          have hapart' : Apart (scan c r).rest y := by
            have hwhole : (scan c r).text ++ (scan c r).rest = c :: r := scan_whole c r
            rw [← hx, ← hwhole, ← List.append_assoc] at hapart
            exact hapart.of_append
          rw [pieces_of_lexeme (splitGap_append_of_cons hg y), hscan, List.cons_append]
          refine congrArg _ (ih hrest ?_ hapart')
          exact fun q hq => hps q (List.mem_cons_of_mem _ hq)

/-- A line end is a gap on its own. -/
theorem pieces_cons_lineEnd {c : Char} (hc : isLineEnd c = true) (y : List Char) :
    pieces (c :: y) = lead [c] (pieces y) := by
  have hgap : splitGap false [c] = ([c], []) := by
    simp [splitGap, isIgnored, hc]
  have hhash : commentAfter false [c] = false := by
    refine beq_false_of_ne ?_
    rintro rfl
    cases hc
  obtain ⟨hjoins, hquote⟩ := joins_of_isLineEnd hc
  have hapart : Apart [c] y := by
    rintro d ⟨⟩ e -
    exact ⟨fun hj => absurd hj (Bool.eq_false_iff.1 hjoins), fun hq => absurd hq hquote⟩
  refine pieces_append (pieces_of_end hgap) (List.forall_mem_nil _) hapart fun hopen => ?_
  rw [hhash] at hopen
  cases hopen

end GraphQL.Lexer

namespace GraphQL

open Lexer Text

/-! ### Tokens -/

/-- Moves a token to the right. -/
def Token.shift (t : Token) (n : Nat) : Token := ⟨t.toLexeme, t.span.shift n⟩

namespace Reader

theorem place_add (offset n : Nat) (ps : List Piece) :
    place (offset + n) ps = (place offset ps).map (·.shift n) := by
  induction ps generalizing offset with
  | nil => rfl
  | cons p ps ih =>
      have hpiece : placePiece (offset + n) p = (placePiece offset p).shift n := by
        simp only [placePiece, Token.shift, Span.shift, Token.mk.injEq, Span.mk.injEq, true_and]
        omega
      rw [place, place, List.map_cons, hpiece]
      exact congrArg _ (ih _)

theorem place_lead (offset : Nat) (front : List Char) (ps : List Piece) :
    place offset (lead front ps) = place (offset + byteLength front) ps := by
  cases ps with
  | nil => rfl
  | cons p ps =>
      have hpiece : placePiece offset { p with gap := front ++ p.gap } =
          placePiece (offset + byteLength front) p := by
        simp only [placePiece, Piece.lexeme, byteLength_append, Nat.add_assoc]
      rw [lead, place, place, hpiece]

end Reader

/-- The tokens of two texts that stay apart: those of the second one are behind the whole
first one. -/
theorem place_pieces_append {x y gap : List Char} {ps : List Piece}
    (h : pieces x = ps ++ [⟨gap, .endOfInput, []⟩]) (hps : ∀ p ∈ ps, p.kind ≠ .unterminated)
    (hapart : Apart x y) (hcomment : commentAfter false gap = true → StartsLine y) :
    Reader.place 0 (pieces (x ++ y)) = (Reader.place 0 (pieces x)).dropLast ++
      (Reader.place 0 (pieces y)).map (·.shift (byteLength x)) := by
  have hx : textOf ps ++ gap = x := by
    rw [← textOf_pieces x, h, textOf_append]
    simp [textOf, Piece.whole]
  have hend : Reader.place (0 + byteLength (textOf ps)) [⟨gap, .endOfInput, []⟩] =
      [Reader.placePiece (0 + byteLength (textOf ps)) ⟨gap, .endOfInput, []⟩] := rfl
  rw [pieces_append h hps hapart hcomment, h, Reader.place_append, Reader.place_append, hend,
    List.dropLast_concat, Reader.place_lead, Nat.add_assoc, ← byteLength_append, hx,
    Reader.place_add]

/-- With a line end between them two sources stay apart, whatever they are made of. -/
theorem tokenize_append {a b : String}
    (ha : ∀ l ∈ lexemes a, l.kind ≠ .unterminated) :
    tokenize (a ++ "\n" ++ b) =
      (tokenize a).dropLast ++ (tokenize b).map (·.shift (a.utf8ByteSize + 1)) := by
  obtain ⟨ps, gap, hpieces, -⟩ := pieces_split a.toList
  have hps : ∀ p ∈ ps, p.kind ≠ .unterminated := by
    intro p hp
    refine ha p.lexeme ?_
    rw [lexemes, lexemes_of_split hpieces]
    exact List.mem_map_of_mem hp
  have hstarts : StartsLine ('\n' :: b.toList) := by
    rintro c ⟨⟩
    rfl
  have hline : Reader.place 0 (pieces ('\n' :: b.toList)) = (tokenize b).map (·.shift 1) := by
    rw [pieces_cons_lineEnd rfl, Reader.place_lead, Reader.place_add]
    rfl
  have htext : (a ++ "\n" ++ b).toList = a.toList ++ '\n' :: b.toList := by simp
  show Reader.place 0 (pieces (a ++ "\n" ++ b).toList) = _
  rw [htext, place_pieces_append hpieces hps (hstarts.apart _) fun _ => hstarts, hline,
    List.map_map, byteLength_toList]
  refine congrArg _ (List.map_congr_left fun t _ => ?_)
  simp only [Function.comp_apply, Token.shift, Span.shift, Token.mk.injEq, Span.mk.injEq, true_and]
  omega

theorem lexemes_append_line {a b : String} (ha : ∀ l ∈ lexemes a, l.kind ≠ .unterminated) :
    lexemes (a ++ "\n" ++ b) = lexemes a ++ lexemes b := by
  have hne : (tokenize b).map (·.shift (a.utf8ByteSize + 1)) ≠ [] := by
    intro hnil
    have hmap := map_toLexeme_tokenize_append b
    rw [List.map_eq_nil_iff.1 hnil] at hmap
    exact List.append_ne_nil_of_right_ne_nil _ (List.cons_ne_nil _ _) hmap.symm
  rw [← map_toLexeme_tokenize, tokenize_append ha, List.dropLast_append_of_ne_nil hne,
    List.map_append, map_toLexeme_tokenize, ← List.map_dropLast, List.map_map,
    ← map_toLexeme_tokenize b]
  rfl

end GraphQL
