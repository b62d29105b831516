import GraphQL.Proofs.Key.Rescan
import GraphQL.Proofs.Lexer.Slices

/-!
The pieces of a key. They are the pieces of its text with gaps of one space at
most and strings of single spaces: a key has the lexemes of its text, and more
than that, it shows no more of the text than its pieces.
-/

namespace GraphQL

namespace TokenKind

/-- Kinds in which separators can stand. -/
def isQuoted : TokenKind → Bool
  | string => true
  | blockString => true
  | _ => false

/-- Kinds that have spaces around them in a key. -/
def isBrace : TokenKind → Bool
  | punctuator .braceOpen => true
  | punctuator .braceClose => true
  | _ => false

end TokenKind

namespace Key

open Lexer Text

/-! ### Characters that stand for themselves -/

/-- Neither ignored nor of any meaning to the reader of marks. -/
def Plain (c : Char) : Prop :=
  isSeparator c = false ∧ (c ≠ '{' ∧ c ≠ '}') ∧ c ≠ '#' ∧ c ≠ '"'

theorem marks_plain {c : Char} (h : Plain c) (cs : List Char) :
    marks .code (c :: cs) = .keep c :: marks .code cs := by
  obtain ⟨hs, hb, hh, hq⟩ := h
  rw [marks.eq_def]
  simp [hs, hb, hh, hq]

theorem marks_brace {c : Char} (h : c = '{' ∨ c = '}') (cs : List Char) :
    marks .code (c :: cs) = .gap :: .keep c :: .gap :: marks .code cs := by
  rw [marks.eq_def]
  rcases h with rfl | rfl
  · rfl
  · rfl

/-- Digits, letters and what stands between them in ASCII do not separate. -/
theorem isSeparator_of_toNat {c : Char} (h : 48 ≤ c.toNat ∧ c.toNat ≤ 122) :
    isSeparator c = false := by
  cases hs : isSeparator c with
  | false => rfl
  | true =>
      simp only [isSeparator, Bool.or_eq_true, beq_iff_eq] at hs
      rcases hs with (rfl | rfl) | hs
      · simp at h
      · simp [byteOrderMark] at h
      · simp [isWhiteSpace, whiteSpace] at hs
        omega

theorem isSeparator_of_joins {c : Char} (h : joins c = true) : isSeparator c = false := by
  simp only [joins, isNumberTail, Bool.or_eq_true, beq_iff_eq] at h
  rcases h with ((h | rfl) | rfl) | rfl
  · exact isSeparator_of_toNat (toNat_of_isNameChar h)
  · decide
  · decide
  · decide

theorem plain_of_joins {c : Char} (h : joins c = true) : Plain c := by
  refine ⟨isSeparator_of_joins h, ⟨?_, ?_⟩, ?_, ?_⟩
  all_goals
    rintro rfl
    cases h

theorem plain_of_ofChar? {c : Char} {p : Punctuator} (h : Punctuator.ofChar? c = some p)
    (hb : (TokenKind.punctuator p).isBrace = false) : Plain c := by
  unfold Punctuator.ofChar? at h
  split at h <;> cases h
  case h_1 => cases hb
  case h_2 => cases hb
  all_goals exact ⟨by decide, by decide, by decide, by decide⟩

/-! ### Texts written in code -/

/-- A text in code starts with a gap or with its first character. -/
theorem marks_head (c : Char) (cs : List Char) :
    (∃ ms, marks .code (c :: cs) = .gap :: ms) ∨ ∃ ms, marks .code (c :: cs) = .keep c :: ms := by
  rw [marks.eq_def]
  simp only
  split
  · exact .inl ⟨_, rfl⟩
  · split
    · exact .inl ⟨_, rfl⟩
    · split
      · exact .inl ⟨_, rfl⟩
      · split
        · rename_i hq
          subst hq
          refine .inr ?_
          split
          · exact ⟨_, rfl⟩
          · exact ⟨_, rfl⟩
          · exact ⟨_, rfl⟩
        · exact .inr ⟨_, rfl⟩

theorem after_head (cs : List Char) :
    ∀ d ∈ (after false cs).head?, d = ' ' ∨ cs.head? = some d := by
  cases cs with
  | nil => exact nofun
  | cons c cs =>
      rw [after]
      rcases marks_head c cs with ⟨ms, hms⟩ | ⟨ms, hms⟩
      · rw [hms]
        rcases writeAfter_true ms with hw | ⟨w, hw⟩
        · rw [writeAfter_gap, hw]
          exact nofun
        · rw [writeAfter_gap, hw]
          rintro d ⟨⟩
          exact .inl rfl
      · rw [hms]
        rintro d ⟨⟩
        exact .inr rfl

/-- Writing a text changes nothing that numbers and names can see. -/
theorem keeps_after : Keeps (fun _ => True) (after false) where
  joined c r _ hj := by
    refine ⟨?_, trivial⟩
    rw [after, marks_plain (plain_of_joins hj)]
    rfl
  stopped r _ hstop := by
    intro d hd
    rcases after_head r d hd with rfl | hr
    · decide
    · exact hstop d hr

/-! ### Lexemes -/

/-- What is neither a punctuator nor a string is a word that joins, or of no use. -/
theorem scan_word {c : Char} (hp : Punctuator.ofChar? c = none) (hq : c ≠ '"') (cs : List Char) :
    ((scan c cs).kind.isQuoted = false ∧ (scan c cs).kind.isBrace = false) ∧
      (joins c = true ∨ scan c cs = ⟨.invalid, [c], cs⟩) := by
  unfold scan
  rw [hp]
  simp only [if_neg hq]
  split
  · rename_i hdot
    subst hdot
    refine ⟨?_, .inl (by decide)⟩
    split
    · exact ⟨rfl, rfl⟩
    · exact ⟨rfl, rfl⟩
  · split
    · rename_i hnumber
      refine ⟨?_, .inl ?_⟩
      · rcases number_kind (c :: cs) with h | h | h <;> rw [h] <;> exact ⟨rfl, rfl⟩
      · rcases hnumber with rfl | hd
        · decide
        · exact joins_of_isDigit hd
    · split
      · rename_i hname
        refine ⟨?_, .inl (joins_of_isNameChar ?_)⟩
        · simp only [name, TokenKind.ofName]
          split <;> exact ⟨rfl, rfl⟩
        · simp only [isNameStart, isNameChar, Char.isAlphanum, Bool.or_eq_true] at hname ⊢
          exact hname.imp_left .inl
      · exact ⟨⟨rfl, rfl⟩, .inr rfl⟩

/-- The text of a lexeme in a key. -/
def tidyText (kind : TokenKind) (text : List Char) : List Char :=
  if kind.isQuoted then squeeze false text else text

/-- How a lexeme is written: its first character, and the marks after it. Written
out, they are the lexeme again. -/
def Written (c : Char) (r : List Char) (s : Scan) : Prop :=
  ∃ ms, marks .code (c :: r) = (if s.kind.isBrace then [.gap] else []) ++ .keep c :: ms ∧
    scan c (writeAfter false ms) =
      ⟨s.kind, tidyText s.kind s.text, after s.kind.isBrace s.rest⟩

theorem written_punctuator {c : Char} {p : Punctuator} (h : Punctuator.ofChar? c = some p)
    (r : List Char) : Written c r (scan c r) := by
  rw [scan_punctuator h]
  cases hb : (TokenKind.punctuator p).isBrace with
  | true =>
      have hc : c = '{' ∨ c = '}' := by
        unfold Punctuator.ofChar? at h
        split at h <;> cases h
        case h_1 => exact .inl rfl
        case h_2 => exact .inr rfl
        all_goals cases hb
      refine ⟨.gap :: marks .code r, ?_, ?_⟩
      · rw [marks_brace hc, hb]
        rfl
      · rw [scan_punctuator h, hb]
        rfl
  | false =>
      refine ⟨marks .code r, ?_, ?_⟩
      · rw [marks_plain (plain_of_ofChar? h hb), hb]
        rfl
      · rw [scan_punctuator h, hb]
        rfl

theorem written_word {c : Char} {r : List Char} (hp : Punctuator.ofChar? c = none) (hq : c ≠ '"')
    (hh : c ≠ '#') (hreg : Lexeme.Regular ⟨(scan c r).kind, String.ofList (scan c r).text⟩) :
    Written c r (scan c r) := by
  obtain ⟨⟨hquoted, hbrace⟩, hword⟩ := scan_word hp hq r
  have hplain : Plain c := by
    rcases hword with hj | hinvalid
    · exact plain_of_joins hj
    · refine ⟨?_, ⟨?_, ?_⟩, hh, hq⟩
      · rw [hinvalid] at hreg
        exact hreg c (by simp)
      · rintro rfl
        cases hp
      · rintro rfl
        cases hp
  refine ⟨marks .code r, ?_, ?_⟩
  · rw [marks_plain hplain, hbrace]
    rfl
  · show scan c (after false r) = _
    rw [keeps_after.scan trivial (fun _ => trivial) hp hq, tidyText, hquoted, hbrace]
    rfl

/-- A string ends in a quote, behind which no space is due. -/
theorem string_writeAfter {cs x r : List Char} (h : string cs = ⟨.string, x, r⟩) (ms : List Mark) :
    writeAfter false (x.map markOf ++ ms) = squeeze false x ++ writeAfter false ms := by
  obtain ⟨y, -, rfl⟩ := enclosed_of_string h
  rw [squeeze, List.map_append]
  exact writeAfter_append_keep false (y.map markOf) '"' ms

theorem blockString_writeAfter {cs x r : List Char} (h : blockString cs = ⟨.blockString, x, r⟩)
    (ms : List Mark) :
    writeAfter false (x.map markOf ++ ms) = squeeze false x ++ writeAfter false ms := by
  obtain ⟨y, rfl⟩ := quotes_of_blockString h
  have hlast : y ++ ['"', '"', '"'] = (y ++ ['"', '"']) ++ ['"'] := by simp
  rw [hlast, squeeze, List.map_append]
  exact writeAfter_append_keep false ((y ++ ['"', '"']).map markOf) '"' ms

theorem marks_quote_block (cs : List Char) :
    marks .code ('"' :: '"' :: '"' :: cs) =
      .keep '"' :: .keep '"' :: .keep '"' :: marks .block cs := by
  rw [marks.eq_def]
  rfl

/-- An empty string is read at once, which makes no difference. -/
theorem marks_quote_string {cs : List Char} (h : ¬['"', '"'] <+: cs) :
    marks .code ('"' :: cs) = .keep '"' :: marks .string cs := by
  rcases head_cases '"' cs with hcs | ⟨ds, rfl⟩
  · cases cs with
    | nil => rfl
    | cons d ds =>
        rw [marks.eq_def]
        simp [show isSeparator '"' = false from by decide, hcs d rfl]
  · rw [marks_string_quote]
    cases ds with
    | nil => rfl
    | cons e es =>
        have he : e ≠ '"' := by
          rintro rfl
          exact h ⟨es, rfl⟩
        rw [marks.eq_def]
        simp [show isSeparator '"' = false from by decide, he]

theorem written_block {r y rest : List Char} (h : blockString r = ⟨.blockString, y, rest⟩)
    (hreg : ¬['\\', '"', '"', '"', '"'] <:+: y) :
    Written '"' ('"' :: '"' :: r) ⟨.blockString, ['"', '"', '"'] ++ y, rest⟩ := by
  refine ⟨.keep '"' :: .keep '"' :: marks .block r, marks_quote_block r, ?_⟩
  rw [marks_blockString h hreg, writeAfter_keep, writeAfter_keep, blockString_writeAfter h]
  show (blockString (squeeze false y ++ after false rest)).prepend _ = _
  rw [blockString_squeeze h]
  rfl

theorem written_string {r y rest : List Char} (hr : ¬['"', '"'] <+: r)
    (h : string r = ⟨.string, y, rest⟩) (hreg : ∀ c ∈ y, isLineEnd c = false) :
    Written '"' r ⟨.string, ['"'] ++ y, rest⟩ := by
  refine ⟨marks .string r, marks_quote_string hr, ?_⟩
  rw [marks_string h hreg, string_writeAfter h]
  have hstring := string_squeeze h false (after false rest)
  -- No block string has come about.
  have hnot : ¬['"', '"'] <+: squeeze false y ++ after false rest := by
    rintro ⟨t, ht⟩
    rw [← ht] at hstring
    obtain ⟨-, hy, hrest⟩ := Scan.mk.inj ((string_quote ('"' :: t)).symm.trans hstring)
    have hfront : ['"'] <+: y := prefix_of_prefix_squeeze (by simp) ⟨[], hy⟩
    obtain ⟨z, rfl⟩ := hfront
    obtain rfl := eq_append_of_string h
    obtain ⟨-, hz, -⟩ := Scan.mk.inj ((string_quote (z ++ rest)).symm.trans h)
    rcases after_head rest '"' (by rw [← hrest]; rfl) with hspace | hhead
    · cases hspace
    · cases rest with
      | nil => cases hhead
      | cons d rest =>
          cases hhead
          cases hz
          exact hr ⟨rest, rfl⟩
  show scan '"' (squeeze false y ++ after false rest) = _
  rw [scan_quote_string hnot, hstring]
  rfl

theorem written_quote {r : List Char}
    (hreg : Lexeme.Regular ⟨(scan '"' r).kind, String.ofList (scan '"' r).text⟩) :
    Written '"' r (scan '"' r) := by
  by_cases hblock : ['"', '"'] <+: r
  · obtain ⟨r, rfl⟩ := hblock
    rw [List.cons_append, List.singleton_append, scan_quote_block] at hreg ⊢
    have hkind := blockString_kind r
    cases hs : blockString r with
    | mk kind y rest =>
        rw [hs] at hreg hkind
        rcases hkind with rfl | rfl
        · refine written_block hs fun hin => hreg ?_
          rw [String.toList_ofList]
          exact hin.trans (List.suffix_append _ y).isInfix
        · exact hreg.elim
  · rw [scan_quote_string hblock] at hreg ⊢
    have hkind := string_kind r
    cases hs : string r with
    | mk kind y rest =>
        rw [hs] at hreg hkind
        rcases hkind with rfl | rfl
        · refine written_string hblock hs fun c hc => hreg c ?_
          rw [String.toList_ofList]
          exact List.mem_append_right _ hc
        · exact hreg.elim

/-- Every regular lexeme is read as marks and written as a lexeme. -/
theorem written_of_regular {c : Char} {r : List Char} (hh : c ≠ '#')
    (hreg : Lexeme.Regular ⟨(scan c r).kind, String.ofList (scan c r).text⟩) :
    Written c r (scan c r) := by
  cases hp : Punctuator.ofChar? c with
  | some p => exact written_punctuator hp r
  | none =>
      by_cases hq : c = '"'
      · subst hq
        exact written_quote hreg
      · exact written_word hp hq hh hreg

/-! ### Pieces -/

/-- The pieces of a key: a gap is a space, and there is one where a gap was or a
brace is at hand. -/
def tidy (due : Bool) : List Piece → List Piece
  | [] => []
  | p :: ps =>
      if p.kind = .endOfInput then [endPiece]
      else
        ⟨space (due || !p.gap.isEmpty || p.kind.isBrace), p.kind, tidyText p.kind p.text⟩ ::
          tidy p.kind.isBrace ps

theorem tidy_cons {p : Piece} (hp : p.kind ≠ .endOfInput) (due : Bool) (ps : List Piece) :
    tidy due (p :: ps) =
      ⟨space (due || !p.gap.isEmpty || p.kind.isBrace), p.kind, tidyText p.kind p.text⟩ ::
        tidy p.kind.isBrace ps := if_neg hp

theorem writeAfter_replicate (due : Bool) (n : Nat) (ms : List Mark) :
    writeAfter due (List.replicate n .gap ++ ms) = writeAfter (due || n != 0) ms := by
  induction n generalizing due with
  | zero => rw [List.replicate_zero, List.nil_append, bne_self_eq_false, Bool.or_false]
  | succ n ih =>
      rw [List.replicate_succ, List.cons_append, writeAfter_gap, ih, Bool.true_or]
      simp

theorem write_replicate (n : Nat) (ms : List Mark) :
    write (List.replicate n .gap ++ ms) = write ms := by
  induction n with
  | zero => rfl
  | succ n ih => exact ih

/-- A text is a gap and a lexeme, and so is what is written for it. -/
theorem written_of_splitGap {cs gap r : List Char} {c : Char}
    (h : splitGap false cs = (gap, c :: r))
    (hreg : Lexeme.Regular ⟨(scan c r).kind, String.ofList (scan c r).text⟩) :
    ∃ w, scan c w = ⟨(scan c r).kind, tidyText (scan c r).kind (scan c r).text,
        after (scan c r).kind.isBrace (scan c r).rest⟩ ∧
      ofText cs = c :: w ∧
      ∀ due, after due cs = space (due || !gap.isEmpty || (scan c r).kind.isBrace) ++ c :: w := by
  -- A comment belongs to the gap.
  have hh : c ≠ '#' := by
    rintro rfl
    cases splitGap_at_lexeme h r
  obtain ⟨n, hmarks, hn⟩ := marks_splitGap h
  obtain ⟨ms, hms, hscan⟩ := written_of_regular hh hreg
  have hgap : (n != 0) = !gap.isEmpty := by
    rw [bne, Bool.not_inj_iff, Bool.eq_iff_iff, beq_iff_eq, List.isEmpty_iff]
    exact hn rfl
  have hcode : marks .code cs = List.replicate n .gap ++ marks .code (c :: r) := hmarks
  refine ⟨writeAfter false ms, hscan, ?_, fun due => ?_⟩
  · rw [ofText, hcode, write_replicate, hms]
    cases (scan c r).kind.isBrace <;> rfl
  · rw [after, hcode, writeAfter_replicate, hms, hgap]
    cases (scan c r).kind.isBrace with
    | true =>
        rw [Bool.or_true]
        rfl
    | false =>
        rw [Bool.or_false]
        exact writeAfter_keep _ c ms

theorem splitGap_space {c : Char} {w : List Char} (h : splitGap false (c :: w) = ([], c :: w))
    (due : Bool) : splitGap false (space due ++ c :: w) = (space due, c :: w) := by
  cases due with
  | true =>
      show (' ' :: (splitGap false (c :: w)).1, (splitGap false (c :: w)).2) = _
      rw [h]
      rfl
  | false => exact h

section
variable {cs gap r : List Char} {c : Char} (h : splitGap false cs = (gap, c :: r))
  (hreg : Lexeme.Regular ⟨(scan c r).kind, String.ofList (scan c r).text⟩)
include h hreg

/-- What is written for a text starts with the first lexeme, behind the space for its gap. -/
theorem pieces_after_lexeme (due : Bool) :
    pieces (after due cs) =
      ⟨space (due || !gap.isEmpty || (scan c r).kind.isBrace), (scan c r).kind,
          tidyText (scan c r).kind (scan c r).text⟩ ::
        pieces (after (scan c r).kind.isBrace (scan c r).rest) := by
  obtain ⟨w, hscan, -, hafter⟩ := written_of_splitGap h hreg
  rw [hafter due, pieces_of_lexeme (splitGap_space (splitGap_at_lexeme h w) _), hscan]

/-- A key starts with the first lexeme. -/
theorem pieces_ofText_lexeme :
    pieces (ofText cs) =
      ⟨[], (scan c r).kind, tidyText (scan c r).kind (scan c r).text⟩ ::
        pieces (after (scan c r).kind.isBrace (scan c r).rest) := by
  obtain ⟨w, hscan, hkey, -⟩ := written_of_splitGap h hreg
  rw [hkey, pieces_of_lexeme (splitGap_at_lexeme h w), hscan]

end

/-- The pieces of what is written for a text. -/
theorem pieces_after {cs : List Char} (hreg : ∀ p ∈ pieces cs, p.lexeme.Regular) (due : Bool) :
    pieces (after due cs) = tidy due (pieces cs) := by
  induction cs using pieces_induction generalizing due with
  | ending cs gap hgap =>
      obtain ⟨n, hmarks, -⟩ := marks_splitGap hgap
      have hcode : marks .code cs = List.replicate n .gap ++ [] := hmarks
      rw [after, hcode, writeAfter_replicate, pieces_of_end hgap]
      exact pieces_of_end rfl
  | piece cs gap c r hgap ih =>
      rw [pieces_of_lexeme hgap] at hreg ⊢
      obtain ⟨hfirst, hrest⟩ := List.forall_mem_cons.1 hreg
      rw [pieces_after_lexeme hgap hfirst, ih hrest, tidy_cons (scan_kind_ne_endOfInput c r)]

/-- The pieces of a key. -/
theorem pieces_ofText {cs : List Char} (hreg : ∀ p ∈ pieces cs, p.lexeme.Regular) :
    pieces (ofText cs) = unlead (tidy false (pieces cs)) := by
  cases hsplit : splitGap false cs with
  | mk gap rest =>
      cases rest with
      | nil =>
          obtain ⟨n, hmarks, -⟩ := marks_splitGap hsplit
          have hcode : marks .code cs = List.replicate n .gap ++ [] := hmarks
          rw [ofText, hcode, write_replicate, pieces_of_end hsplit]
          exact pieces_of_end rfl
      | cons c r =>
          rw [pieces_of_lexeme hsplit] at hreg ⊢
          obtain ⟨hfirst, hrest⟩ := List.forall_mem_cons.1 hreg
          rw [pieces_ofText_lexeme hsplit hfirst, pieces_after hrest,
            tidy_cons (scan_kind_ne_endOfInput c r)]
          rfl

end Key
end GraphQL
