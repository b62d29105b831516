import GraphQL.Proofs.Key.Tokens
import GraphQL.Proofs.Lexer.Seams

/-!
Keys of texts put together. Where a gap lies between two texts, the key of both is
the key of the one and the key of the other with a space between them. So a text may
be exchanged there for another one with its key. Quotes are left out here: a string
may go from one text into the other.
-/

namespace GraphQL.Key

open Text Lexer

/-- Texts without quotes, in which all white space is blanks, tabs and line ends. -/
def Bare (s : String) : Prop :=
  ∀ c ∈ s.toList, c ≠ '"' ∧ (isWhiteSpace c = true → c = ' ' ∨ c = '\t' ∨ c = '\r' ∨ c = '\n')

instance (s : String) : Decidable (Bare s) :=
  List.decidableBAll _ s.toList

namespace Bare

variable {s t : String}

theorem append (hs : Bare s) (ht : Bare t) : Bare (s ++ t) := by
  intro c hc
  rw [String.toList_append, List.mem_append] at hc
  exact hc.elim (hs c) (ht c)

theorem quote_not_mem (hs : Bare s) : '"' ∉ s.toList := fun h => (hs _ h).1 rfl

/-- A key shows all lexemes of the text as they stand. -/
theorem unaltered (hs : Bare s) : ∀ l ∈ lexemes s, l.Unaltered := by
  intro l hl
  obtain ⟨c, r, ⟨front, hfront⟩, hc, rfl⟩ := unignored_of_mem_lexemes hl
  obtain ⟨hq, hwhite⟩ : c ≠ '"' ∧ _ := hs c (by rw [← hfront]; simp)
  have hkind : (scan c r).kind ≠ .blockString ∧ (scan c r).kind ≠ .unterminated ∧
      (scan c r).kind ≠ .string := by
    unfold scan
    simp only [if_neg hq]
    split
    · simp
    · split
      · split
        · simp
        · simp
      · split
        · rcases number_kind (c :: r) with h | h | h
          · simp [h]
          · simp [h]
          · simp [h]
        · split
          · simp only [name, TokenKind.ofName]
            split
            · simp
            · simp
          · simp
  refine ⟨hkind.1, hkind.2.1, fun h => absurd h hkind.2.2, fun _ => ?_⟩
  -- The white space of such a text is ignored, so that no lexeme starts with it.
  obtain ⟨x, hx, -⟩ := scan_text_eq_cons c r
  rw [Lexeme.isWhiteSpace, String.toList_ofList, hx]
  cases x with
  | cons d x => rfl
  | nil =>
      cases hspace : isWhiteSpace c with
      | false => exact hspace
      | true =>
          rcases hwhite hspace with rfl | rfl | rfl | rfl
          all_goals cases hc

theorem regular (hs : Bare s) : Regular s :=
  fun l hl => regular_of_unaltered hl (hs.unaltered l hl)

/-- Texts with one key have the same lexemes. -/
theorem lexemes_eq (hs : Bare s) (ht : Bare t) (hkey : ofSource s = ofSource t) :
    GraphQL.lexemes s = GraphQL.lexemes t := by
  rw [← lexemes_ofSource hs.unaltered, hkey, lexemes_ofSource ht.unaltered]

end Bare

/-! ### Marks with a gap between them -/

/-- Two texts with a space between them, if both are there. -/
def glue (u v : List Char) : List Char :=
  if u = [] then v else if v = [] then u else u ++ ' ' :: v

@[simp] theorem glue_nil_left (v : List Char) : glue [] v = v := rfl

@[simp] theorem glue_nil_right (u : List Char) : glue u [] = u := by
  cases u <;> rfl

theorem writeAfter_append_gap (due : Bool) (ms ns : List Mark) :
    writeAfter due (ms ++ .gap :: ns) = writeAfter due ms ++ writeAfter true ns := by
  induction ms generalizing due with
  | nil => rfl
  | cons m ms ih =>
      cases m with
      | keep c =>
          rw [List.cons_append, writeAfter_keep, writeAfter_keep, ih, List.append_assoc,
            List.cons_append]
      | gap => exact ih true

/-- What stands on both sides of a gap is written with a space between. -/
theorem write_append_gap (ms ns : List Mark) :
    write (ms ++ .gap :: ns) = glue (write ms) (write ns) := by
  induction ms with
  | nil => rfl
  | cons m ms ih =>
      cases m with
      | gap => exact ih
      | keep c =>
          show c :: writeAfter false (ms ++ .gap :: ns) = glue (c :: writeAfter false ms) _
          rw [writeAfter_append_gap, writeAfter_true_eq, glue, if_neg (List.cons_ne_nil _ _)]
          split
          · rw [List.append_nil]
          · rfl

/-! ### Texts with a gap between them -/

/-- Characters with a gap on both sides. -/
def breaks (c : Char) : Bool := isSeparator c || c == '{' || c == '}'

/-- Whatever follows the text, there is a gap in front of it. -/
structure EndsInGap (x : List Char) : Prop where
  last : ∀ c ∈ x.getLast?, breaks c = true
  closed : commentAfter false x = false

/-- Behind the first text the second one starts with a gap, and not with the rest of
a comment. -/
structure GapBetween (x y : List Char) : Prop where
  head : ∀ c ∈ y.head?, breaks c = true ∨ c = '#'
  closed : commentAfter false x = true → StartsLine y

/-- Where a reader of marks stands, if not in a string. -/
def modeOf (inComment : Bool) : Mode := if inComment then .comment else .code

/-- A text without quotes is read on its own. -/
theorem marks_append {x : List Char} (hx : '"' ∉ x) (inComment : Bool) (y : List Char) :
    marks (modeOf inComment) (x ++ y) =
      marks (modeOf inComment) x ++ marks (modeOf (commentAfter inComment x)) y := by
  induction x generalizing inComment with
  | nil =>
      rw [marks_nil]
      rfl
  | cons c cs ih =>
      obtain ⟨hc, hcs⟩ : '"' ≠ c ∧ '"' ∉ cs := by simpa using hx
      rw [commentAfter_cons, List.cons_append]
      cases inComment with
      | true =>
          show marks .comment _ = marks .comment _ ++ _
          cases hend : isLineEnd c with
          | true =>
              rw [marks_comment_end hend, marks_comment_end hend]
              exact congrArg _ (ih hcs false)
          | false =>
              rw [marks_comment hend, marks_comment hend]
              exact ih hcs true
      | false =>
          show marks .code _ = marks .code _ ++ _
          by_cases hhash : c = '#'
          · subst hhash
            rw [marks_hash, marks_hash]
            exact congrArg _ (ih hcs true)
          · have hrest : marks .code (cs ++ y) = marks .code cs ++
                marks (modeOf (commentAfter (c == '#') cs)) y := by
              rw [beq_false_of_ne hhash]
              exact ih hcs false
            cases hsep : isSeparator c with
            | true =>
                rw [marks_separator hsep, marks_separator hsep, hrest]
                rfl
            | false =>
                by_cases hbrace : c = '{' ∨ c = '}'
                · rw [marks_brace hbrace, marks_brace hbrace, hrest]
                  rfl
                · have hplain : Plain c := ⟨hsep, not_or.1 hbrace, hhash, hc.symm⟩
                  rw [marks_plain hplain, marks_plain hplain, hrest]
                  rfl

/-- A text that ends in a gap is read as marks that end in one. -/
theorem EndsInGap.marks_eq {x : List Char} (h : EndsInGap x) (hx : '"' ∉ x) (hne : x ≠ []) :
    ∃ ms, marks .code x = ms ++ [.gap] := by
  obtain ⟨front, c, rfl⟩ : ∃ front c, x = front ++ [c] :=
    ⟨_, _, (List.dropLast_concat_getLast hne).symm⟩
  have hfront : '"' ∉ front := fun hmem => hx (List.mem_append_left _ hmem)
  have hlast : breaks c = true := h.last c (by simp)
  have hclosed : (if commentAfter false front then !isLineEnd c else c == '#') = false := by
    have hstep := h.closed
    rwa [commentAfter, List.foldl_append] at hstep
  obtain ⟨ms, hms⟩ : ∃ ms, marks (modeOf (commentAfter false front)) [c] = ms ++ [.gap] := by
    cases hopen : commentAfter false front with
    | true =>
        rw [hopen] at hclosed
        have hend : isLineEnd c = true := by simpa using hclosed
        exact ⟨[], marks_comment_end hend []⟩
    | false =>
        cases hsep : isSeparator c with
        | true => exact ⟨[], marks_separator hsep []⟩
        | false =>
            have hbrace : c = '{' ∨ c = '}' := by simpa [breaks, hsep] using hlast
            exact ⟨[.gap, .keep c], marks_brace hbrace []⟩
  refine ⟨marks .code front ++ ms, ?_⟩
  have happend := marks_append hfront false [c]
  rw [hms] at happend
  rw [List.append_assoc]
  exact happend

/-- A text that starts with a gap is read as marks that start with one. -/
theorem GapBetween.marks_eq {x y : List Char} (h : GapBetween x y) (hne : y ≠ []) :
    ∃ ms, marks .code y = .gap :: ms ∧ marks (modeOf (commentAfter false x)) y = .gap :: ms := by
  obtain ⟨c, cs, rfl⟩ := List.exists_cons_of_ne_nil hne
  cases hopen : commentAfter false x with
  | true =>
      have hend : isLineEnd c = true := h.closed hopen c rfl
      exact ⟨_, marks_separator (isSeparator_of_isLineEnd hend) cs, marks_comment_end hend cs⟩
  | false =>
      rcases h.head c rfl with hc | rfl
      · cases hsep : isSeparator c with
        | true => exact ⟨_, marks_separator hsep cs, marks_separator hsep cs⟩
        | false =>
            have hbrace : c = '{' ∨ c = '}' := by simpa [breaks, hsep] using hc
            exact ⟨_, marks_brace hbrace cs, marks_brace hbrace cs⟩
      · exact ⟨_, marks_hash cs, marks_hash cs⟩

theorem EndsInGap.ofText_append {x : List Char} (h : EndsInGap x) (hx : '"' ∉ x)
    (y : List Char) : ofText (x ++ y) = glue (ofText x) (ofText y) := by
  by_cases hne : x = []
  · subst hne
    rfl
  · obtain ⟨ms, hms⟩ := h.marks_eq hx hne
    have hmarks : marks .code (x ++ y) = marks .code x ++ marks .code y := by
      have happend := marks_append hx false y
      rwa [h.closed] at happend
    have hx' : ofText x = write ms := by
      rw [ofText, hms, write_append_gap]
      exact glue_nil_right _
    rw [hx', ofText, hmarks, hms, List.append_assoc, List.singleton_append, write_append_gap]
    rfl

theorem GapBetween.ofText_append {x y : List Char} (h : GapBetween x y) (hx : '"' ∉ x) :
    ofText (x ++ y) = glue (ofText x) (ofText y) := by
  by_cases hne : y = []
  · subst hne
    rw [List.append_nil]
    exact (glue_nil_right _).symm
  · obtain ⟨ms, hcode, hms⟩ := h.marks_eq hne
    have hmarks := marks_append hx false y
    rw [hms] at hmarks
    rw [ofText, show marks .code (x ++ y) = _ from hmarks, write_append_gap, ofText, ofText, hcode]
    rfl

/-- Between gaps, a text may be exchanged for another one with its key. -/
theorem ofSource_exchange {p q s t : String} (hp : EndsInGap p.toList)
    (hs : GapBetween s.toList q.toList) (ht : GapBetween t.toList q.toList)
    (hpq : '"' ∉ p.toList) (hsq : '"' ∉ s.toList) (htq : '"' ∉ t.toList)
    (hkey : ofSource s = ofSource t) :
    ofSource (p ++ s ++ q) = ofSource (p ++ t ++ q) := by
  have hsplice : ∀ u : String, GapBetween u.toList q.toList → '"' ∉ u.toList →
      ofText (p ++ u ++ q).toList =
        glue (ofText p.toList) (glue (ofText u.toList) (ofText q.toList)) := by
    intro u hu huq
    rw [String.toList_append, String.toList_append, List.append_assoc, hp.ofText_append hpq,
      hu.ofText_append huq]
  rw [ofSource, ofSource, hsplice s hs hsq, hsplice t ht htq, ofText_eq_of_ofSource_eq hkey]

end GraphQL.Key
