import GraphQL.Key
import GraphQL.Proofs.Lexer.Locality

/-!
The marks of gaps and strings. The reader of marks knows nothing of lexemes, but
it stays in step with the scanner: a gap is a run of gaps for it, and a string
leaves it in code again, with its separators as gaps. It falls out of step at
few places, and a text without them is called regular.
-/

namespace GraphQL

open Text

/-- The reader of marks is in step with the scanner on this lexeme. It takes the
end of a line for the end of a string, even behind a backslash; it takes three
quotes for the end of a block string, even where the first of them is the last
of an escape; and it takes all white space for separators. -/
def Lexeme.Regular (l : Lexeme) : Prop :=
  match l.kind with
  | .unterminated => False
  | .invalid => ∀ c ∈ l.text.toList, isSeparator c = false
  | .string => ∀ c ∈ l.text.toList, isLineEnd c = false
  | .blockString => ¬['\\', '"', '"', '"', '"'] <:+: l.text.toList
  | _ => True

instance (l : Lexeme) : Decidable l.Regular := by
  have := fun p : Char → Bool => List.decidableBAll (fun c => p c = false) l.text.toList
  have := fun p : List Char => List.instDecidableIsInfixOfDecidableEq p l.text.toList
  unfold Lexeme.Regular
  split <;> infer_instance

/-- No quote stands behind an escaped triple quote, if the lexeme is a block string. -/
def Lexeme.BlockRegular (l : Lexeme) : Prop :=
  l.kind = .blockString → ¬['\\', '"', '"', '"', '"'] <:+: l.text.toList

instance (l : Lexeme) : Decidable l.BlockRegular :=
  inferInstanceAs (Decidable (l.kind = .blockString → ¬_))

namespace Key

open Lexer

/-! ### Writing -/

/-- The mark of a character in a string. -/
def markOf (c : Char) : Mark := if isSeparator c then .gap else .keep c

theorem markOf_separator {c : Char} (h : isSeparator c = true) : markOf c = .gap := if_pos h

theorem markOf_plain {c : Char} (h : isSeparator c = false) : markOf c = .keep c := by
  rw [markOf, h]
  rfl

/-- The space that is due, if one is. -/
def space (due : Bool) : List Char := if due then [' '] else []

theorem space_false : space false = [] := rfl

theorem writeAfter_keep (due : Bool) (c : Char) (ms : List Mark) :
    writeAfter due (.keep c :: ms) = space due ++ c :: writeAfter false ms := by
  cases due <;> rfl

theorem writeAfter_gap (due : Bool) (ms : List Mark) :
    writeAfter due (.gap :: ms) = writeAfter true ms := rfl

/-- Where a space is due, it comes first. -/
theorem writeAfter_true (ms : List Mark) :
    writeAfter true ms = [] ∨ ∃ w, writeAfter true ms = ' ' :: w := by
  induction ms with
  | nil => exact .inl rfl
  | cons m ms ih =>
      cases m with
      | keep c => exact .inr ⟨_, rfl⟩
      | gap => exact ih

theorem writeAfter_true_eq (ms : List Mark) :
    writeAfter true ms = if write ms = [] then [] else ' ' :: write ms := by
  induction ms with
  | nil => rfl
  | cons m ms ih =>
      cases m with
      | keep c => rfl
      | gap => exact ih

/-- No space is due behind a character. -/
theorem writeAfter_append_keep (due : Bool) (ms : List Mark) (c : Char) (ns : List Mark) :
    writeAfter due (ms ++ [.keep c] ++ ns) =
      writeAfter due (ms ++ [.keep c]) ++ writeAfter false ns := by
  induction ms generalizing due with
  | nil =>
      rw [List.nil_append, List.singleton_append, writeAfter_keep, writeAfter_keep]
      simp [writeAfter]
  | cons m ms ih =>
      cases m with
      | keep d =>
          show writeAfter due (.keep d :: (ms ++ [.keep c] ++ ns)) =
            writeAfter due (.keep d :: (ms ++ [.keep c])) ++ writeAfter false ns
          rw [writeAfter_keep, writeAfter_keep, ih]
          simp
      | gap => exact ih true

/-- No separator is kept. -/
theorem isSeparator_of_keep {mode : Mode} {cs : List Char} :
    ∀ c, .keep c ∈ marks mode cs → isSeparator c = false := by
  have hquote : isSeparator '"' = false := by decide
  fun_induction marks mode cs with
  | _ => grind

/-! ### Gaps -/

/-- What is written for a text after some other text. -/
def after (due : Bool) (cs : List Char) : List Char := writeAfter due (marks .code cs)

theorem marks_separator {c : Char} (h : isSeparator c = true) (cs : List Char) :
    marks .code (c :: cs) = .gap :: marks .code cs := by
  rw [marks.eq_def]
  exact if_pos h

theorem marks_hash (cs : List Char) : marks .code ('#' :: cs) = .gap :: marks .comment cs := by
  rw [marks.eq_def]
  rfl

theorem marks_comment_end {c : Char} (h : isLineEnd c = true) (cs : List Char) :
    marks .comment (c :: cs) = .gap :: marks .code cs := by
  rw [marks.eq_def]
  exact if_pos h

theorem marks_comment {c : Char} (h : isLineEnd c = false) (cs : List Char) :
    marks .comment (c :: cs) = marks .comment cs := by
  rw [marks.eq_def]
  simp [h]

theorem isSeparator_of_isIgnored {c : Char} (h : isIgnored c = true) : isSeparator c = true := by
  simp only [isIgnored, Bool.or_eq_true, beq_iff_eq] at h
  rcases h with (((rfl | rfl) | rfl) | rfl) | h
  · decide
  · decide
  · decide
  · decide
  · exact isSeparator_of_isLineEnd h

/-- A gap is read as a run of gaps, and as none only if it is empty. -/
theorem marks_splitGap {inComment : Bool} {cs gap rest : List Char}
    (h : splitGap inComment cs = (gap, rest)) :
    ∃ n, marks (if inComment then .comment else .code) cs =
        List.replicate n .gap ++ marks .code rest ∧
      (inComment = false → (n = 0 ↔ gap = [])) := by
  induction inComment, cs, gap, h using splitGap_induction with
  | nil inComment hrest _ =>
      subst hrest
      refine ⟨0, ?_, fun _ => ⟨fun _ => rfl, fun _ => rfl⟩⟩
      cases inComment <;> rfl
  | inside c cs gap _ _ ih =>
      obtain ⟨n, hmarks, -⟩ := ih
      cases hc : isLineEnd c with
      | true =>
          rw [hc] at hmarks
          refine ⟨n + 1, ?_, nofun⟩
          rw [if_pos rfl, marks_comment_end hc, List.replicate_succ]
          exact congrArg (Mark.gap :: ·) hmarks
      | false =>
          rw [hc] at hmarks
          refine ⟨n, ?_, nofun⟩
          rw [if_pos rfl, marks_comment hc]
          exact hmarks
  | ignored c cs gap hc _ _ ih =>
      obtain ⟨n, hmarks, -⟩ := ih
      refine ⟨n + 1, ?_, fun _ => by simp⟩
      rw [if_neg Bool.false_ne_true, marks_separator (isSeparator_of_isIgnored hc),
        List.replicate_succ]
      exact congrArg (Mark.gap :: ·) hmarks
  | hash cs gap _ _ ih =>
      obtain ⟨n, hmarks, -⟩ := ih
      refine ⟨n + 1, ?_, fun _ => by simp⟩
      rw [if_neg Bool.false_ne_true, marks_hash, List.replicate_succ]
      exact congrArg (Mark.gap :: ·) hmarks
  | lexeme c cs _ _ hrest _ =>
      subst hrest
      exact ⟨0, rfl, fun _ => ⟨fun _ => rfl, fun _ => rfl⟩⟩

/-! ### Strings -/

theorem marks_string_plain {c : Char} (hb : c ≠ '\\') (hq : c ≠ '"') (hl : isLineEnd c = false)
    (cs : List Char) : marks .string (c :: cs) = markOf c :: marks .string cs := by
  rw [marks.eq_def]
  cases hs : isSeparator c with
  | true => simp [hl, hs, markOf]
  | false => simp [hl, hs, hb, hq, markOf]

theorem marks_string_quote (cs : List Char) :
    marks .string ('"' :: cs) = .keep '"' :: marks .code cs := by
  rw [marks.eq_def]
  rfl

/-- A backslash takes a separator with it, unless it ends the line. -/
theorem marks_string_escape {c : Char} (hl : isLineEnd c = false) (cs : List Char) :
    marks .string ('\\' :: c :: cs) = .keep '\\' :: markOf c :: marks .string cs := by
  cases hs : isSeparator c with
  | true =>
      have hgap : marks .string (c :: cs) = .gap :: marks .string cs := by
        rw [marks.eq_def]
        simp [hl, hs]
      rw [markOf_separator hs, ← hgap, marks.eq_def]
      show (if isSeparator c then _ else _) = _
      rw [if_pos hs]
  | false =>
      rw [markOf_plain hs, marks.eq_def]
      show (if isSeparator c then _ else _) = _
      rw [hs]
      rfl

/-- A string leaves the reader in code, if no line ends in it. -/
theorem marks_string {cs x r : List Char} (h : string cs = ⟨.string, x, r⟩)
    (hx : ∀ c ∈ x, isLineEnd c = false) :
    marks .string cs = x.map markOf ++ marks .code r := by
  obtain rfl := eq_append_of_string h
  induction x, h using string_induction with
  | quote => exact marks_string_quote r
  | escape c x _ _ ih =>
      rw [List.cons_append, List.cons_append, marks_string_escape (hx c (by simp)),
        ih fun d hd => hx d (by simp [hd])]
      rfl
  | plain c x hb hq hl _ _ ih =>
      rw [List.cons_append, marks_string_plain hb hq hl, ih fun d hd => hx d (by simp [hd])]
      rfl

/-! ### Block strings -/

theorem marks_block_close (cs : List Char) :
    marks .block ('"' :: '"' :: '"' :: cs) =
      .keep '"' :: .keep '"' :: .keep '"' :: marks .code cs := by
  rw [marks.eq_def]
  rfl

theorem marks_block_lone {cs : List Char} (h : ∀ c ∈ cs.head?, c ≠ '"') :
    marks .block ('"' :: cs) = .keep '"' :: marks .block cs := by
  cases cs with
  | nil => rfl
  | cons d ds =>
      have hd : d ≠ '"' := h d rfl
      rw [marks.eq_def]
      simp [show isSeparator '"' = false from by decide, hd]

theorem marks_block_pair {cs : List Char} (h : ∀ c ∈ cs.head?, c ≠ '"') :
    marks .block ('"' :: '"' :: cs) = .keep '"' :: .keep '"' :: marks .block cs := by
  cases cs with
  | nil => rfl
  | cons d ds =>
      have hd : d ≠ '"' := h d rfl
      rw [marks.eq_def]
      simp [show isSeparator '"' = false from by decide, hd]

/-- A quote that closes nothing. Two of them are read at once, which makes no
difference. -/
theorem marks_block_quote {cs : List Char} (h : ¬['"', '"'] <+: cs) :
    marks .block ('"' :: cs) = .keep '"' :: marks .block cs := by
  rcases head_cases '"' cs with hcs | ⟨ds, rfl⟩
  · exact marks_block_lone hcs
  · rcases head_cases '"' ds with hds | ⟨es, rfl⟩
    · rw [marks_block_pair hds, marks_block_lone hds]
    · exact absurd ⟨es, rfl⟩ h

theorem marks_block_escape (cs : List Char) :
    marks .block ('\\' :: '"' :: cs) = .keep '\\' :: .keep '"' :: marks .block cs := by
  rw [marks.eq_def]
  rfl

theorem marks_block_plain {c : Char} {cs : List Char} (hq : c ≠ '"')
    (he : ¬['\\', '"', '"', '"'] <+: c :: cs) :
    marks .block (c :: cs) = markOf c :: marks .block cs := by
  cases hs : isSeparator c with
  | true =>
      rw [markOf_separator hs, marks.eq_def]
      exact if_pos hs
  | false =>
      rw [markOf_plain hs]
      by_cases hb : c = '\\'
      · subst hb
        rcases head_cases '"' cs with hcs | ⟨ds, rfl⟩
        · cases cs with
          | nil => rfl
          | cons d ds =>
              rw [marks.eq_def]
              simp [show isSeparator '\\' = false from by decide, hcs d rfl]
        · have hds : ¬['"', '"'] <+: ds := by
            rintro ⟨t, rfl⟩
            exact he ⟨t, rfl⟩
          rw [marks_block_escape, marks_block_quote hds]
      · rw [marks.eq_def]
        simp [hs, hb, hq]

/-- A block string leaves the reader in code, if no quote follows an escape in it. -/
theorem marks_blockString {cs x r : List Char} (h : blockString cs = ⟨.blockString, x, r⟩)
    (hx : ¬['\\', '"', '"', '"', '"'] <:+: x) :
    marks .block cs = x.map markOf ++ marks .code r := by
  obtain rfl := eq_append_of_blockString h
  induction x, h using blockString_induction with
  | close => exact marks_block_close r
  | escape x hscan _ ih =>
      -- The escape is followed by something, and not by a quote.
      have hpair : ∀ c ∈ (x ++ r).head?, c ≠ '"' := by
        cases x with
        | nil => exact absurd (blockString_length hscan) (by decide)
        | cons d x =>
            rintro c ⟨⟩ rfl
            exact hx ⟨[], x, rfl⟩
      have hx' : ¬['\\', '"', '"', '"', '"'] <:+: x := fun hin =>
        hx (hin.trans (List.suffix_append ['\\', '"', '"', '"'] x).isInfix)
      show marks .block ('\\' :: '"' :: '"' :: '"' :: (x ++ r)) = _
      rw [marks_block_escape, marks_block_pair hpair, ih hx']
      rfl
  | plain c x hclose hescape _ _ ih =>
      have hx' : ¬['\\', '"', '"', '"', '"'] <:+: x := fun hin => hx (List.infix_cons hin)
      by_cases hq : c = '"'
      · subst hq
        have hquotes : ¬['"', '"'] <+: x ++ r := fun hpre =>
          hclose (List.cons_prefix_cons.2 ⟨rfl, hpre⟩)
        rw [List.cons_append, marks_block_quote hquotes, ih hx']
        rfl
      · rw [List.cons_append, marks_block_plain hq hescape, ih hx']
        rfl

end Key
end GraphQL
