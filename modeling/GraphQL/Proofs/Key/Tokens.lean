import GraphQL.Proofs.Key.Parts
import GraphQL.Proofs.Lexer.Malformed

/-!
The tokens of a key. A key has single spaces in its strings, so it has the tokens
of its text where there is nothing to squeeze in them. Besides that the text must
be regular. Two kinds of tokens are always left out here: block strings, and
strings without an end. Of the malformed ones only a character of white space is a
danger, as it is an error to the scanner and a separator to the reader of marks.
-/

namespace GraphQL

open Text

namespace Lexeme

/-- Is the lexeme a single character of white space? -/
def isWhiteSpace (l : Lexeme) : Bool :=
  match l.text.toList with
  | [c] => Text.isWhiteSpace c
  | _ => false

/-- A key shows the lexeme as it stands. -/
structure Unaltered (l : Lexeme) : Prop where
  not_blockString : l.kind ≠ .blockString
  not_unterminated : l.kind ≠ .unterminated
  string : l.kind = .string → ∀ c ∈ l.text.toList, isSeparator c = false
  invalid : l.kind = .invalid → l.isWhiteSpace = false

theorem unaltered_iff {l : Lexeme} :
    l.Unaltered ↔ (l.kind ≠ .blockString ∧ l.kind ≠ .unterminated) ∧
      (l.kind = .string → ∀ c ∈ l.text.toList, isSeparator c = false) ∧
      (l.kind = .invalid → l.isWhiteSpace = false) :=
  ⟨fun ⟨hb, hu, hs, hi⟩ => ⟨⟨hb, hu⟩, hs, hi⟩, fun ⟨⟨hb, hu⟩, hs, hi⟩ => ⟨hb, hu, hs, hi⟩⟩

instance (l : Lexeme) : Decidable l.Unaltered :=
  have := List.decidableBAll (fun c => isSeparator c = false) l.text.toList
  decidable_of_iff _ unaltered_iff.symm

end Lexeme

namespace Key

open Lexer

/-! ### Lexemes that a key does not change -/

/-- Of the separators, the scanner ignores all but some white space. -/
theorem isSeparator_of_unignored {c : Char} (h : isIgnored c = false)
    (hc : isWhiteSpace c = false) : isSeparator c = false := by
  simp only [isIgnored, Bool.or_eq_false_iff] at h
  simp [isSeparator, hc, h]

theorem squeeze_eq_self {cs : List Char} (h : ∀ c ∈ cs, isSeparator c = false) :
    squeeze false cs = cs := by
  induction cs with
  | nil => rfl
  | cons c cs ih =>
      obtain ⟨hc, hcs⟩ := List.forall_mem_cons.1 h
      rw [squeeze_plain hc, ih hcs]
      rfl

theorem regular_of_unaltered {cs : List Char} {l : Lexeme} (hl : l ∈ Lexer.lexemes cs)
    (h : l.Unaltered) : l.Regular := by
  obtain ⟨c, r, -, hc, rfl⟩ := unignored_of_mem_lexemes hl
  obtain ⟨hblock, hunterminated, hstring, hinvalid⟩ := h
  unfold Lexeme.Regular
  generalize hk : (scan c r).kind = kind at *
  cases kind with
  | unterminated => exact hunterminated rfl
  | blockString => exact absurd rfl hblock
  | string =>
      intro d hd
      have hplain := hstring rfl d hd
      cases hend : isLineEnd d with
      | false => rfl
      | true => exact absurd (isSeparator_of_isLineEnd hend) (Bool.eq_false_iff.1 hplain)
  | invalid =>
      rw [String.toList_ofList]
      rcases scan_invalid hk with htext | htext
      · have hwhite := hinvalid rfl
        rw [Lexeme.isWhiteSpace, String.toList_ofList, htext] at hwhite
        rw [htext]
        exact List.forall_mem_singleton.2 (isSeparator_of_unignored hc hwhite)
      · exact fun d hd => isSeparator_of_joins (htext d hd)
  | _ => trivial

theorem squeezed_of_unaltered {l : Lexeme} (h : l.Unaltered) : l.squeezed = l := by
  obtain ⟨kind, text⟩ := l
  rw [Lexeme.squeezed, tidyText]
  cases kind with
  | blockString => exact absurd rfl h.not_blockString
  | string =>
      have htext : squeeze false text.toList = text.toList := squeeze_eq_self (h.string rfl)
      simp [TokenKind.isQuoted, htext]
  | _ => simp [TokenKind.isQuoted]

/-- A key has the lexemes of its text, if it changes none of them. -/
theorem lexemes_ofSource {s : String} (h : ∀ l ∈ GraphQL.lexemes s, l.Unaltered) :
    GraphQL.lexemes (ofSource s) = GraphQL.lexemes s := by
  have hregular : ∀ l ∈ Lexer.lexemes s.toList, l.Regular :=
    fun l hl => regular_of_unaltered hl (h l hl)
  rw [GraphQL.lexemes, GraphQL.lexemes, ofSource, String.toList_ofList,
    lexemes_ofText hregular]
  exact (List.map_congr_left fun l hl => squeezed_of_unaltered (h l hl)).trans (List.map_id _)

end Key

/-! ### Tokens -/

/-- A key has the tokens of its text, if it changes none of them. Hence texts with
one key have the same tokens then. -/
theorem tokenize_ofSource (s : String) (h : ∀ t ∈ tokenize s, t.Unaltered) :
    (tokenize (Key.ofSource s)).map Token.toLexeme = (tokenize s).map Token.toLexeme ∧
      ∀ s', (∀ t ∈ tokenize s', t.Unaltered) → Key.ofSource s' = Key.ofSource s →
        (tokenize s').map Token.toLexeme = (tokenize s).map Token.toLexeme := by
  have hkey : ∀ u, (∀ t ∈ tokenize u, t.Unaltered) →
      (tokenize (Key.ofSource u)).map Token.toLexeme = (tokenize u).map Token.toLexeme := by
    intro u hu
    have hlexemes : ∀ l ∈ lexemes u, l.Unaltered := by
      intro l hl
      have hmem : l ∈ (tokenize u).map Token.toLexeme := by
        rw [map_toLexeme_tokenize_append]
        exact List.mem_append_left _ hl
      obtain ⟨t, ht, rfl⟩ := List.mem_map.1 hmem
      exact hu t ht
    rw [map_toLexeme_tokenize_append, map_toLexeme_tokenize_append, Key.lexemes_ofSource hlexemes]
  refine ⟨hkey s h, fun s' h' heq => ?_⟩
  rw [← hkey s h, ← hkey s' h', heq]

/-- Strings that touch, malformed numbers, lone dots and stray characters. -/
theorem tokenize_ofSource_example :
    let s := "\"a\"\"\"#\"\n\"\\\"b\",\x7b0x1.5,-01..\u00e9\x7d"
    (∀ t ∈ tokenize s, t.Unaltered) ∧
      (tokenize (Key.ofSource s)).map Token.toLexeme = (tokenize s).map Token.toLexeme := by
  intro s
  have h : ∀ t ∈ tokenize s, t.Unaltered := by decide +kernel
  exact ⟨h, (tokenize_ofSource s h).1⟩

end GraphQL
