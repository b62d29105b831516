import GraphQL.Proofs.Grammar.Shadows
import GraphQL.Proofs.Key.Parts
import GraphQL.Proofs.Lexer.Strings

/-!
Strings with single spaces. A string has a value if and only if it has one with
single spaces, since no separator can stand in an escape. So a key has the
shadows of its text.
-/

namespace GraphQL

open Lexer Text

namespace Text.Quoted

/-! ### Values of texts with single spaces -/

theorem joins_of_hexDigit? {c : Char} {n : Nat} (h : hexDigit? c = some n) : joins c = true := by
  refine joins_of_isNameChar ?_
  simp only [isNameChar, Char.isAlphanum, isAlpha_eq, Bool.or_eq_true, Bool.and_eq_true,
    decide_eq_true_eq]
  unfold hexDigit? at h
  split at h
  · rename_i hdigit
    exact .inl (.inr hdigit)
  · split at h
    · rename_i hlower
      exact .inl (.inl (.inr ⟨hlower.1, Nat.le_trans hlower.2 (by decide)⟩))
    · split at h
      · rename_i hupper
        exact .inl (.inl (.inl ⟨hupper.1, Nat.le_trans hupper.2 (by decide)⟩))
      · cases h

theorem joins_of_hexFrom? {cs : List Char} {n m : Nat} (h : hexFrom? n cs = some m) :
    ∀ c ∈ cs, joins c = true := by
  induction cs generalizing n with
  | nil => exact List.forall_mem_nil _
  | cons c cs ih =>
      obtain ⟨d, hd, hcs⟩ := Option.bind_eq_some_iff.1 h
      exact List.forall_mem_cons.2 ⟨joins_of_hexDigit? hd, ih hcs⟩

/-- No separator and no quote stands in the number of a character. -/
theorem joins_of_codePoint? {cs : List Char} {x : Char} (h : codePoint? cs = some x) :
    ∀ c ∈ cs, joins c = true := by
  obtain ⟨n, hn, -⟩ := Option.bind_eq_some_iff.1 h
  unfold hex? at hn
  split at hn
  · cases hn
  · cases hn
  · exact List.forall_mem_cons.2 ⟨by decide, joins_of_hexFrom? hn⟩
  · exact joins_of_hexFrom? hn

theorem isSeparator_of_escape? {e x : Char} (h : escape? e = some x) : isSeparator e = false := by
  unfold escape? at h
  split at h
  case h_9 => cases h
  all_goals decide

theorem isOk_map {ε α β : Type} (r : Except ε α) (f : α → β) : (r.map f).isOk = r.isOk := by
  cases r <;> rfl

/-- Four characters that stand for one. -/
theorem codePoint?_of_decode {cs : List Char} (h : (decode ('\\' :: 'u' :: cs)).isOk = true) :
    ∃ p, p <+: cs ∧ p.length = 4 ∧ ∃ x, codePoint? p = some x := by
  match cs, h with
  | a :: b :: c :: d :: cs, h =>
      rw [decode_unicode] at h
      cases hx : codePoint? [a, b, c, d] with
      | some x => exact ⟨[a, b, c, d], ⟨cs, rfl⟩, rfl, x, hx⟩
      | none =>
          rw [hx] at h
          cases h
  | [], h => cases h
  | [_], h => cases h
  | [_, _], h => cases h
  | [_, _, _], h => cases h

end Text.Quoted

namespace Key

open Text.Quoted

/-! ### Values of strings -/

/-- What is left between the quotes of a string with single spaces. -/
def squeezeWithin (due : Bool) : List Char → List Char
  | [] => space due
  | c :: cs =>
      if isSeparator c then squeezeWithin true cs else space due ++ c :: squeezeWithin false cs

theorem squeezeWithin_separator {c : Char} (h : isSeparator c = true) (due : Bool)
    (cs : List Char) : squeezeWithin due (c :: cs) = squeezeWithin true cs :=
  if_pos h

theorem squeezeWithin_plain {c : Char} (h : isSeparator c = false) (due : Bool)
    (cs : List Char) : squeezeWithin due (c :: cs) = space due ++ c :: squeezeWithin false cs := by
  rw [squeezeWithin, h]
  rfl

theorem squeeze_quoted (due : Bool) (cs : List Char) :
    squeeze due (cs ++ ['"']) = squeezeWithin due cs ++ ['"'] := by
  induction cs generalizing due with
  | nil => exact squeeze_plain (by decide) due []
  | cons c cs ih =>
      rw [List.cons_append]
      cases hc : isSeparator c with
      | true => rw [squeeze_separator hc, squeezeWithin_separator hc, ih]
      | false =>
          rw [squeeze_plain hc, squeezeWithin_plain hc, ih, List.append_assoc]
          rfl

/-- A space that is due is written in front of whatever comes next. -/
theorem squeezeWithin_true (cs : List Char) : ∃ w, squeezeWithin true cs = ' ' :: w := by
  induction cs with
  | nil => exact ⟨[], rfl⟩
  | cons c cs ih =>
      cases hc : isSeparator c with
      | true =>
          rw [squeezeWithin_separator hc]
          exact ih
      | false =>
          rw [squeezeWithin_plain hc]
          exact ⟨c :: squeezeWithin false cs, rfl⟩

theorem prefix_of_prefix_squeezeWithin {p cs : List Char} (hp : ∀ c ∈ p, joins c = true)
    (h : p <+: squeezeWithin false cs) : p <+: cs := by
  have hspace : ∀ c ∈ p, c ≠ ' ' := by
    rintro c hc rfl
    exact absurd (hp _ hc) (by decide)
  have hquoted : p <+: cs ++ ['"'] := by
    refine prefix_of_prefix_squeeze hspace ?_
    rw [squeeze_quoted]
    exact h.trans (List.prefix_append _ _)
  rcases List.prefix_concat_iff.1 hquoted with rfl | hprefix
  · exact absurd (hp '"' (by simp)) (by decide)
  · exact hprefix

theorem isOk_decode_space (due : Bool) (cs : List Char) :
    (decode (space due ++ cs)).isOk = (decode cs).isOk := by
  cases due with
  | true =>
      show (decode (' ' :: cs)).isOk = _
      rw [decode_plain (by decide), isOk_map]
  | false => rfl

/-- Four characters that stand for one are no others with single spaces. -/
theorem isOk_decode_unicode {cs : List Char} (due : Bool)
    (h : ¬∃ p, p <+: cs ∧ p.length = 4 ∧ ∃ x, codePoint? p = some x) :
    (decode (squeezeWithin due ('\\' :: 'u' :: cs))).isOk = false := by
  rw [squeezeWithin_plain (by decide), squeezeWithin_plain (by decide), isOk_decode_space]
  refine Bool.eq_false_iff.2 fun hok => h ?_
  obtain ⟨p, hp, hlength, x, hx⟩ := codePoint?_of_decode hok
  exact ⟨p, prefix_of_prefix_squeezeWithin (joins_of_codePoint? hx) hp, hlength, x, hx⟩

/-- No separator stands in the number of a character. -/
theorem isOk_decode_codePoint {a b c d x : Char} (hx : codePoint? [a, b, c, d] = some x)
    (due : Bool) (cs : List Char) :
    (decode (squeezeWithin due ('\\' :: 'u' :: a :: b :: c :: d :: cs))).isOk =
      (decode (squeezeWithin false cs)).isOk := by
  have hplain : ∀ e ∈ [a, b, c, d], isSeparator e = false :=
    fun e he => isSeparator_of_joins (joins_of_codePoint? hx e he)
  rw [squeezeWithin_plain (by decide), squeezeWithin_plain (by decide),
    squeezeWithin_plain (hplain a (by simp)), squeezeWithin_plain (hplain b (by simp)),
    squeezeWithin_plain (hplain c (by simp)), squeezeWithin_plain (hplain d (by simp)),
    isOk_decode_space]
  show (decode ('\\' :: 'u' :: a :: b :: c :: d :: squeezeWithin false cs)).isOk = _
  rw [decode_unicode, hx, isOk_map]

/-- What stands behind a backslash for nothing still does with single spaces. -/
theorem isOk_decode_noEscape {e : Char} (hu : e ≠ 'u') (he : escape? e = none) (due : Bool)
    (cs : List Char) : (decode (squeezeWithin due ('\\' :: e :: cs))).isOk = false := by
  rw [squeezeWithin_plain (by decide), isOk_decode_space]
  cases hs : isSeparator e with
  | true =>
      -- The backslash takes the space now, which is no escape either.
      obtain ⟨w, hw⟩ := squeezeWithin_true cs
      rw [squeezeWithin_separator hs, hw, decode_escape (by decide)]
      rfl
  | false =>
      rw [squeezeWithin_plain hs]
      show (decode ('\\' :: e :: squeezeWithin false cs)).isOk = _
      rw [decode_escape hu, he]
      rfl

/-- A string has a value if and only if it has one with single spaces. -/
theorem isOk_decode_squeezeWithin (due : Bool) (cs : List Char) :
    (decode (squeezeWithin due cs)).isOk = (decode cs).isOk := by
  fun_induction decode cs generalizing due with
  | case1 =>
      rw [squeezeWithin, ← List.append_nil (space due), isOk_decode_space]
      rfl
  | case2 a b c d cs x hx ih =>
      rw [isOk_decode_codePoint hx, isOk_map]
      exact ih false
  | case3 a b c d cs hx =>
      refine isOk_decode_unicode due ?_
      rintro ⟨p, hp, hlength, x, hp'⟩
      rw [List.prefix_iff_eq_take, hlength] at hp
      rw [show [a, b, c, d] = p from hp.symm, hp'] at hx
      cases hx
  | case4 cs hcs =>
      refine isOk_decode_unicode due ?_
      rintro ⟨p, ⟨t, rfl⟩, hlength, -⟩
      obtain ⟨a, b, c, d, rfl⟩ := List.length_eq_four.1 hlength
      exact hcs a b c d t rfl
  | case5 e cs _ hu x hx ih =>
      rw [squeezeWithin_plain (by decide), squeezeWithin_plain (isSeparator_of_escape? hx),
        isOk_decode_space]
      show (decode ('\\' :: e :: squeezeWithin false cs)).isOk = _
      rw [decode_escape hu, hx, isOk_map, isOk_map]
      exact ih false
  | case6 e cs _ hu hx => exact isOk_decode_noEscape hu hx due cs
  | case7 =>
      rw [squeezeWithin_plain (by decide), isOk_decode_space]
      rfl
  | case8 c cs _ _ hpair hlast ih =>
      have hb : c ≠ '\\' := by
        intro hb
        cases cs with
        | nil => exact hlast hb rfl
        | cons e es => exact hpair e es hb rfl
      rw [isOk_map]
      cases hc : isSeparator c with
      | true =>
          rw [squeezeWithin_separator hc]
          exact ih true
      | false =>
          rw [squeezeWithin_plain hc, isOk_decode_space, decode_plain hb, isOk_map]
          exact ih false

/-! ### Lexemes of strings -/

theorem isOk_stringValue (text : String) :
    (stringValue text).isOk = (value text.toList).isOk := by
  unfold stringValue
  cases value text.toList <;> rfl

/-- No line ends in a string that has a value. -/
theorem isLineEnd_of_string {cs x r : List Char} (h : string cs = ⟨.string, x, r⟩)
    (hvalue : (decode x.dropLast).isOk = true) : ∀ c ∈ x, isLineEnd c = false := by
  obtain ⟨body, hbody, rfl⟩ := enclosed_of_string h
  rw [List.dropLast_concat] at hvalue
  cases hdecode : decode body with
  | error e =>
      rw [hdecode] at hvalue
      cases hvalue
  | ok value =>
      have hsymbols := (decode_eq_ok_iff hbody).1 hdecode
      exact List.forall_mem_append.2
        ⟨hsymbols.isLineEnd_of_mem, List.forall_mem_singleton.2 (by decide)⟩

/-- What a document may hold is regular, unless it is a block string that is not. -/
theorem regular_of_proper {cs : List Char} {l : Lexeme} (h : l ∈ Lexer.lexemes cs)
    (hproper : l.Proper) (hblock : l.BlockRegular) : l.Regular := by
  obtain ⟨c, r, rfl⟩ := scanned_of_mem_lexemes h
  obtain ⟨hkind, hvalue⟩ := hproper
  unfold Lexeme.Regular
  unfold Lexeme.BlockRegular at hblock
  generalize hk : (scan c r).kind = kind at hkind hvalue hblock
  cases kind with
  | unterminated => cases hkind
  | invalid => cases hkind
  | blockString => exact hblock rfl
  | string =>
      obtain ⟨x, rest, hx, htext⟩ := string_of_scan hk
      obtain ⟨y, -, rfl⟩ := enclosed_of_string hx
      have hy := hvalue rfl
      rw [htext, isOk_stringValue, String.toList_ofList, value_quoted] at hy
      rw [htext, String.toList_ofList]
      refine List.forall_mem_cons.2 ⟨by decide, isLineEnd_of_string hx ?_⟩
      rwa [List.dropLast_concat]
  | _ => trivial

/-! ### Shadows of a key -/

/-- A key does not show whether a string has single spaces, but whether it has a
value. -/
theorem shadow_squeezed {cs : List Char} {l : Lexeme} (h : l ∈ Lexer.lexemes cs) :
    l.squeezed.shadow = l.shadow := by
  obtain ⟨c, r, rfl⟩ := scanned_of_mem_lexemes h
  simp only [Lexeme.squeezed]
  generalize hkind : (scan c r).kind = kind
  cases kind with
  | string =>
      obtain ⟨x, rest, hx, hbody⟩ := string_of_scan hkind
      obtain ⟨body, -, rfl⟩ := enclosed_of_string hx
      have hsqueeze : tidyText .string ('"' :: (body ++ ['"'])) =
          '"' :: (squeezeWithin false body ++ ['"']) := by
        show squeeze false ('"' :: (body ++ ['"'])) = _
        rw [squeeze_plain (by decide), squeeze_quoted]
        rfl
      simp only [Lexeme.shadow, hbody, String.toList_ofList, hsqueeze, isOk_stringValue,
        value_quoted, isOk_decode_squeezeWithin]
  | blockString => simp only [Lexeme.shadow]
  | _ => simp [Lexeme.shadow, tidyText, TokenKind.isQuoted]

/-- Regular texts with one key have the same shadows. -/
theorem map_shadow_eq {s t : String} (hs : Regular s) (ht : Regular t)
    (hkey : ofSource s = ofSource t) :
    (GraphQL.lexemes s).map Lexeme.shadow = (GraphQL.lexemes t).map Lexeme.shadow := by
  have hshadow : ∀ u : String, (GraphQL.lexemes u).map Lexeme.shadow =
      ((GraphQL.lexemes u).map Lexeme.squeezed).map Lexeme.shadow := fun u => by
    rw [List.map_map]
    exact List.map_congr_left fun l hl => (shadow_squeezed hl).symm
  rw [hshadow, hshadow, map_squeezed_eq hs ht hkey]

end Key
end GraphQL
