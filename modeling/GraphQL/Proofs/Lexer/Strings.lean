import GraphQL.Proofs.Lexer.Tiling
import GraphQL.Proofs.Text.Quoted

/-!
Quoted strings in a source. The scanner knows nothing of escapes but that a backslash takes
the next character with it; this is enough for it to end a string where the grammar of
strings does, and it leaves to the decoder what a backslash stands for.
-/

namespace GraphQL

open Text

namespace Lexer

open Quoted (Enclosed)

/-- An enclosed text is read up to the quote behind it. -/
theorem string_of_enclosed {body : List Char} (h : Enclosed body) (rest : List Char) :
    string (body ++ '"' :: rest) = ⟨.string, body ++ ['"'], rest⟩ := by
  induction h with
  | nil => exact string_quote rest
  | plain c cs hq hb hl _ ih =>
      rw [List.cons_append, string_plain hb hq hl, ih]
      rfl
  | escape c cs _ ih =>
      rw [List.cons_append, List.cons_append, string_escape, ih]
      rfl

/-- What is read of a string is an enclosed text and a quote. -/
theorem enclosed_of_string {cs x r : List Char} (h : string cs = ⟨.string, x, r⟩) :
    ∃ body, Enclosed body ∧ x = body ++ ['"'] := by
  obtain rfl := eq_append_of_string h
  induction x, h using string_induction with
  | quote => exact ⟨[], .nil, rfl⟩
  | escape c x _ _ ih =>
      obtain ⟨body, hbody, rfl⟩ := ih
      exact ⟨'\\' :: c :: body, .escape c body hbody, rfl⟩
  | plain c x hb hq hl _ _ ih =>
      obtain ⟨body, hbody, rfl⟩ := ih
      exact ⟨c :: body, .plain c body hq hb hl hbody, rfl⟩

/-- Only a quote starts a string. -/
theorem isQuote_of_scan {c : Char} {r : List Char}
    (h : (scan c r).kind = .string ∨ (scan c r).kind = .blockString) : c = '"' := by
  refine Decidable.byContradiction fun hq => ?_
  revert h
  unfold scan
  split
  · simp
  · split
    · split <;> simp
    · split
      · rcases number_kind (c :: r) with h | h | h <;> simp [h]
      · split
        · simp only [name, TokenKind.ofName]
          split <;> simp
        · simp

/-- A string is a quote and what is read behind it. -/
theorem string_of_scan {c : Char} {r : List Char} (h : (scan c r).kind = .string) :
    ∃ x rest, string r = ⟨.string, x, rest⟩ ∧ (scan c r).text = '"' :: x := by
  obtain rfl := isQuote_of_scan (.inl h)
  by_cases hblock : ['"', '"'] <+: r
  · obtain ⟨r, rfl⟩ := hblock
    rw [List.cons_append, List.singleton_append, scan_quote_block] at h
    rcases blockString_kind r with hk | hk
    · cases hk.symm.trans h
    · cases hk.symm.trans h
  · rw [scan_quote_string hblock] at h ⊢
    exact ⟨(string r).text, (string r).rest, by rw [← show (string r).kind = _ from h], rfl⟩

/-- A block string is three quotes and what is read behind them. -/
theorem blockString_of_scan {c : Char} {r : List Char} (h : (scan c r).kind = .blockString) :
    ∃ r' x rest, blockString r' = ⟨.blockString, x, rest⟩ ∧
      (scan c r).text = '"' :: '"' :: '"' :: x := by
  obtain rfl := isQuote_of_scan (.inr h)
  by_cases hblock : ['"', '"'] <+: r
  · obtain ⟨r, rfl⟩ := hblock
    rw [List.cons_append, List.singleton_append, scan_quote_block] at h ⊢
    exact ⟨r, (blockString r).text, (blockString r).rest,
      by rw [← show (blockString r).kind = _ from h], rfl⟩
  · rw [scan_quote_string hblock] at h
    rcases string_kind r with hk | hk
    · cases hk.symm.trans h
    · cases hk.symm.trans h

end Lexer

open Lexer

/-! ### Texts of one token -/

/-- The text is a token of the kind, and nothing else. -/
def IsToken (kind : TokenKind) (text : String) : Prop :=
  tokenize text = [⟨⟨kind, text⟩, ⟨0, text.utf8ByteSize⟩⟩,
    ⟨.endOfInput, .empty text.utf8ByteSize⟩]

theorem isToken_of_scan {kind : TokenKind} {c : Char} {cs : List Char} (hc : isIgnored c = false)
    (hhash : c ≠ '#') (h : scan c cs = ⟨kind, c :: cs, []⟩) :
    IsToken kind (String.ofList (c :: cs)) := by
  rw [IsToken, ← byteLength_toList, String.toList_ofList, tokenize, Reader.tokens,
    Reader.ofSource, String.toList_ofList, pieces_of_lexeme (splitGap_lexeme hc hhash cs), h,
    pieces_of_end rfl]
  simp [Reader.place, Reader.placePiece, Piece.lexeme, Lexeme.endOfInput, Span.empty]

/-! ### Strings -/

/-- A text between two quotes. -/
def quoted (body : List Char) : List Char := '"' :: (body ++ ['"'])

theorem body_of_quoted {text : String} {body : List Char} (h : text = String.ofList (quoted body)) :
    body = (text.toList.drop 1).dropLast := by
  rw [h, String.toList_ofList, quoted, List.drop_one, List.tail_cons, List.dropLast_concat]

/-- An enclosed text between quotes is one string. -/
theorem isToken_quoted {body : List Char} (h : Quoted.Enclosed body) :
    IsToken .string (String.ofList (quoted body)) := by
  have hopen : ¬['"', '"'] <+: body ++ ['"'] := by
    rintro ⟨t, ht⟩
    cases h with
    | nil => cases ht
    | plain c cs hq _ _ _ => exact hq (List.cons.inj ht).1.symm
    | escape c cs _ => cases ht
  refine isToken_of_scan rfl (by decide) ?_
  rw [scan_quote_string hopen, string_of_enclosed h []]
  rfl

theorem quoted_of_mem_tokenize {source : String} {t : Token} (ht : t ∈ tokenize source)
    (hk : t.kind = .string) :
    ∃ body, Quoted.Enclosed body ∧ t.text = String.ofList (quoted body) := by
  rcases Reader.mem_tokens [] ht with rfl | ⟨before, c, r, -, rfl⟩
  · cases hk
  · obtain ⟨x, rest, hx, htext⟩ := string_of_scan hk
    obtain ⟨body, hbody, rfl⟩ := enclosed_of_string hx
    exact ⟨body, hbody, congrArg String.ofList htext⟩

theorem stringValue_eq_ok_iff {body : List Char} {v : String} :
    stringValue (String.ofList (quoted body)) = .ok v ↔ Quoted.decode body = .ok v.toList := by
  rw [stringValue, String.toList_ofList, quoted, Quoted.value_quoted]
  cases Quoted.decode body with
  | ok value => simp [← String.toList_inj]
  | error e => simp

theorem stringValue_eq_error_iff {body : List Char} {e : String} :
    stringValue (String.ofList (quoted body)) = .error e ↔
      Quoted.decode body = .error e.toList := by
  rw [stringValue, String.toList_ofList, quoted, Quoted.value_quoted]
  cases Quoted.decode body with
  | ok value => simp
  | error e => simp [← String.toList_inj]

/-- A value is given just where the text is a sequence of symbols that stand for it, and an
escape is reported just where it is the first one that is no symbol. -/
def Decides (Number : List Char → Nat → Prop) (body : List Char) (r : Except String String) :
    Prop :=
  (∀ v, r = .ok v ↔ Quoted.Symbols Number body v.toList) ∧
    ∀ e, r = .error e ↔ Quoted.Fault Number body e.toList

/-- Symbols between quotes are one string, of which the value is what they stand for; and
every text is the value of such a string. -/
theorem stringValue_of_symbols :
    (∀ body value, Quoted.Symbols Quoted.FourDigits body value →
      IsToken .string (String.ofList (quoted body)) ∧
        stringValue (String.ofList (quoted body)) = .ok (String.ofList value)) ∧
    ∀ v : String, ∃ body, Quoted.Symbols Quoted.FourDigits body v.toList ∧
      IsToken .string (String.ofList (quoted body)) ∧
        stringValue (String.ofList (quoted body)) = .ok v := by
  have hvalue : ∀ body v, Quoted.Symbols Quoted.FourDigits body v →
      IsToken .string (String.ofList (quoted body)) ∧
        stringValue (String.ofList (quoted body)) = .ok (String.ofList v) := by
    intro body v h
    have haccepted := h.mono Quoted.accepted_of_fourDigits
    refine ⟨isToken_quoted haccepted.enclosed, stringValue_eq_ok_iff.2 ?_⟩
    rw [String.toList_ofList]
    exact (Quoted.decode_eq_ok_iff haccepted.enclosed).2 haccepted
  refine ⟨hvalue, fun v => ?_⟩
  obtain ⟨body, hbody⟩ := Quoted.exists_symbols Quoted.FourDigits v.toList
  have hv := hvalue body v.toList hbody
  rw [String.ofList_toList] at hv
  exact ⟨body, hbody, hv⟩

/-- A quote and a backslash behind backslashes, and a number in front of the closing quote. -/
theorem stringValue_of_symbols_example :
    let body := ['é', '\\', '"', '\\', '\\', '\\', 'u', '0', '0', 'e', 'A']
    Quoted.Symbols Quoted.FourDigits body ['é', '"', '\\', 'ê'] ∧
      IsToken .string "\"é\\\"\\\\\\u00eA\"" ∧
      stringValue "\"é\\\"\\\\\\u00eA\"" = .ok "é\"\\ê" := by
  intro body
  have hnumber : Quoted.FourDigits ['0', '0', 'e', 'A'] 0xEA :=
    ⟨rfl, [0, 0, 14, 10], by simp [Quoted.HexDigit], by decide⟩
  have hbody : Quoted.Symbols Quoted.FourDigits body ['é', '"', '\\', 'ê'] :=
    .cons (.plain 'é' (by decide) (by decide) (by decide))
      (.cons (.letter '"' '"' (by decide)) (.cons (.letter '\\' '\\' (by decide))
        (.cons (.number _ _ hnumber (by decide)) .nil)))
  exact ⟨hbody, stringValue_of_symbols.1 body _ hbody⟩

/-- The value of a string, or the escape that has none, is what the grammar of strings says
it is, with numbers of four digits; but a plus sign is accepted for the first of them. A
backslash is never alone. -/
theorem stringValue_decides {source : String} {t : Token} (ht : t ∈ tokenize source)
    (hk : t.kind = .string) :
    ∃ body, t.text = String.ofList (quoted body) ∧
      Decides Quoted.Accepted body (stringValue t.text) ∧
      (Quoted.Unsigned body → Decides Quoted.FourDigits body (stringValue t.text)) ∧
      stringValue t.text ≠ .error "\\" := by
  obtain ⟨body, hbody, htext⟩ := quoted_of_mem_tokenize ht hk
  have hdecides : Decides Quoted.Accepted body (stringValue t.text) := by
    rw [htext]
    exact ⟨fun v => stringValue_eq_ok_iff.trans (Quoted.decode_eq_ok_iff hbody),
      fun e => stringValue_eq_error_iff.trans (Quoted.decode_eq_error_iff hbody)⟩
  refine ⟨body, htext, hdecides, fun hsign => ?_, fun hlone => ?_⟩
  · exact ⟨fun v => (hdecides.1 v).trans (Quoted.symbols_fourDigits_iff hsign).symm,
      fun e => (hdecides.2 e).trans (Quoted.fault_fourDigits_iff hsign).symm⟩
  · obtain ⟨front, value, rest, -, -, hescape, -⟩ := (hdecides.2 "\\").1 hlone
    cases hescape

/-- A number of four digits in front of one that the closing quote cuts short. -/
theorem stringValue_decides_example :
    let t : Token := ⟨⟨.string, "\"\\u0041\\u1\""⟩, ⟨3, 14⟩⟩
    (t ∈ tokenize "é \"\\u0041\\u1\"" ∧ t.kind = .string) ∧
      ∃ body, t.text = String.ofList (quoted body) ∧ Quoted.Unsigned body ∧
        Decides Quoted.FourDigits body (stringValue t.text) ∧
        Quoted.Fault Quoted.FourDigits body ['\\', 'u', '1'] := by
  intro t
  have ht : t ∈ tokenize "é \"\\u0041\\u1\"" := by decide +kernel
  obtain ⟨body, htext, -, hdecides, -⟩ := stringValue_decides ht rfl
  have hbody : body = ['\\', 'u', '0', '0', '4', '1', '\\', 'u', '1'] :=
    (body_of_quoted htext).trans (by decide +kernel)
  have hsign : Quoted.Unsigned body :=
    Quoted.unsigned_of_not_infix (by rw [hbody]; decide)
  have herror : stringValue t.text = .error "\\u1" := by decide +kernel
  exact ⟨⟨ht, rfl⟩, body, htext, hsign, hdecides hsign, ((hdecides hsign).2 "\\u1").1 herror⟩

/-- Three digits behind a plus sign have a value. -/
theorem stringValue_decides_signed :
    ¬∀ (source : String) (t : Token), t ∈ tokenize source → t.kind = .string →
      ∃ body, t.text = String.ofList (quoted body) ∧
        (∀ v, stringValue t.text = .ok v →
          ∃ value, Quoted.Symbols Quoted.FourDigits body value) ∧
        ∀ e, stringValue t.text = .error e → Quoted.Fault Quoted.FourDigits body e.toList := by
  intro h
  obtain ⟨body, htext, hok, -⟩ := h "\"\\u+041\"" ⟨⟨.string, "\"\\u+041\""⟩, ⟨0, 8⟩⟩
    (by decide +kernel) rfl
  have hbody : body = ['\\', 'u', '+', '0', '4', '1'] :=
    (body_of_quoted htext).trans (by decide +kernel)
  obtain ⟨value, hvalue⟩ := hok "A" (by decide +kernel)
  rw [hbody] at hvalue
  exact Quoted.not_symbols_plus hvalue

end GraphQL
