import GraphQL.Text.Separator
import GraphQL.Token

/-!
From text to tokens. The text is cut into pieces, each an ignored gap with the
lexeme that follows it, and the last piece is the end of the input. No
character is lost: gaps and lexemes, put together again, give the text.
-/

namespace GraphQL.Lexer

open Text

/-! ### Gaps -/

/-- Characters that are ignored between lexemes, each on its own. -/
def isIgnored (c : Char) : Bool :=
  c == ' ' || c == '\t' || c == ',' || c == byteOrderMark || isLineEnd c

/-- Cuts off the longest ignored run: ignored characters and comments. The flag
tells whether the text starts inside a comment. -/
def splitGap : Bool → List Char → List Char × List Char
  | _, [] => ([], [])
  | true, c :: cs =>
      let (gap, rest) := splitGap (!isLineEnd c) cs
      (c :: gap, rest)
  | false, c :: cs =>
      if isIgnored c then
        let (gap, rest) := splitGap false cs
        (c :: gap, rest)
      else if c = '#' then
        let (gap, rest) := splitGap true cs
        (c :: gap, rest)
      else ([], c :: cs)

theorem splitGap_append (inComment : Bool) (cs : List Char) :
    (splitGap inComment cs).1 ++ (splitGap inComment cs).2 = cs := by
  induction cs generalizing inComment with
  | nil => cases inComment <;> rfl
  | cons c cs ih =>
      cases inComment with
      | true => simp [splitGap, ih]
      | false =>
          simp only [splitGap]
          split
          · simp [ih]
          · split
            · simp [ih]
            · rfl

/-! ### Lexemes -/

/-- A lexeme at the front of a text, and the text after it. -/
structure Scan where
  kind : TokenKind
  text : List Char
  rest : List Char

namespace Scan

/-- Puts characters in front of a scanned text. -/
def prepend (front : List Char) (s : Scan) : Scan :=
  { s with text := front ++ s.text }

/-- All the characters that were scanned. -/
def whole (s : Scan) : List Char := s.text ++ s.rest

@[simp] theorem whole_prepend (front : List Char) (s : Scan) :
    (s.prepend front).whole = front ++ s.whole := by
  simp [prepend, whole]

@[simp] theorem whole_mk (kind : TokenKind) (text rest : List Char) :
    whole ⟨kind, text, rest⟩ = text ++ rest := rfl

end Scan

def isNameStart (c : Char) : Bool := c.isAlpha || c == '_'

def isNameChar (c : Char) : Bool := c.isAlphanum || c == '_'

/-- Characters that a malformed number swallows, and that a number may not
touch. -/
def isNumberTail (c : Char) : Bool := isNameChar c || c == '.'

/-- A string after its opening quote. A backslash takes any character with it;
a line end is left for the next gap. -/
def string : List Char → Scan
  | [] => ⟨.unterminated, [], []⟩
  | '\\' :: c :: cs => (string cs).prepend ['\\', c]
  | c :: cs =>
      if c = '"' then ⟨.string, [c], cs⟩
      else if isLineEnd c then ⟨.unterminated, [], c :: cs⟩
      else (string cs).prepend [c]

/-- A block string after its opening quotes. -/
def blockString : List Char → Scan
  | [] => ⟨.unterminated, [], []⟩
  | '"' :: '"' :: '"' :: cs => ⟨.blockString, ['"', '"', '"'], cs⟩
  | '\\' :: '"' :: '"' :: '"' :: cs => (blockString cs).prepend ['\\', '"', '"', '"']
  | c :: cs => (blockString cs).prepend [c]

/-- A part of a number: whether it is well formed, the characters taken and the
text after them. An absent part is well formed and takes nothing. -/
structure Part where
  wellFormed : Bool
  taken : List Char
  rest : List Char

def Part.absent (cs : List Char) : Part := ⟨true, [], cs⟩

/-- The longest run of digits after what has already been taken. There must be
at least one. -/
def digits (taken cs : List Char) : Part :=
  let run := cs.takeWhile Char.isDigit
  ⟨!run.isEmpty, taken ++ run, cs.dropWhile Char.isDigit⟩

/-- The digits before the point. A leading zero stands alone; a malformed part
takes nothing. -/
def wholePart (cs : List Char) : Part :=
  let run := cs.takeWhile Char.isDigit
  if run = ['0'] ∨ (run ≠ [] ∧ run.head? ≠ some '0') then
    ⟨true, run, cs.dropWhile Char.isDigit⟩
  else ⟨false, [], cs⟩

def fraction : List Char → Part
  | '.' :: cs => digits ['.'] cs
  | cs => .absent cs

def exponent : List Char → Part
  | c :: cs =>
      if c = 'e' ∨ c = 'E' then
        match cs with
        | s :: ds => if s = '+' ∨ s = '-' then digits [c, s] ds else digits [c] (s :: ds)
        | [] => digits [c] []
      else .absent (c :: cs)
  | [] => .absent []

/-- Does the text go on in a way that no number may be followed by? -/
def continues : List Char → Bool
  | [] => false
  | c :: _ => isNumberTail c

/-- The digits, fraction and exponent of a number behind its sign, as far as they are
well formed. The sign is taken with them. -/
def unsignedParts (sign cs : List Char) : Part :=
  let w := wholePart cs
  if !w.wellFormed then ⟨false, sign ++ w.taken, w.rest⟩ else
  let f := fraction w.rest
  if !f.wellFormed then ⟨false, sign ++ w.taken ++ f.taken, f.rest⟩ else
  let e := exponent f.rest
  ⟨e.wellFormed, sign ++ w.taken ++ f.taken ++ e.taken, e.rest⟩

/-- The parts of a number, with its sign if it has one. -/
def numberParts : List Char → Part
  | '-' :: cs => unsignedParts ['-'] cs
  | cs => unsignedParts [] cs

/-- A number at the front of a text. A malformed one swallows every character
that could belong to it. -/
def number (cs : List Char) : Scan :=
  let parts := numberParts cs
  if parts.wellFormed && !continues parts.rest then
    let isFloat := parts.taken.any fun c => c == '.' || c == 'e' || c == 'E'
    ⟨if isFloat then .float else .int, parts.taken, parts.rest⟩
  else
    ⟨.invalid, parts.taken ++ parts.rest.takeWhile isNumberTail,
      parts.rest.dropWhile isNumberTail⟩

def name (cs : List Char) : Scan :=
  let word := cs.takeWhile isNameChar
  ⟨.ofName (String.ofList word), word, cs.dropWhile isNameChar⟩

/-- The lexeme that starts with a character. -/
def scan (c : Char) (cs : List Char) : Scan :=
  match Punctuator.ofChar? c with
  | some p => ⟨.punctuator p, [c], cs⟩
  | none =>
      if c = '.' then
        match cs with
        | '.' :: '.' :: r => ⟨.punctuator .spread, ['.', '.', '.'], r⟩
        | r => ⟨.invalid, [c], r⟩
      else if c = '"' then
        match cs with
        | '"' :: '"' :: r => (blockString r).prepend ['"', '"', '"']
        | r => (string r).prepend ['"']
      else if c = '-' ∨ c.isDigit then number (c :: cs)
      else if isNameStart c then name (c :: cs)
      else ⟨.invalid, [c], cs⟩

/-! ### Nothing is lost, and every lexeme takes at least one character -/

theorem string_whole (cs : List Char) : (string cs).whole = cs := by
  fun_induction string cs with
  | case1 => rfl
  | case2 c cs ih => simp [ih]
  | case3 c cs => rfl
  | case4 => rfl
  | case5 c cs _ _ _ ih => simp [ih]

theorem blockString_whole (cs : List Char) : (blockString cs).whole = cs := by
  fun_induction blockString cs with
  | case1 => rfl
  | case2 => rfl
  | case3 cs ih => simp [ih]
  | case4 c cs _ _ ih => simp [ih]

namespace Part

/-- All the characters that a part was read from, and those put in front. -/
def whole (p : Part) : List Char := p.taken ++ p.rest

end Part

theorem digits_whole (taken cs : List Char) : (digits taken cs).whole = taken ++ cs := by
  simp [digits, Part.whole, List.append_assoc]

theorem wholePart_whole (cs : List Char) : (wholePart cs).whole = cs := by
  simp only [wholePart]
  split <;> simp [Part.whole]

theorem fraction_whole (cs : List Char) : (fraction cs).whole = cs := by
  unfold fraction
  split
  · simp [digits_whole]
  · rfl

theorem exponent_whole (cs : List Char) : (exponent cs).whole = cs := by
  unfold exponent
  split
  · split
    · split
      · split <;> simp [digits_whole]
      · simp [digits_whole]
    · rfl
  · rfl

theorem numberParts_minus (cs : List Char) :
    numberParts ('-' :: cs) = unsignedParts ['-'] cs := rfl

theorem numberParts_of_head {cs : List Char} (h : ∀ c ∈ cs.head?, c ≠ '-') :
    numberParts cs = unsignedParts [] cs := by
  unfold numberParts
  split
  · exact absurd rfl (h '-' rfl)
  · rfl

theorem head_cases (d : Char) (r : List Char) : (∀ c ∈ r.head?, c ≠ d) ∨ ∃ cs, r = d :: cs := by
  cases r with
  | nil => exact .inl nofun
  | cons c cs =>
      by_cases hc : c = d
      · exact .inr ⟨cs, by rw [hc]⟩
      · refine .inl ?_
        rintro x ⟨⟩
        exact hc

theorem unsignedParts_whole (sign cs : List Char) :
    (unsignedParts sign cs).whole = sign ++ cs := by
  have hw := wholePart_whole cs
  have hf := fraction_whole (wholePart cs).rest
  have he := exponent_whole (fraction (wholePart cs).rest).rest
  simp only [Part.whole] at hw hf he
  simp only [unsignedParts]
  split
  · simp [Part.whole, hw]
  · split
    · simp [Part.whole, hf, hw]
    · simp [Part.whole, he, hf, hw]

theorem numberParts_whole (cs : List Char) : (numberParts cs).whole = cs := by
  rcases head_cases '-' cs with hcs | ⟨ds, rfl⟩
  · rw [numberParts_of_head hcs, unsignedParts_whole, List.nil_append]
  · rw [numberParts_minus, unsignedParts_whole, List.singleton_append]

theorem number_whole (cs : List Char) : (number cs).whole = cs := by
  have h := numberParts_whole cs
  simp only [Part.whole] at h
  simp only [number]
  split
  · simpa using h
  · simpa using h

theorem name_whole (cs : List Char) : (name cs).whole = cs := by
  simp [name]

theorem scan_whole (c : Char) (cs : List Char) : (scan c cs).whole = c :: cs := by
  unfold scan
  split
  · rfl
  · split
    · split <;> simp_all
    · split
      · split
        · simp_all [blockString_whole]
        · simp_all [string_whole]
      · split
        · exact number_whole _
        · split
          · exact name_whole _
          · rfl

theorem wholePart_taken {c : Char} (cs : List Char) (hd : c.isDigit) :
    (wholePart (c :: cs)).taken ≠ [] ∨ wholePart (c :: cs) = ⟨false, [], c :: cs⟩ := by
  have hrun : (c :: cs).takeWhile Char.isDigit ≠ [] := by simp [hd]
  simp only [wholePart]
  split
  · exact .inl hrun
  · exact .inr rfl

/-- The sign and the digits before the point are taken in any case. -/
theorem unsignedParts_taken (sign cs : List Char) :
    ∃ more, (unsignedParts sign cs).taken = sign ++ (wholePart cs).taken ++ more := by
  simp only [unsignedParts]
  split
  · exact ⟨[], (List.append_nil _).symm⟩
  · split
    · exact ⟨_, rfl⟩
    · exact ⟨_, List.append_assoc ..⟩

/-- A number takes its first character, unless it is malformed from the first
digit on. -/
theorem numberParts_taken {c : Char} (cs : List Char) (h : c = '-' ∨ c.isDigit) :
    (numberParts (c :: cs)).taken ≠ [] ∨
      ((numberParts (c :: cs)).wellFormed = false ∧
        (numberParts (c :: cs)).rest = c :: cs ∧ c.isDigit) := by
  by_cases hm : c = '-'
  · obtain ⟨more, hmore⟩ := unsignedParts_taken ['-'] cs
    rw [hm, numberParts_minus, hmore]
    exact .inl nofun
  · have hd : c.isDigit = true := h.resolve_left hm
    obtain ⟨more, hmore⟩ := unsignedParts_taken [] (c :: cs)
    rw [numberParts_of_head (by simpa using hm)]
    rcases wholePart_taken cs hd with hw | hw
    · exact .inl (by simp [hmore, hw])
    · exact .inr (by simp [unsignedParts, hw, hd])

theorem number_text_ne_nil {c : Char} (cs : List Char) (h : c = '-' ∨ c.isDigit) :
    (number (c :: cs)).text ≠ [] := by
  have htaken := numberParts_taken cs h
  simp only [number]
  split
  · rename_i hw
    rcases htaken with ht | ⟨hf, -, -⟩
    · exact ht
    · simp [hf] at hw
  · rcases htaken with ht | ⟨-, hr, hd⟩
    · simp [ht]
    · have : isNumberTail c = true := by
        simp [isNumberTail, isNameChar, Char.isAlphanum, hd]
      simp [hr, this]

theorem scan_text_ne_nil (c : Char) (cs : List Char) : (scan c cs).text ≠ [] := by
  unfold scan
  split
  · simp
  · split
    · split <;> simp
    · split
      · split <;> simp [Scan.prepend]
      · split
        · rename_i h; exact number_text_ne_nil cs h
        · split
          · rename_i h
            have hc : isNameChar c = true := by
              simp only [isNameStart, isNameChar, Char.isAlphanum, Bool.or_eq_true] at h ⊢
              rcases h with h | h
              · exact Or.inl (Or.inl h)
              · exact Or.inr h
            simp [name, hc]
          · simp

theorem scan_rest_length (c : Char) (cs : List Char) :
    (scan c cs).rest.length ≤ cs.length := by
  have hw := congrArg List.length (scan_whole c cs)
  have hn := List.length_pos_iff.2 (scan_text_ne_nil c cs)
  simp only [Scan.whole, List.length_append, List.length_cons] at hw
  omega

/-! ### Pieces -/

/-- A lexeme with the ignored gap in front of it. -/
structure Piece where
  gap : List Char
  kind : TokenKind
  text : List Char

namespace Piece

def lexeme (p : Piece) : Lexeme := ⟨p.kind, String.ofList p.text⟩

/-- The characters of a piece, gap first. -/
def whole (p : Piece) : List Char := p.gap ++ p.text

end Piece

/-- The first piece of a text, and the text after it. When no lexeme is left the
piece is the end of the input, with all that is ignored in front of it. -/
def nextPiece (cs : List Char) : Piece × List Char :=
  match splitGap false cs with
  | (gap, []) => (⟨gap, .endOfInput, []⟩, [])
  | (gap, c :: r) =>
      let s := scan c r
      (⟨gap, s.kind, s.text⟩, s.rest)

theorem nextPiece_whole (cs : List Char) :
    (nextPiece cs).1.whole ++ (nextPiece cs).2 = cs := by
  have hgap := splitGap_append false cs
  unfold nextPiece
  split
  · rename_i gap h
    simpa [Piece.whole, h] using hgap
  · rename_i gap c r h
    have hscan := scan_whole c r
    simp only [Scan.whole] at hscan
    rw [h] at hgap
    simp only [Piece.whole, List.append_assoc]
    rw [hscan, hgap]

theorem scan_kind_ne_endOfInput (c : Char) (cs : List Char) :
    (scan c cs).kind ≠ .endOfInput := by
  have hstring : ∀ cs, (string cs).kind ≠ .endOfInput := by
    intro cs
    fun_induction string cs <;> simp_all [Scan.prepend]
  have hblock : ∀ cs, (blockString cs).kind ≠ .endOfInput := by
    intro cs
    fun_induction blockString cs <;> simp_all [Scan.prepend]
  unfold scan
  split
  · simp
  · split
    · split <;> simp
    · split
      · split
        · exact hblock _
        · exact hstring _
      · split
        · simp only [number]
          split
          · split <;> simp
          · simp
        · split
          · simp only [name, TokenKind.ofName]
            split <;> simp
          · simp

theorem nextPiece_rest_length {cs : List Char} (h : (nextPiece cs).1.kind ≠ .endOfInput) :
    (nextPiece cs).2.length < cs.length := by
  have hgap := congrArg List.length (splitGap_append false cs)
  simp only [List.length_append] at hgap
  unfold nextPiece at h ⊢
  split at h
  · exact absurd rfl h
  · rename_i gap c r heq
    have hrest := scan_rest_length c r
    simp only [heq, List.length_cons] at hgap ⊢
    omega

/-- The last piece takes everything that is left. -/
theorem nextPiece_rest_eq_nil {cs : List Char} (h : (nextPiece cs).1.kind = .endOfInput) :
    (nextPiece cs).2 = [] := by
  unfold nextPiece at h ⊢
  split at h
  · rfl
  · exact absurd h (scan_kind_ne_endOfInput _ _)

/-- Cuts a text into its pieces, the end of the input last. -/
def pieces (cs : List Char) : List Piece :=
  if (nextPiece cs).1.kind = .endOfInput then [(nextPiece cs).1]
  else (nextPiece cs).1 :: pieces (nextPiece cs).2
termination_by cs.length
decreasing_by exact nextPiece_rest_length (by assumption)

/-- The pieces of a text, put together again, are the text. -/
theorem flatten_pieces (cs : List Char) : ((pieces cs).map Piece.whole).flatten = cs := by
  fun_induction pieces cs with
  | case1 cs h =>
      have hw := nextPiece_whole cs
      rw [nextPiece_rest_eq_nil h] at hw
      simpa using hw
  | case2 cs h ih => simp [ih, nextPiece_whole]

end GraphQL.Lexer

namespace GraphQL

open Lexer Text

/-! ### Tokens -/

/-- A place in a source, and the text from there on. -/
structure Reader where
  offset : Nat
  rest : List Char

namespace Reader

def ofSource (source : String) : Reader := ⟨0, source.toList⟩

/-- Places a piece that starts at an offset. -/
def placePiece (offset : Nat) (p : Piece) : Token :=
  let start := offset + byteLength p.gap
  ⟨p.lexeme, ⟨start, start + byteLength p.text⟩⟩

/-- The next token, and the place after it. At the end of the input there is no
further token, and the same one is read again. -/
def next (r : Reader) : Token × Reader :=
  let (p, rest) := nextPiece r.rest
  let t := placePiece r.offset p
  (t, ⟨t.span.stop, rest⟩)

/-- Places pieces one after the other, the first one at an offset. -/
def place (offset : Nat) : List Piece → List Token
  | [] => []
  | p :: ps =>
      let t := placePiece offset p
      t :: place t.span.stop ps

/-- The tokens from a place on, the end of the input last. -/
def tokens (r : Reader) : List Token :=
  place r.offset (pieces r.rest)

/-- The tokens are those that reading one after the other gives. -/
theorem tokens_eq (r : Reader) :
    r.tokens =
      if r.next.1.kind = .endOfInput then [r.next.1] else r.next.1 :: r.next.2.tokens := by
  have hkind : r.next.1.kind = (nextPiece r.rest).1.kind := rfl
  rw [tokens, pieces, hkind]
  split <;> rfl

end Reader

/-- The tokens of a source, the end of the input last. -/
def tokenize (source : String) : List Token :=
  (Reader.ofSource source).tokens

end GraphQL
