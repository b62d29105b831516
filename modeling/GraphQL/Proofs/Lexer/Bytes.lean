import GraphQL.Proofs.Lexer.Numbers
import GraphQL.Proofs.Lexer.Tiling
import GraphQL.Proofs.Text.Utf8

/-!
The scanner on bytes. It looks at one byte at a time, knows its place by an offset of 32
bits, and steps over whole characters only in strings and where no token can start. Such
steps can fail: an offset can run out of bits, and a cut can leave the text or split a
character. Its loops can fail too, as a loop gets no more rounds than there are offsets.
Where the length of a text is itself an offset nothing fails, because the scanner never
stops inside a character and goes on with every round. It then finds the tokens that are
scanned character by character.
-/

namespace GraphQL.Lexer.Bytes

open Text

variable (text : List Char)

/-! ### The scanner -/

/-- Offsets have 32 bits. -/
def offset (n : Nat) : Option Nat := if n < UInt32.size then some n else none

/-- One round of a loop leads to another one, or it is the last. -/
inductive Round (σ α : Type)
  | again (state : σ)
  | stop (result : α)

/-- Goes round until a round is the last. So many rounds have to be enough. -/
def loop {σ α : Type} (round : σ → Option (Round σ α)) : Nat → σ → Option α
  | 0, _ => none
  | n + 1, state => do
      match ← round state with
      | .again state => loop round n state
      | .stop result => some result

/-- Goes round no more often than there are offsets. -/
@[irreducible]
def run {σ α : Type} (round : σ → Option (Round σ α)) (state : σ) : Option α :=
  loop round UInt32.size state

/-- Do these bytes stand so far behind an offset? No byte is looked at behind one that
differs. -/
def sees (pos : Nat) : Nat → List Char → Option Bool
  | _, [] => some true
  | ahead, c :: cs => do
      let place ← offset (pos + ahead)
      if byteAt text place = some c then sees pos (ahead + 1) cs else some false

/-- Goes past the character at an offset, which is cut off the text there. -/
def stepChar (pos : Nat) : Option Nat := do
  let (_, tail) ← splitAtByte pos text
  offset (pos + (tail.head?.map Char.utf8Size).getD 1)

def skipRound (p : Char → Bool) (pos : Nat) : Option (Round Nat Nat) :=
  if (byteAt text pos).any p then do return .again (← offset (pos + 1)) else some (.stop pos)

/-- Goes past the bytes of a class. -/
def skipWhile (p : Char → Bool) (pos : Nat) : Option Nat := run (skipRound text p) pos

/-- The bytes from an offset up to the end of its line. -/
def lineLength (pos : Nat) : Option Nat :=
  if pos ≤ (utf8 text).length then
    some (((utf8 text).drop pos).takeWhile fun b => !isLineEnd (Char.ofUInt8 b)).length
  else none

/-- Characters of one byte that are ignored, each on its own. -/
def isBlank (c : Char) : Bool := c == ' ' || c == '\t' || c == '\r' || c == '\n' || c == ','

/-- Three bytes are looked at for a byte order mark. -/
def ignoredRound (pos : Nat) : Option (Round Nat Nat) := do
  match byteAt text pos with
  | none => some (.stop pos)
  | some c =>
      if isBlank c then return .again (← offset (pos + 1))
      else if c = '#' then return .again (← offset (pos + (← lineLength text pos)))
      else if ← sees text pos 0 ['\u00EF', '\u00BB', '\u00BF'] then
        return .again (← offset (pos + 3))
      else some (.stop pos)

/-- Goes past what is ignored. -/
def skipIgnored (pos : Nat) : Option Nat := run (ignoredRound text) pos

/-- The rest of a malformed number. -/
def malformed (pos : Nat) : Option (TokenKind × Nat) := do
  return (.invalid, ← skipWhile text isNumberTail pos)

def numberEnd (kind : TokenKind) (pos : Nat) : Option (TokenKind × Nat) :=
  if (byteAt text pos).any fun c => c == '.' || c == '_' || c.isAlpha then malformed text pos
  else some (kind, pos)

/-- The digits of an exponent. -/
def exponentDigits (pos : Nat) : Option (TokenKind × Nat) :=
  if (byteAt text pos).any Char.isDigit then do
    numberEnd text .float (← skipWhile text Char.isDigit pos)
  else malformed text pos

def numberExponent (kind : TokenKind) (pos : Nat) : Option (TokenKind × Nat) :=
  if (byteAt text pos).any isExponentLetter then do
    let pos ← offset (pos + 1)
    if (byteAt text pos).any isSign then do
      exponentDigits text (← offset (pos + 1))
    else exponentDigits text pos
  else numberEnd text kind pos

def numberFraction (pos : Nat) : Option (TokenKind × Nat) :=
  if byteAt text pos = some '.' then do
    let pos ← offset (pos + 1)
    if (byteAt text pos).any Char.isDigit then
      numberExponent text .float (← skipWhile text Char.isDigit pos)
    else malformed text pos
  else numberExponent text .int pos

def numberWhole (pos : Nat) : Option (TokenKind × Nat) :=
  if byteAt text pos = some '0' then do
    let pos ← offset (pos + 1)
    if (byteAt text pos).any Char.isDigit then malformed text pos else numberFraction text pos
  else if (byteAt text pos).any Char.isDigit then do
    numberFraction text (← skipWhile text Char.isDigit pos)
  else malformed text pos

def number (pos : Nat) : Option (TokenKind × Nat) :=
  if byteAt text pos = some '-' then do numberWhole text (← offset (pos + 1))
  else numberWhole text pos

def name (pos : Nat) : Option (TokenKind × Nat) := do
  let stop ← skipWhile text isNameChar pos
  let word ← Span.slice ⟨pos, stop⟩ text
  return (.ofName (String.ofList word), stop)

def stringRound (pos : Nat) : Option (Round Nat (TokenKind × Nat)) :=
  match byteAt text pos with
  | none => some (.stop (.unterminated, pos))
  | some c =>
      if isLineEnd c then some (.stop (.unterminated, pos))
      else if c = '"' then do return .stop (.string, ← offset (pos + 1))
      else if c = '\\' then do
        let pos ← offset (pos + 1)
        if (byteAt text pos).isSome then return .again (← stepChar text pos)
        else return .again pos
      else do return .again (← stepChar text pos)

def string (pos : Nat) : Option (TokenKind × Nat) := run (stringRound text) pos

def blockRound (pos : Nat) : Option (Round Nat (TokenKind × Nat)) := do
  if (byteAt text pos).isNone then some (.stop (.unterminated, pos))
  else if ← sees text pos 0 ['"', '"', '"'] then return .stop (.blockString, ← offset (pos + 3))
  else if ← sees text pos 0 ['\\', '"', '"', '"'] then return .again (← offset (pos + 4))
  else return .again (← stepChar text pos)

def blockString (pos : Nat) : Option (TokenKind × Nat) := run (blockRound text) pos

def quoted (pos : Nat) : Option (TokenKind × Nat) := do
  let pos ← offset (pos + 1)
  if ← sees text pos 0 ['"', '"'] then blockString text (← offset (pos + 2))
  else string text pos

def dots (pos : Nat) : Option (TokenKind × Nat) := do
  if ← sees text pos 1 ['.', '.'] then return (.punctuator .spread, ← offset (pos + 3))
  else return (.invalid, ← offset (pos + 1))

def lexeme (c : Char) (pos : Nat) : Option (TokenKind × Nat) := do
  match Punctuator.ofChar? c with
  | some p => return (.punctuator p, ← offset (pos + 1))
  | none =>
      if c = '.' then dots text pos
      else if c = '"' then quoted text pos
      else if c = '-' ∨ c.isDigit then number text pos
      else if isNameStart c then name text pos
      else return (.invalid, ← stepChar text pos)

/-- The next token from an offset on. The one after it is looked for at its end. -/
def next (pos : Nat) : Option (TokenKind × Span) := do
  let start ← skipIgnored text pos
  match byteAt text start with
  | none => return (.endOfInput, .empty start)
  | some c =>
      let (kind, stop) ← lexeme text c start
      return (kind, ⟨start, stop⟩)

/-- Takes down one more token. The end of the input is the last. -/
def tokenRound : List (TokenKind × Span) × Nat →
    Option (Round (List (TokenKind × Span) × Nat) (List (TokenKind × Span)))
  | (ts, pos) => do
      let (kind, span) ← next text pos
      if kind = .endOfInput then return .stop (ts ++ [(kind, span)])
      else return .again (ts ++ [(kind, span)], span.stop)

/-- The tokens from an offset on. -/
def tokens (pos : Nat) : Option (List (TokenKind × Span)) := run (tokenRound text) ([], pos)

/-- So many tokens from an offset on, each looked for at the end of the one before it. -/
def reads : Nat → Nat → Option (List (TokenKind × Span))
  | 0, _ => some []
  | n + 1, pos => do
      let (kind, span) ← next text pos
      return (kind, span) :: (← reads n span.stop)

/-! ### Loops -/

section
variable {σ α : Type} {round : σ → Option (Round σ α)} {state state' : σ} {result : α}

/-- The loop comes to its end in so many rounds and one more. -/
def Ends (round : σ → Option (Round σ α)) (n : Nat) (state : σ) (result : α) : Prop :=
  ∀ m, n < m → loop round m state = some result

theorem Ends.stop (h : round state = some (.stop result)) (n : Nat) :
    Ends round n state result := by
  rintro (_ | m) hm
  · exact absurd hm (Nat.not_lt_zero n)
  · rw [loop, h]
    rfl

theorem Ends.run_eq {n : Nat} (h : Ends round n state result) (hn : n < UInt32.size) :
    run round state = some result := by
  rw [run]
  exact h _ hn

theorem Ends.again {n n' : Nat} (h : round state = some (.again state'))
    (hrest : Ends round n state' result) (hn : n < n') : Ends round n' state result := by
  rintro (_ | m) hm
  · exact absurd hm (Nat.not_lt_zero n')
  · rw [loop, h]
    exact hrest m (by omega)

end

/-! ### Standing between characters -/

/-- The scanner stands in a text behind one part of it and in front of another. Offsets
reach the end of the text. -/
structure Stands (text before rest : List Char) : Prop where
  eq : text = before ++ rest
  size : byteLength text < UInt32.size

variable {text before rest : List Char}

/-- No more rounds are left than there are characters. -/
theorem Stands.rounds (h : Stands text before rest) : rest.length < UInt32.size := by
  have hsize := h.size
  have hlength := length_le_byteLength rest
  rw [h.eq, byteLength_append] at hsize
  omega

theorem Stands.past (taken : List Char) (h : Stands text before (taken ++ rest)) :
    Stands text (before ++ taken) rest :=
  ⟨by rw [h.eq, List.append_assoc], h.size⟩

theorem Stands.next {c : Char} (h : Stands text before (c :: rest)) :
    Stands text (before ++ [c]) rest := Stands.past [c] h

theorem byteAt_eq (h : Stands text before rest) :
    byteAt text (byteLength before) = rest.head?.map shown := by
  rw [h.eq, byteAt_append]

theorem any_byteAt {p : Char → Bool} (hp : Narrow p) (h : Stands text before rest) :
    (byteAt text (byteLength before)).any p = rest.head?.any p := by
  rw [byteAt_eq h]
  cases rest with
  | nil => rfl
  | cons c rest => exact apply_shown hp c

theorem byteAt_eq_some_iff {d : Char} (hd : d.toNat < 128) (h : Stands text before rest) :
    byteAt text (byteLength before) = some d ↔ rest.head? = some d := by
  rw [byteAt_eq h]
  cases rest with
  | nil => simp
  | cons c rest => simp [shown_eq_iff hd]

theorem offset_eq (taken : List Char) {n : Nat} (h : Stands text before (taken ++ rest))
    (hn : n = byteLength taken) :
    offset (byteLength before + n) = some (byteLength (before ++ taken)) := by
  have hsize := h.size
  rw [h.eq, byteLength_append, byteLength_append] at hsize
  rw [hn, offset, if_pos (by omega), byteLength_append]

/-- One byte is enough for a character of ASCII. -/
theorem offset_next {c : Char} (h : Stands text before (c :: rest)) (hc : c.toNat < 128) :
    offset (byteLength before + 1) = some (byteLength (before ++ [c])) :=
  offset_eq [c] h (by simp [utf8Size_of_lt hc])

theorem stepChar_eq {c : Char} (h : Stands text before (c :: rest)) :
    stepChar text (byteLength before) = some (byteLength (before ++ [c])) := by
  have hcut : splitAtByte (byteLength before) text = some (before, c :: rest) := by
    rw [h.eq, splitAtByte_append]
  rw [stepChar, hcut]
  exact offset_eq [c] h rfl

theorem ends_skip {p : Char → Bool} (hp : Narrow p) (h : Stands text before rest) :
    Ends (skipRound text p) rest.length (byteLength before)
      (byteLength (before ++ rest.takeWhile p)) := by
  induction rest generalizing before with
  | nil =>
      refine .stop ?_ _
      rw [skipRound, any_byteAt hp h]
      simp
  | cons c rest ih =>
      cases hc : p c with
      | false =>
          refine .stop ?_ _
          rw [skipRound, any_byteAt hp h]
          simp [hc]
      | true =>
          have hrest := ih h.next
          rw [List.append_assoc] at hrest
          rw [List.takeWhile_cons_of_pos hc]
          refine .again ?_ hrest (Nat.lt_succ_self _)
          rw [skipRound, any_byteAt hp h, List.head?_cons, Option.any_some, hc, if_pos rfl,
            offset_next h (hp.lt hc)]
          rfl

theorem skipWhile_eq {p : Char → Bool} (hp : Narrow p) (h : Stands text before rest) :
    skipWhile text p (byteLength before) = some (byteLength (before ++ rest.takeWhile p)) :=
  (ends_skip hp h).run_eq h.rounds

/-! ### Several bytes -/

theorem sees_of_le {pos ahead : Nat} (hsize : (utf8 text).length < UInt32.size)
    (hle : pos + ahead ≤ (utf8 text).length) (w : List Char) :
    sees text pos ahead w =
      some (decide (w <+: ((utf8 text).drop (pos + ahead)).map Char.ofUInt8)) := by
  induction w generalizing ahead with
  | nil => simp [sees]
  | cons c w ih =>
      rw [sees, offset, if_pos (by omega), Option.bind_eq_bind, Option.bind_some, byteAt,
        ← List.head?_drop]
      cases hdrop : (utf8 text).drop (pos + ahead) with
      | nil => simp
      | cons b bs =>
          have hlength := congrArg List.length hdrop
          rw [List.length_drop, List.length_cons] at hlength
          have hbs : (utf8 text).drop (pos + (ahead + 1)) = bs := by
            rw [← Nat.add_assoc, ← List.drop_drop, hdrop]
            rfl
          rw [List.head?_cons, Option.map_some, ih (by omega), hbs]
          by_cases hc : Char.ofUInt8 b = c
          · rw [if_pos (congrArg some hc), ← hc]
            simp
          · rw [if_neg (mt Option.some.inj hc)]
            simp [Ne.symm hc]

theorem sees_bytes (front : List Char) {ahead : Nat} (h : Stands text before (front ++ rest))
    (hahead : ahead = byteLength front) (w : List Char) :
    sees text (byteLength before) ahead w =
      some (decide (w <+: (utf8 rest).map Char.ofUInt8)) := by
  have hlength := length_utf8 text
  have hsize := h.size
  have hdrop := drop_utf8 (before ++ front) rest
  rw [h.eq, ← List.append_assoc, byteLength_append, byteLength_append] at hlength hsize
  rw [h.eq, ← List.append_assoc, sees_of_le (by omega) (by omega), hahead, ← byteLength_append,
    hdrop]

theorem sees_eq (front : List Char) {ahead : Nat} (h : Stands text before (front ++ rest))
    (hahead : ahead = byteLength front) {w : List Char} (hw : ∀ d ∈ w, d.toNat < 128) :
    sees text (byteLength before) ahead w = some (decide (w <+: rest)) := by
  rw [sees_bytes front h hahead]
  exact congrArg some (decide_eq_decide.2 (prefix_utf8_iff hw rest))

theorem takeWhile_utf8 {p : Char → Bool} (hp : ∀ d, 128 ≤ d.toNat → p d = true) (cs : List Char) :
    ((utf8 cs).takeWhile fun b => p (Char.ofUInt8 b)).length = byteLength (cs.takeWhile p) := by
  induction cs with
  | nil => rfl
  | cons c cs ih =>
      rw [utf8_cons]
      rcases Nat.lt_or_ge c.toNat 128 with hc | hc
      · rw [utf8EncodeChar_of_lt hc, List.singleton_append, List.takeWhile_cons,
          List.takeWhile_cons, ofUInt8_ofNat hc]
        cases p c with
        | false => rfl
        | true => simp [ih, utf8Size_of_lt hc, Nat.add_comm]
      · have hall : ∀ b ∈ String.utf8EncodeChar c, p (Char.ofUInt8 b) = true := by
          intro b hb
          refine hp _ ?_
          rw [toNat_ofUInt8]
          exact le_of_mem_utf8EncodeChar hc hb
        rw [List.takeWhile_append_of_pos hall, List.length_append, String.length_utf8EncodeChar, ih,
          List.takeWhile_cons, hp c hc]
        rfl

theorem narrow_isLineEnd : Narrow isLineEnd := by
  intro d hd
  refine Bool.eq_false_iff.2 fun hend => ?_
  have hc : d = '\n' ∨ d = '\r' := by simpa [isLineEnd] using hend
  rcases hc with rfl | rfl
  · exact absurd hd (by decide)
  · exact absurd hd (by decide)

theorem lineLength_eq (h : Stands text before rest) :
    lineLength text (byteLength before) = some (byteLength (rest.takeWhile (!isLineEnd ·))) := by
  have hlength := length_utf8 text
  rw [h.eq, byteLength_append] at hlength
  have hwide : ∀ d : Char, 128 ≤ d.toNat → (!isLineEnd d) = true := by
    intro d hd
    rw [narrow_isLineEnd d hd]
    rfl
  rw [lineLength, h.eq, if_pos (by omega), drop_utf8, takeWhile_utf8 hwide]

/-! ### Gaps -/

theorem sees_byteOrderMark (h : Stands text before rest) :
    sees text (byteLength before) 0 ['\u00EF', '\u00BB', '\u00BF'] =
      some (decide ([byteOrderMark] <+: rest)) :=
  (sees_bytes [] h rfl _).trans
    (congrArg some (decide_eq_decide.2 (prefix_utf8_byteOrderMark_iff rest)))

theorem narrow_isBlank : Narrow isBlank := by
  intro d hd
  refine Bool.eq_false_iff.2 fun hblank => ?_
  simp only [isBlank, Bool.or_eq_true, beq_iff_eq] at hblank
  rcases hblank with (((rfl | rfl) | rfl) | rfl) | rfl
  all_goals exact absurd hd (by decide)

theorem isIgnored_iff {c : Char} : isIgnored c = true ↔ c = byteOrderMark ∨ isBlank c = true := by
  simp only [isIgnored, isBlank, isLineEnd, Bool.or_eq_true, beq_iff_eq]
  constructor
  · rintro ((((h | h) | h) | h) | h | h) <;> simp [h]
  · rintro (h | (((h | h) | h) | h) | h) <;> simp [h]

theorem ignoredRound_eq {c : Char} (h : Stands text before (c :: rest)) :
    ignoredRound text (byteLength before) =
      if isIgnored c then some (.again (byteLength (before ++ [c])))
      else if c = '#' then
        some (.again (byteLength (before ++ c :: rest.takeWhile (!isLineEnd ·))))
      else some (.stop (byteLength before)) := by
  have hsees := sees_byteOrderMark h
  rw [ignoredRound, byteAt_eq h]
  show (if isBlank (shown c) then _ else if shown c = '#' then _ else _) = _
  rw [apply_shown narrow_isBlank, hsees]
  by_cases hblank : isBlank c
  · rw [if_pos hblank, if_pos (isIgnored_iff.2 (.inr hblank)),
      offset_next h (narrow_isBlank.lt hblank)]
    rfl
  by_cases hhash : c = '#'
  · subst hhash
    have hline : ('#' :: rest).takeWhile (!isLineEnd ·) = '#' :: rest.takeWhile (!isLineEnd ·) :=
      List.takeWhile_cons_of_pos (by decide)
    have hcut : Stands text before
        ('#' :: rest.takeWhile (!isLineEnd ·) ++ rest.dropWhile (!isLineEnd ·)) := by
      rwa [List.cons_append, List.takeWhile_append_dropWhile]
    rw [if_neg (by decide), if_pos (shown_of_lt (by decide)), if_neg (by decide), if_pos rfl,
      lineLength_eq h, hline]
    show (offset _).bind _ = _
    rw [offset_eq _ hcut rfl]
    rfl
  rw [if_neg hblank, if_neg (mt (shown_eq_iff (by decide)).1 hhash), if_neg hhash]
  by_cases hmark : c = byteOrderMark
  · subst hmark
    have hoffset := offset_eq [byteOrderMark] (n := 3) h rfl
    rw [if_pos (by decide), decide_eq_true (List.cons_prefix_cons.2 ⟨rfl, List.nil_prefix⟩)]
    show (offset _).bind _ = _
    rw [hoffset]
    rfl
  · rw [if_neg (mt isIgnored_iff.1 (not_or.2 ⟨hmark, hblank⟩)),
      decide_eq_false fun hpre => hmark (List.cons_prefix_cons.1 hpre).1.symm]
    rfl

theorem ends_ignored (h : Stands text before rest) :
    Ends (ignoredRound text) rest.length (byteLength before)
      (byteLength (before ++ (splitGap false rest).1)) := by
  induction rest using gap_induction generalizing before with
  | nil =>
      refine .stop ?_ _
      rw [ignoredRound, byteAt_eq h]
      simp [splitGap]
  | ignored c cs hc ih =>
      rw [splitGap_ignored hc, List.append_cons]
      refine .again ?_ (ih h.next) (Nat.lt_succ_self _)
      rw [ignoredRound_eq h, if_pos hc]
  | comment cs ih =>
      have hgap : (splitGap false ('#' :: cs)).1 = '#' :: cs.takeWhile (!isLineEnd ·) ++
          (splitGap false (cs.dropWhile (!isLineEnd ·))).1 := by
        rw [splitGap_hash, splitGap_comment]
        rfl
      have hlength : (cs.dropWhile (!isLineEnd ·)).length < ('#' :: cs).length :=
        Nat.lt_succ_of_le (List.dropWhile_suffix _).length_le
      have hcut : Stands text before
          ('#' :: cs.takeWhile (!isLineEnd ·) ++ cs.dropWhile (!isLineEnd ·)) := by
        rwa [List.cons_append, List.takeWhile_append_dropWhile]
      rw [hgap, ← List.append_assoc]
      refine .again ?_ (ih (hcut.past _)) hlength
      rw [ignoredRound_eq h, if_neg (by decide), if_pos rfl]
  | lexeme c cs hc hhash =>
      rw [splitGap_lexeme hc hhash, List.append_nil]
      refine .stop ?_ _
      rw [ignoredRound_eq h, if_neg (Bool.eq_false_iff.1 hc), if_neg hhash]

theorem skipIgnored_eq (h : Stands text before rest) :
    skipIgnored text (byteLength before) =
      some (byteLength (before ++ (splitGap false rest).1)) :=
  (ends_ignored h).run_eq h.rounds

/-! ### Numbers -/

/-- What the scanner says about a scanned text: its kind, and where it ends. -/
def outcome (before : List Char) (s : Scan) : TokenKind × Nat :=
  (s.kind, byteLength (before ++ s.text))

variable {taken : List Char}

theorem malformed_eq (h : Stands text (before ++ taken) rest) :
    malformed text (byteLength (before ++ taken)) =
      some (outcome before (conclude ⟨false, taken, rest⟩)) := by
  rw [malformed, skipWhile_eq narrow_isNumberTail h, List.append_assoc]
  rfl

theorem numberEnd_eq (h : Stands text (before ++ taken) rest)
    (hdigit : ∀ d ∈ rest.head?, d.isDigit = false) :
    numberEnd text (kindOf taken) (byteLength (before ++ taken)) =
      some (outcome before (conclude ⟨true, taken, rest⟩)) := by
  have hnarrow : Narrow fun c => c == '.' || c == '_' || c.isAlpha := by
    refine narrow_of_joins fun c hc => joins_of_isNumberTail ?_
    simp only [Bool.or_eq_true] at hc
    simp only [isNumberTail, isNameChar, Char.isAlphanum, Bool.or_eq_true]
    rcases hc with (hc | hc) | hc <;> simp [hc]
  have hcontinues :
      rest.head?.any (fun c => c == '.' || c == '_' || c.isAlpha) = continues rest := by
    cases rest with
    | nil => rfl
    | cons d rest =>
        simp only [List.head?_cons, Option.any_some, continues, isNumberTail, isNameChar,
          Char.isAlphanum, hdigit d rfl, Bool.or_false]
        cases d == '.' <;> cases d == '_' <;> cases d.isAlpha <;> rfl
  rw [numberEnd, any_byteAt hnarrow h, hcontinues]
  cases hc : continues rest with
  | true =>
      rw [if_pos rfl, malformed_eq h]
      simp [conclude, hc]
  | false =>
      rw [if_neg (by decide)]
      simp [conclude, hc, outcome]

/-- There are digits, or there are none to skip. -/
theorem digits_cases (h : Stands text (before ++ taken) rest) :
    ((byteAt text (byteLength (before ++ taken))).any Char.isDigit = false ∧
      digits taken rest = ⟨false, taken, rest⟩) ∨
    ∃ ds after, digits taken rest = ⟨true, taken ++ ds, after⟩ ∧
      (byteAt text (byteLength (before ++ taken))).any Char.isDigit = true ∧
      skipWhile text Char.isDigit (byteLength (before ++ taken)) =
        some (byteLength (before ++ (taken ++ ds))) ∧
      Stands text (before ++ (taken ++ ds)) after ∧ (∀ d ∈ after.head?, d.isDigit = false) ∧
      ds.any marksFloat = false := by
  have hskip := skipWhile_eq narrow_isDigit h
  have hcut : Stands text (before ++ taken)
      (rest.takeWhile Char.isDigit ++ rest.dropWhile Char.isDigit) := by
    rwa [List.takeWhile_append_dropWhile]
  have hafter := hcut.past _
  rw [List.append_assoc] at hskip hafter
  rw [any_byteAt narrow_isDigit h]
  cases rest with
  | nil => exact .inl ⟨rfl, by simp [digits]⟩
  | cons c rest =>
      cases hc : c.isDigit with
      | false => exact .inl ⟨hc, by simp [digits, hc]⟩
      | true =>
          refine .inr ⟨_, _, ?_, hc, hskip, hafter, head_dropWhile _, ?_⟩
          · simp [digits, hc]
          · refine List.any_eq_false.2 fun d hd => ?_
            simp [marksFloat_of_isDigit (List.all_eq_true.1 List.all_takeWhile d hd)]

theorem exponentDigits_eq (h : Stands text (before ++ taken) rest)
    (hfloat : taken.any marksFloat = true) :
    exponentDigits text (byteLength (before ++ taken)) =
      some (outcome before (conclude (digits taken rest))) := by
  rcases digits_cases h with ⟨hbyte, hdigits⟩ | ⟨ds, after, hdigits, hbyte, hskip, hafter, hhead, -⟩
  · rw [exponentDigits, hbyte, hdigits, if_neg (by decide), malformed_eq h]
  · have hkind : kindOf (taken ++ ds) = .float := by simp [kindOf, hfloat]
    rw [exponentDigits, hbyte, hdigits, if_pos rfl, hskip, ← numberEnd_eq hafter hhead, hkind]
    rfl

theorem offset_taken {c : Char} (h : Stands text (before ++ taken) (c :: rest))
    (hc : c.toNat < 128) : offset (byteLength (before ++ taken) + 1) =
      some (byteLength (before ++ (taken ++ [c]))) := by
  rw [offset_next h hc, List.append_assoc]

theorem Stands.take {c : Char} (h : Stands text (before ++ taken) (c :: rest)) :
    Stands text (before ++ (taken ++ [c])) rest := by
  rw [← List.append_assoc]
  exact h.next

theorem any_head_cases (p : Char → Bool) (r : List Char) :
    (r.head?.any p = false) ∨ ∃ c cs, r = c :: cs ∧ p c = true := by
  cases r with
  | nil => exact .inl rfl
  | cons c cs =>
      cases hc : p c with
      | false => exact .inl hc
      | true => exact .inr ⟨c, cs, rfl, hc⟩

theorem numberExponent_eq (h : Stands text (before ++ taken) rest)
    (hdigit : ∀ d ∈ rest.head?, d.isDigit = false) :
    numberExponent text (kindOf taken) (byteLength (before ++ taken)) =
      some (outcome before (conclude ((exponent rest).prepend taken))) := by
  have hletters : Narrow isExponentLetter := by
    refine narrow_of_joins fun c hc => ?_
    rcases isExponentLetter_iff.1 hc with rfl | rfl <;> rfl
  have hsigns : Narrow isSign := by
    refine narrow_of_joins fun c hc => ?_
    rcases isSign_iff.1 hc with rfl | rfl <;> rfl
  rw [numberExponent, any_byteAt hletters h]
  rcases any_head_cases isExponentLetter rest with hnone | ⟨c, cs, rfl, hc⟩
  · have habsent : exponent rest = .absent rest := by
      refine exponent_of_head fun d hd => ?_
      rw [Option.mem_def.1 hd] at hnone
      exact not_or.1 (mt isExponentLetter_iff.2 (Bool.eq_false_iff.1 hnone))
    rw [hnone, if_neg (by decide), numberEnd_eq h hdigit, habsent, Part.absent, Part.prepend,
      List.append_nil]
  · have hletter := isExponentLetter_iff.1 hc
    have hfloat : ∀ back, (taken ++ c :: back).any marksFloat = true := by
      intro back
      rcases hletter with rfl | rfl <;> simp [marksFloat]
    rw [List.head?_cons, Option.any_some, hc, if_pos rfl, offset_taken h (hletters.lt hc)]
    show (if (byteAt text _).any isSign then _ else _) = _
    rw [any_byteAt hsigns h.take]
    rcases any_head_cases isSign cs with hnone | ⟨s, ds, rfl, hs⟩
    · have hunsigned : exponent (c :: cs) = digits [c] cs := by
        refine exponent_unsigned hletter fun d hd => ?_
        rw [Option.mem_def.1 hd] at hnone
        exact not_or.1 (mt isSign_iff.2 (Bool.eq_false_iff.1 hnone))
      rw [hnone, if_neg (by decide), exponentDigits_eq h.take (hfloat []), hunsigned,
        digits_prepend]
    · have hdigits := exponentDigits_eq h.take.take (by simpa using hfloat [s])
      have hfront : taken ++ [c] ++ [s] = taken ++ [c, s] := by simp
      rw [hfront] at hdigits
      rw [List.head?_cons, Option.any_some, hs, if_pos rfl, offset_taken h.take (hsigns.lt hs),
        exponent_signed hletter (isSign_iff.1 hs), digits_prepend, hfront]
      exact hdigits

theorem numberFraction_eq (h : Stands text (before ++ taken) rest)
    (hint : kindOf taken = .int) (hdigit : ∀ d ∈ rest.head?, d.isDigit = false) :
    numberFraction text (byteLength (before ++ taken)) =
      some (outcome before (conclude (tailParts taken rest))) := by
  have hbyte := byteAt_eq_some_iff (d := '.') (by decide) h
  rcases head_cases '.' rest with hne | ⟨cs, rfl⟩
  · have hnot : ¬rest.head? = some '.' := fun hdot => hne '.' hdot rfl
    rw [numberFraction, if_neg (mt hbyte.1 hnot), ← hint, numberExponent_eq h hdigit, tailParts,
      fraction_of_head hne]
    simp [Part.absent, Part.prepend]
  · rw [numberFraction, if_pos (hbyte.2 rfl), offset_taken h (by decide)]
    show (if (byteAt text _).any Char.isDigit then _ else _) = _
    have htail : ∀ p, digits (taken ++ ['.']) cs = p → tailParts taken ('.' :: cs) =
        if p.wellFormed then (exponent p.rest).prepend p.taken else p := by
      rintro p rfl
      rw [← digits_prepend]
      rfl
    rcases digits_cases h.take with ⟨hbyte, hdigits⟩ |
      ⟨ds, after, hdigits, hbyte, hskip, hafter, hhead, -⟩
    · rw [hbyte, if_neg (by decide), malformed_eq h.take, htail _ hdigits]
      rfl
    · have hkind : kindOf (taken ++ ['.'] ++ ds) = .float := by simp [kindOf, marksFloat]
      rw [hbyte, if_pos rfl, hskip, htail _ hdigits, ← hkind]
      exact numberExponent_eq hafter hhead

theorem numberWhole_eq (h : Stands text (before ++ taken) rest)
    (hint : taken.any marksFloat = false) :
    numberWhole text (byteLength (before ++ taken)) =
      some (outcome before (conclude (unsignedParts taken rest))) := by
  have hbyte := byteAt_eq_some_iff (d := '0') (by decide) h
  have hkind : ∀ ds, ds.any marksFloat = false → kindOf (taken ++ ds) = .int := by
    intro ds hds
    simp [kindOf, hint, hds]
  rcases head_cases '0' rest with hne | ⟨cs, rfl⟩
  · have hnot : ¬rest.head? = some '0' := fun hzero => hne '0' hzero rfl
    have hwhole : (wholePart rest).prepend taken = digits taken rest := by
      rw [wholePart_of_head hne, digits_prepend, List.append_nil]
    rw [numberWhole, if_neg (mt hbyte.1 hnot), unsignedParts_eq, hwhole]
    rcases digits_cases h with ⟨hbyte, hdigits⟩ |
      ⟨ds, after, hdigits, hbyte, hskip, hafter, hhead, hds⟩
    · rw [hbyte, if_neg (by decide), malformed_eq h, hdigits]
      rfl
    · rw [hbyte, if_pos rfl, hskip, hdigits]
      exact numberFraction_eq hafter (hkind ds hds) hhead
  · rw [numberWhole, if_pos (hbyte.2 rfl), offset_taken h (by decide), unsignedParts_eq,
      wholePart_zero]
    show (if (byteAt text _).any Char.isDigit then _ else _) = _
    rw [any_byteAt narrow_isDigit h.take]
    cases hcs : cs.head?.any Char.isDigit with
    | true =>
        rw [if_pos rfl, if_pos rfl, malformed_eq h.take]
        simp [conclude, outcome, Part.prepend, isNumberTail, isNameChar, Char.isAlphanum]
    | false =>
        have hdigit : ∀ d ∈ cs.head?, d.isDigit = false := by
          intro d hd
          rw [Option.mem_def.1 hd] at hcs
          exact hcs
        rw [if_neg (by decide)]
        exact numberFraction_eq h.take (hkind ['0'] rfl) hdigit

theorem number_eq (h : Stands text before rest) : number text (byteLength before) =
    some (outcome before (Lexer.number rest)) := by
  have hbyte := byteAt_eq_some_iff (d := '-') (by decide) h
  rw [number_eq_conclude]
  rcases head_cases '-' rest with hne | ⟨cs, rfl⟩
  · have hnot : ¬rest.head? = some '-' := fun hminus => hne '-' hminus rfl
    have hstart : Stands text (before ++ []) rest := by rwa [List.append_nil]
    have hwhole := numberWhole_eq hstart rfl
    rw [List.append_nil] at hwhole
    rw [number, if_neg (mt hbyte.1 hnot), numberParts_of_head hne, hwhole]
  · have hwhole := numberWhole_eq h.next rfl
    rw [number, if_pos (hbyte.2 rfl), offset_next h (by decide), numberParts_minus]
    exact hwhole

/-! ### Names and strings -/

theorem name_eq (h : Stands text before rest) : name text (byteLength before) =
    some (outcome before (Lexer.name rest)) := by
  have hslice := Span.slice_append before (rest.takeWhile isNameChar) (rest.dropWhile isNameChar)
  rw [List.takeWhile_append_dropWhile, ← h.eq] at hslice
  rw [name, skipWhile_eq narrow_isNameChar h]
  show (Span.slice _ text).bind _ = _
  rw [hslice]
  rfl

theorem outcome_prepend (before front : List Char) (s : Scan) :
    outcome before (s.prepend front) = outcome (before ++ front) s := by
  simp [outcome, Scan.prepend]

theorem stringRound_eq {c : Char} (h : Stands text before (c :: rest)) :
    stringRound text (byteLength before) =
      if isLineEnd c then some (.stop (.unterminated, byteLength before))
      else if c = '"' then some (.stop (.string, byteLength (before ++ [c])))
      else if c = '\\' then some (.again (byteLength (before ++ c :: rest.take 1)))
      else some (.again (byteLength (before ++ [c]))) := by
  rw [stringRound, byteAt_eq h]
  show (if isLineEnd (shown c) then _ else if shown c = '"' then _ else if shown c = '\\' then _
    else _) = _
  rw [apply_shown narrow_isLineEnd]
  refine ite_congr rfl (fun _ => rfl) fun _ => ?_
  refine ite_congr (propext (shown_eq_iff (by decide))) (fun hquote => ?_) fun _ => ?_
  · rw [offset_next h (hquote ▸ by decide)]
    rfl
  refine ite_congr (propext (shown_eq_iff (by decide))) (fun hback => ?_) fun _ => ?_
  · rw [offset_next h (hback ▸ by decide)]
    show (if (byteAt text _).isSome then _ else _) = _
    rw [byteAt_eq h.next]
    -- Behind the last character no other is escaped.
    cases rest with
    | nil => rfl
    | cons d rest =>
        rw [if_pos (by rfl), stepChar_eq h.next, List.append_assoc]
        rfl
  · rw [stepChar_eq h]
    rfl

theorem ends_string (h : Stands text before rest) :
    Ends (stringRound text) rest.length (byteLength before)
      (outcome before (Lexer.string rest)) := by
  fun_induction Lexer.string rest generalizing before with
  | case1 =>
      refine .stop ?_ _
      rw [stringRound, byteAt_eq h]
      simp [outcome]
  | case2 c cs ih =>
      have hlength : cs.length < ('\\' :: c :: cs).length := by
        simp only [List.length_cons]
        omega
      rw [outcome_prepend]
      refine .again ?_ (ih (h.past ['\\', c])) hlength
      rw [stringRound_eq h, if_neg (by decide), if_neg (by decide), if_pos rfl]
      rfl
  | case3 cs =>
      refine .stop ?_ _
      rw [stringRound_eq h, if_neg (by decide), if_pos rfl]
      rfl
  | case4 c cs hnot hquote hend =>
      refine .stop ?_ _
      rw [stringRound_eq h, if_pos hend, outcome, List.append_nil]
  | case5 c cs hnot hquote hend ih =>
      have htake : c = '\\' → cs.take 1 = [] := by
        rintro rfl
        cases cs with
        | nil => rfl
        | cons d cs => exact absurd rfl (hnot d cs rfl)
      rw [outcome_prepend]
      refine .again ?_ (ih h.next) (Nat.lt_succ_self _)
      rw [stringRound_eq h, if_neg hend, if_neg hquote]
      by_cases hback : c = '\\'
      · rw [if_pos hback, htake hback]
      · rw [if_neg hback]

theorem string_eq (h : Stands text before rest) : string text (byteLength before) =
    some (outcome before (Lexer.string rest)) :=
  (ends_string h).run_eq h.rounds

theorem sees_prefix {w : List Char} (hw : ∀ d ∈ w, d.toNat < 128)
    (h : Stands text before rest) :
    sees text (byteLength before) 0 w = some (decide (w <+: rest)) :=
  sees_eq [] h rfl hw

theorem blockRound_eq {c : Char} (h : Stands text before (c :: rest)) :
    blockRound text (byteLength before) =
      if ['"', '"', '"'] <+: c :: rest then
        (offset (byteLength before + 3)).map fun stop => .stop (.blockString, stop)
      else if ['\\', '"', '"', '"'] <+: c :: rest then
        (offset (byteLength before + 4)).map .again
      else some (.again (byteLength (before ++ [c]))) := by
  have hbyte : ¬(byteAt text (byteLength before)).isNone = true := by
    rw [byteAt_eq h]
    exact Bool.false_ne_true
  rw [blockRound, if_neg hbyte, sees_prefix (by simp) h, sees_prefix (by simp) h, stepChar_eq h]
  simp only [Option.bind_eq_bind, Option.bind_some, decide_eq_true_eq, Option.pure_def,
    Option.map_eq_bind, Function.comp_def]

theorem ends_blockString (h : Stands text before rest) :
    Ends (blockRound text) rest.length (byteLength before)
      (outcome before (Lexer.blockString rest)) := by
  fun_induction Lexer.blockString rest generalizing before with
  | case1 =>
      refine .stop ?_ _
      rw [blockRound, byteAt_eq h]
      simp [outcome]
  | case2 cs =>
      have hoffset := offset_eq ['"', '"', '"'] (n := 3) h rfl
      refine .stop ?_ _
      rw [blockRound_eq h, if_pos ⟨cs, rfl⟩, hoffset]
      rfl
  | case3 cs ih =>
      have hoffset := offset_eq ['\\', '"', '"', '"'] (n := 4) h rfl
      have hnot : ¬['"', '"', '"'] <+: '\\' :: '"' :: '"' :: '"' :: cs := by simp
      have hlength : cs.length < ('\\' :: '"' :: '"' :: '"' :: cs).length := by
        simp only [List.length_cons]
        omega
      rw [outcome_prepend]
      refine .again ?_ (ih (h.past ['\\', '"', '"', '"'])) hlength
      rw [blockRound_eq h, if_neg hnot, if_pos ⟨cs, rfl⟩, hoffset]
      rfl
  | case4 c cs hclose hescape ih =>
      have hnot : ¬['"', '"', '"'] <+: c :: cs := by
        rintro ⟨t, ht⟩
        cases ht
        exact hclose t rfl rfl
      have hnot' : ¬['\\', '"', '"', '"'] <+: c :: cs := by
        rintro ⟨t, ht⟩
        cases ht
        exact hescape t rfl rfl
      rw [outcome_prepend]
      refine .again ?_ (ih h.next) (Nat.lt_succ_self _)
      rw [blockRound_eq h, if_neg hnot, if_neg hnot']

theorem blockString_eq (h : Stands text before rest) : blockString text (byteLength before) =
    some (outcome before (Lexer.blockString rest)) :=
  (ends_blockString h).run_eq h.rounds

theorem quoted_eq (h : Stands text before ('"' :: rest)) : quoted text (byteLength before) =
    some (outcome before (scan '"' rest)) := by
  have hsees := sees_prefix (w := ['"', '"']) (by simp) h.next
  rw [quoted, offset_next h (by decide)]
  show (sees text _ 0 _).bind _ = _
  rw [hsees]
  show (if decide (['"', '"'] <+: rest) = true then _ else _) = _
  by_cases hblock : ['"', '"'] <+: rest
  · obtain ⟨cs, rfl⟩ := hblock
    have hoffset := offset_eq ['"', '"'] (n := 2) h.next rfl
    rw [if_pos (decide_eq_true ⟨cs, rfl⟩), hoffset]
    show blockString text _ = some (outcome before ((Lexer.blockString cs).prepend ['"', '"', '"']))
    rw [outcome_prepend]
    have hfront : before ++ ['"'] ++ ['"', '"'] = before ++ ['"', '"', '"'] := by simp
    rw [hfront]
    exact blockString_eq (h.past ['"', '"', '"'])
  · rw [if_neg (by simpa using hblock), scan_quote_string hblock, outcome_prepend]
    exact string_eq h.next

theorem dots_eq (h : Stands text before ('.' :: rest)) : dots text (byteLength before) =
    some (outcome before (scan '.' rest)) := by
  have hsees : sees text (byteLength before) 1 ['.', '.'] = some (decide (['.', '.'] <+: rest)) :=
    sees_eq ['.'] h rfl (by simp)
  rw [dots, hsees]
  show (if decide (['.', '.'] <+: rest) = true then _ else _) = _
  by_cases hspread : ['.', '.'] <+: rest
  · obtain ⟨cs, rfl⟩ := hspread
    have hoffset := offset_eq ['.', '.', '.'] (n := 3) h rfl
    rw [if_pos (decide_eq_true ⟨cs, rfl⟩), hoffset]
    rfl
  · rw [if_neg (by simpa using hspread), offset_next h (by decide), scan_dot_alone hspread]
    rfl

theorem narrow_punctuator {d : Char} (hd : 128 ≤ d.toNat) : Punctuator.ofChar? d = none := by
  unfold Punctuator.ofChar?
  split
  all_goals first | rfl | exact absurd hd (by decide)

theorem narrow_isNameStart : Narrow isNameStart := by
  refine narrow_of_joins fun c hc => joins_of_isNameChar ?_
  simp only [isNameStart, Bool.or_eq_true] at hc
  simp only [isNameChar, Char.isAlphanum, Bool.or_eq_true]
  rcases hc with hc | hc <;> simp [hc]

theorem lexeme_eq {c : Char} (h : Stands text before (c :: rest)) :
    lexeme text (shown c) (byteLength before) = some (outcome before (scan c rest)) := by
  unfold lexeme
  rw [apply_shown (f := Punctuator.ofChar?) fun d hd => narrow_punctuator hd]
  cases hp : Punctuator.ofChar? c with
  | some p =>
      have hlt : c.toNat < 128 := by
        refine Nat.lt_of_not_le fun hle => ?_
        rw [narrow_punctuator hle] at hp
        cases hp
      rw [scan_punctuator hp, offset_next h hlt]
      rfl
  | none =>
      have hiff : ∀ d : Char, d.toNat < 128 → (shown c = d ↔ c = d) := fun d hd => shown_eq_iff hd
      simp only [hiff '.' (by decide), hiff '"' (by decide), hiff '-' (by decide),
        apply_shown narrow_isDigit, apply_shown narrow_isNameStart]
      by_cases hdot : c = '.'
      · subst hdot
        exact dots_eq h
      · rw [if_neg hdot]
        by_cases hquote : c = '"'
        · subst hquote
          exact quoted_eq h
        · unfold scan
          rw [hp]
          simp only [if_neg hdot, if_neg hquote]
          split
          · exact number_eq h
          · split
            · exact name_eq h
            · rw [stepChar_eq h]
              rfl

/-! ### Tokens -/

/-- What the scanner says about a token. -/
def brief (t : Token) : TokenKind × Span := (t.kind, t.span)

theorem next_eq (h : Stands text before rest) :
    next text (byteLength before) = some (brief (Reader.next ⟨byteLength before, rest⟩).1) := by
  have hwhole := splitGap_append false rest
  rw [next, skipIgnored_eq h]
  show (match byteAt text (byteLength (before ++ (splitGap false rest).1)) with
    | none => _
    | some c => _) = _
  cases hsplit : splitGap false rest with
  | mk gap after =>
      rw [hsplit] at hwhole
      subst hwhole
      cases after with
      | nil =>
          rw [byteAt_eq (h.past _), Reader.next_of_end hsplit, List.append_nil, ← byteLength_append]
          rfl
      | cons c r =>
          rw [byteAt_eq (h.past _)]
          show (lexeme text (shown c) (byteLength (before ++ gap))).bind _ = _
          rw [lexeme_eq (h.past _), Reader.next, nextPiece_of_lexeme hsplit]
          simp only [Reader.placePiece_eq]
          rfl

/-- Behind a token, the scanner stands where the reader does. -/
theorem Stands.reader (h : Stands text before rest) :
    ∃ before', Stands text before' (Reader.next ⟨byteLength before, rest⟩).2.rest ∧
      (Reader.next ⟨byteLength before, rest⟩).2.offset = byteLength before' := by
  rw [← nextPiece_whole rest] at h
  refine ⟨before ++ (nextPiece rest).1.whole, h.past _, ?_⟩
  show (Reader.placePiece (byteLength before) (nextPiece rest).1).span.stop = _
  rw [Reader.placePiece_eq, Piece.whole, ← List.append_assoc]

theorem ends_tokens (ts : List (TokenKind × Span)) (h : Stands text before rest) :
    Ends (tokenRound text) rest.length (ts, byteLength before)
      (ts ++ (Reader.tokens ⟨byteLength before, rest⟩).map brief) := by
  fun_induction pieces rest generalizing before ts with
  | case1 rest hend =>
      have hkind : (Reader.next ⟨byteLength before, rest⟩).1.kind = .endOfInput := hend
      refine .stop ?_ _
      rw [tokenRound, next_eq h, Reader.tokens_eq, if_pos hkind]
      exact if_pos hkind
  | case2 rest hpiece ih =>
      have hkind : (Reader.next ⟨byteLength before, rest⟩).1.kind ≠ .endOfInput := hpiece
      obtain ⟨before', hstands, hoffset⟩ := h.reader
      have hrest := ih (ts ++ [brief (Reader.next ⟨byteLength before, rest⟩).1]) hstands
      rw [← hoffset, List.append_assoc] at hrest
      rw [Reader.tokens_eq, if_neg hkind]
      refine .again ?_ hrest (nextPiece_rest_length hpiece)
      rw [tokenRound, next_eq h]
      exact if_neg hkind

theorem tokens_eq (h : Stands text before rest) : tokens text (byteLength before) =
    some ((Reader.tokens ⟨byteLength before, rest⟩).map brief) :=
  (ends_tokens [] h).run_eq h.rounds

theorem reads_eq (n : Nat) (h : Stands text before rest) : reads text n (byteLength before) =
    some ((Reader.read n ⟨byteLength before, rest⟩).map brief) := by
  induction n generalizing before rest with
  | zero => rfl
  | succ n ih =>
      obtain ⟨before', hstands, hoffset⟩ := h.reader
      have hrest := ih hstands
      rw [← hoffset] at hrest
      rw [reads, next_eq h]
      show (reads text n (Reader.next ⟨byteLength before, rest⟩).2.offset).bind _ = _
      rw [hrest]
      rfl

end GraphQL.Lexer.Bytes

namespace GraphQL

open Lexer

/-- The scanner cuts every source whose offsets have 32 bits into the tokens of the source,
and these tile it. Read on behind the end of the input, it finds that end again. -/
theorem tokenize_tiles {source : String} (h : source.utf8ByteSize < UInt32.size) :
    Bytes.tokens source.toList 0 = some ((tokenize source).map Bytes.brief) ∧
    Tiles source.toList (tokenize source) ∧
    ∀ n, let more : List Token :=
        tokenize source ++ List.replicate n ⟨.endOfInput, .empty source.utf8ByteSize⟩
      (Reader.ofSource source).read ((tokenize source).length + n) = more ∧
      Bytes.reads source.toList ((tokenize source).length + n) 0 = some (more.map Bytes.brief) := by
  have hstands : Bytes.Stands source.toList [] source.toList :=
    ⟨rfl, by rwa [Text.byteLength_toList]⟩
  refine ⟨Bytes.tokens_eq hstands, tiles_tokenize source, fun n => ?_⟩
  have hread := (Reader.ofSource source).read_tokens n
  rw [show (Reader.ofSource source).offset = 0 from rfl, Nat.zero_add] at hread
  change _ = tokenize source ++ List.replicate n ⟨.endOfInput, .empty (Text.byteLength _)⟩ at hread
  rw [show (Reader.ofSource source).rest = source.toList from rfl, Text.byteLength_toList] at hread
  refine ⟨hread, ?_⟩
  rw [← hread]
  exact Bytes.reads_eq _ hstands

theorem tokenize_tiles_example :
    let s := "\uFEFF#é\r\"\\é\" -01é!"
    s.utf8ByteSize < UInt32.size ∧
      Bytes.tokens s.toList 0 = some [(.string, ⟨7, 12⟩), (.invalid, ⟨13, 16⟩),
        (.invalid, ⟨16, 18⟩), (.punctuator .bang, ⟨18, 19⟩), (.endOfInput, ⟨19, 19⟩)] := by
  intro s
  have hsize : s.utf8ByteSize < UInt32.size := by decide
  have htokens : (tokenize s).map Bytes.brief = [(.string, ⟨7, 12⟩), (.invalid, ⟨13, 16⟩),
      (.invalid, ⟨16, 18⟩), (.punctuator .bang, ⟨18, 19⟩), (.endOfInput, ⟨19, 19⟩)] := by
    decide +kernel
  exact ⟨hsize, (tokenize_tiles hsize).1.trans (congrArg some htokens)⟩

end GraphQL
