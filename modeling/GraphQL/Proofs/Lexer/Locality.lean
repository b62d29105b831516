import GraphQL.Proofs.Lexer.Coherence

/-!
How far the scanner looks. A string ends by itself, whatever stands behind it.
Numbers and names end at the first character that cannot belong to them, so a
change of the text behind them makes no difference as long as such a character
or the end of the text stays where it was.
-/

namespace GraphQL.Lexer

/-- Characters that make a difference to a number or a name that they touch. -/
def joins (c : Char) : Bool := isNumberTail c || c == '+' || c == '-'

theorem joins_of_isNameChar {c : Char} (h : isNameChar c = true) : joins c = true := by
  simp [joins, isNumberTail, h]

/-- Letters are those of ASCII. -/
theorem isAlpha_eq (c : Char) : c.isAlpha =
    (decide ('A'.val ≤ c.val ∧ c.val ≤ 'Z'.val) ||
      (decide ('a'.val ≤ c.val) && decide (c.val ≤ 'z'.val))) := rfl

/-- Digits, letters and what stands between them in ASCII. -/
theorem toNat_of_isNameChar {c : Char} (h : isNameChar c = true) :
    48 ≤ c.toNat ∧ c.toNat ≤ 122 := by
  simp only [isNameChar, Char.isAlphanum, isAlpha_eq, Char.isDigit, Bool.or_eq_true,
    Bool.and_eq_true, decide_eq_true_eq, beq_iff_eq, ge_iff_le, UInt32.le_iff_toNat_le] at h
  have hval : c.val.toNat = c.toNat := rfl
  rw [hval] at h
  rcases h with ((h | h) | h) | rfl
  · simp at h
    omega
  · simp at h
    omega
  · simp at h
    omega
  · decide

theorem joins_of_isDigit {c : Char} (h : c.isDigit = true) : joins c = true :=
  joins_of_isNameChar (by simp [isNameChar, Char.isAlphanum, h])

theorem joins_of_isNumberTail {c : Char} (h : isNumberTail c = true) : joins c = true := by
  simp [joins, h]

/-- The characters at the front, if there are any, do not join. -/
def Stops (cs : List Char) : Prop := ∀ c ∈ cs.head?, joins c = false

theorem Stops.head_ne {cs : List Char} {d : Char} (h : Stops cs) (hd : joins d = true) :
    ∀ c ∈ cs.head?, c ≠ d := by
  rintro c hc rfl
  rw [h c hc] at hd
  cases hd

/-- A change of texts in a class that keeps what joins and stops where they stop. -/
structure Keeps (D : List Char → Prop) (F : List Char → List Char) : Prop where
  joined : ∀ c r, D (c :: r) → joins c = true → F (c :: r) = c :: F r ∧ D r
  stopped : ∀ r, D r → Stops r → Stops (F r)

namespace Part

def mapRest (F : List Char → List Char) (p : Part) : Part := { p with rest := F p.rest }

end Part

namespace Scan

def mapRest (F : List Char → List Char) (s : Scan) : Scan := { s with rest := F s.rest }

end Scan

/-! ### The parts of a number -/

theorem stops_or_joins (r : List Char) : Stops r ∨ ∃ c cs, r = c :: cs ∧ joins c = true := by
  cases r with
  | nil => exact .inl nofun
  | cons c cs =>
      cases hc : joins c with
      | true => exact .inr ⟨c, cs, rfl, hc⟩
      | false =>
          refine .inl ?_
          rintro d ⟨⟩
          exact hc

theorem takeWhile_of_stops {p : Char → Bool} (hp : ∀ c, p c = true → joins c = true)
    {r : List Char} (h : Stops r) : r.takeWhile p = [] ∧ r.dropWhile p = r := by
  cases r with
  | nil => exact ⟨rfl, rfl⟩
  | cons c cs =>
      have hc : p c = false := by
        cases hpc : p c with
        | false => rfl
        | true =>
            have hjoins := hp c hpc
            rw [h c rfl] at hjoins
            cases hjoins
      simp [hc]

theorem fraction_of_head {r : List Char} (h : ∀ c ∈ r.head?, c ≠ '.') :
    fraction r = .absent r := by
  unfold fraction
  split
  · exact absurd rfl (h '.' rfl)
  · rfl

theorem exponent_of_head {r : List Char} (h : ∀ c ∈ r.head?, c ≠ 'e' ∧ c ≠ 'E') :
    exponent r = .absent r := by
  cases r with
  | nil => rfl
  | cons c cs =>
      obtain ⟨he, hE⟩ := h c rfl
      simp [exponent, he, hE]

/-- An exponent without a sign. -/
theorem exponent_unsigned {c : Char} {r : List Char} (hc : c = 'e' ∨ c = 'E')
    (h : ∀ s ∈ r.head?, s ≠ '+' ∧ s ≠ '-') : exponent (c :: r) = digits [c] r := by
  cases r with
  | nil => simp [exponent, hc]
  | cons s ds =>
      obtain ⟨hplus, hminus⟩ := h s rfl
      simp [exponent, hc, hplus, hminus]

theorem exponent_signed {c s : Char} {r : List Char} (hc : c = 'e' ∨ c = 'E')
    (hs : s = '+' ∨ s = '-') : exponent (c :: s :: r) = digits [c, s] r := by
  simp [exponent, hc, hs]

theorem scan_dot_of_head {r : List Char} (h : ∀ d ∈ r.head?, d ≠ '.') :
    scan '.' r = ⟨.invalid, ['.'], r⟩ := by
  cases r with
  | nil => rfl
  | cons d ds => simp [scan, Punctuator.ofChar?, h d rfl]

theorem scan_dot_dot_of_head {r : List Char} (h : ∀ d ∈ r.head?, d ≠ '.') :
    scan '.' ('.' :: r) = ⟨.invalid, ['.'], '.' :: r⟩ := by
  cases r with
  | nil => rfl
  | cons d ds => simp [scan, Punctuator.ofChar?, h d rfl]

theorem scan_dot_alone {r : List Char} (h : ¬['.', '.'] <+: r) :
    scan '.' r = ⟨.invalid, ['.'], r⟩ := by
  rcases head_cases '.' r with hne | ⟨cs, rfl⟩
  · exact scan_dot_of_head hne
  · refine scan_dot_dot_of_head fun d hd hdot => h ?_
    obtain ⟨ds, rfl⟩ := List.head?_eq_some_iff.1 hd
    exact ⟨ds, by rw [hdot]; rfl⟩

namespace Keeps

variable {D : List Char → Prop} {F : List Char → List Char} (h : Keeps D F) {r : List Char}
  (hr : D r)
include h hr

theorem takeWhile {p : Char → Bool} (hp : ∀ c, p c = true → joins c = true) :
    (F r).takeWhile p = r.takeWhile p ∧ (F r).dropWhile p = F (r.dropWhile p) ∧
      D (r.dropWhile p) := by
  induction r with
  | nil =>
      obtain ⟨ht, hd⟩ := takeWhile_of_stops hp (h.stopped [] hr nofun)
      exact ⟨ht, hd, hr⟩
  | cons c cs ih =>
      cases hpc : p c with
      | true =>
          obtain ⟨hF, hcs⟩ := h.joined c cs hr (hp c hpc)
          obtain ⟨ht, hd, hD⟩ := ih hcs
          rw [hF]
          simp only [List.takeWhile_cons, List.dropWhile_cons, hpc, if_true, ht, hd]
          exact ⟨trivial, trivial, hD⟩
      | false =>
          rw [List.takeWhile_cons, List.dropWhile_cons, hpc]
          rcases stops_or_joins (c :: cs) with hstop | ⟨d, ds, heq, hj⟩
          · obtain ⟨ht, hd⟩ := takeWhile_of_stops hp (h.stopped _ hr hstop)
            exact ⟨ht, hd, hr⟩
          · cases heq
            obtain ⟨hF, -⟩ := h.joined c cs hr hj
            simp [hF, hpc, hr]

theorem digits (taken : List Char) :
    digits taken (F r) = (digits taken r).mapRest F ∧ D (Lexer.digits taken r).rest := by
  obtain ⟨ht, hd, hD⟩ := h.takeWhile hr fun _ => joins_of_isDigit
  simp only [Lexer.digits, Part.mapRest, ht, hd]
  exact ⟨trivial, hD⟩

theorem wholePart : wholePart (F r) = (wholePart r).mapRest F ∧ D (Lexer.wholePart r).rest := by
  obtain ⟨ht, hd, hD⟩ := h.takeWhile hr fun _ => joins_of_isDigit
  simp only [Lexer.wholePart, ht, hd]
  split
  · exact ⟨rfl, hD⟩
  · exact ⟨rfl, hr⟩

theorem fraction : fraction (F r) = (fraction r).mapRest F ∧ D (Lexer.fraction r).rest := by
  rcases stops_or_joins r with hstop | ⟨c, cs, rfl, hj⟩
  · have hdot := hstop.head_ne (d := '.') (by decide)
    have hdot' := (h.stopped r hr hstop).head_ne (d := '.') (by decide)
    rw [fraction_of_head hdot, fraction_of_head hdot']
    exact ⟨rfl, hr⟩
  · obtain ⟨hF, hcs⟩ := h.joined c cs hr hj
    by_cases hc : c = '.'
    · subst hc
      rw [hF]
      exact h.digits hcs ['.']
    · have hdot : ∀ rest, ∀ d ∈ (c :: rest).head?, d ≠ '.' := by
        rintro rest d ⟨⟩
        exact hc
      rw [hF, fraction_of_head (hdot _), fraction_of_head (hdot _), ← hF]
      exact ⟨rfl, hr⟩

theorem exponent : exponent (F r) = (exponent r).mapRest F ∧ D (Lexer.exponent r).rest := by
  have hletter : ∀ r : List Char, Stops r → ∀ c ∈ r.head?, c ≠ 'e' ∧ c ≠ 'E' :=
    fun r hr c hc => ⟨hr.head_ne (by decide) c hc, hr.head_ne (by decide) c hc⟩
  have hsign : ∀ r : List Char, Stops r → ∀ s ∈ r.head?, s ≠ '+' ∧ s ≠ '-' :=
    fun r hr s hs => ⟨hr.head_ne (by decide) s hs, hr.head_ne (by decide) s hs⟩
  -- The letter, its sign and the digits are looked at one after the other.
  rcases stops_or_joins r with hstop | ⟨c, cs, rfl, hj⟩
  · rw [exponent_of_head (hletter _ hstop), exponent_of_head (hletter _ (h.stopped r hr hstop))]
    exact ⟨rfl, hr⟩
  · obtain ⟨hF, hcs⟩ := h.joined c cs hr hj
    by_cases hc : c = 'e' ∨ c = 'E'
    · rw [hF]
      rcases stops_or_joins cs with hstop | ⟨s, ds, rfl, hjs⟩
      · rw [exponent_unsigned hc (hsign _ hstop),
          exponent_unsigned hc (hsign _ (h.stopped cs hcs hstop))]
        exact h.digits hcs [c]
      · obtain ⟨hFs, hds⟩ := h.joined s ds hcs hjs
        by_cases hs : s = '+' ∨ s = '-'
        · rw [hFs, exponent_signed hc hs, exponent_signed hc hs]
          exact h.digits hds [c, s]
        · have hns : ∀ rest, ∀ d ∈ (s :: rest).head?, d ≠ '+' ∧ d ≠ '-' := by
            rintro rest d ⟨⟩
            exact not_or.1 hs
          rw [hFs, exponent_unsigned hc (hns _), exponent_unsigned hc (hns _), ← hFs]
          exact h.digits hcs [c]
    · have hne : ∀ rest, ∀ d ∈ (c :: rest).head?, d ≠ 'e' ∧ d ≠ 'E' := by
        rintro rest d ⟨⟩
        exact not_or.1 hc
      rw [hF, exponent_of_head (hne _), exponent_of_head (hne _), ← hF]
      exact ⟨rfl, hr⟩

theorem unsignedParts (sign : List Char) :
    unsignedParts sign (F r) = (unsignedParts sign r).mapRest F ∧
      D (Lexer.unsignedParts sign r).rest := by
  obtain ⟨hw, hwD⟩ := h.wholePart hr
  obtain ⟨hf, hfD⟩ := h.fraction hwD
  obtain ⟨he, heD⟩ := h.exponent hfD
  simp only [Lexer.unsignedParts, hw, Part.mapRest]
  split
  · exact ⟨rfl, hwD⟩
  · simp only [hf, Part.mapRest]
    split
    · exact ⟨rfl, hfD⟩
    · simp only [he, Part.mapRest]
      exact ⟨trivial, heD⟩

/-! ### Whole lexemes -/

theorem numberParts : numberParts (F r) = (numberParts r).mapRest F ∧
    D (Lexer.numberParts r).rest := by
  rcases stops_or_joins r with hstop | ⟨c, cs, rfl, hj⟩
  · have hminus := hstop.head_ne (d := '-') (by decide)
    have hminus' := (h.stopped r hr hstop).head_ne (d := '-') (by decide)
    rw [numberParts_of_head hminus, numberParts_of_head hminus']
    exact h.unsignedParts hr []
  · obtain ⟨hF, hcs⟩ := h.joined c cs hr hj
    by_cases hc : c = '-'
    · subst hc
      rw [hF, numberParts_minus, numberParts_minus]
      exact h.unsignedParts hcs ['-']
    · have hminus : ∀ rest, ∀ d ∈ (c :: rest).head?, d ≠ '-' := by
        rintro rest d ⟨⟩
        exact hc
      rw [hF, numberParts_of_head (hminus _), numberParts_of_head (hminus _), ← hF]
      exact h.unsignedParts hr []

theorem continues : continues (F r) = continues r := by
  rcases stops_or_joins r with hstop | ⟨c, cs, rfl, hj⟩
  · have hnot : ∀ r, Stops r → Lexer.continues r = false := by
      intro r hr
      cases r with
      | nil => rfl
      | cons c cs =>
          cases hc : isNumberTail c with
          | false => exact hc
          | true =>
              have hjoins := joins_of_isNumberTail hc
              rw [hr c rfl] at hjoins
              cases hjoins
    rw [hnot r hstop, hnot (F r) (h.stopped r hr hstop)]
  · rw [(h.joined c cs hr hj).1]
    rfl

theorem number : number (F r) = (number r).mapRest F := by
  obtain ⟨hp, hD⟩ := h.numberParts hr
  obtain ⟨ht, hd, -⟩ := h.takeWhile hD fun _ => joins_of_isNumberTail
  simp only [Lexer.number, hp, Part.mapRest, h.continues hD, ht, hd]
  split <;> rfl

theorem name : name (F r) = (name r).mapRest F := by
  obtain ⟨ht, hd, -⟩ := h.takeWhile hr fun _ => joins_of_isNameChar
  simp only [Lexer.name, ht, hd]
  rfl

/-- The two characters behind a dot decide whether it is a spread. -/
theorem dot : scan '.' (F r) = (scan '.' r).mapRest F := by
  have hstops : ∀ cs : List Char, D cs → (∀ d ∈ cs.head?, d ≠ '.') →
      ∀ d ∈ (F cs).head?, d ≠ '.' := by
    intro cs hD hcs
    rcases stops_or_joins cs with hstop | ⟨c, ds, rfl, hj⟩
    · exact (h.stopped cs hD hstop).head_ne (by decide)
    · rw [(h.joined c ds hD hj).1]
      exact hcs
  rcases head_cases '.' r with hne | ⟨cs, rfl⟩
  · rw [scan_dot_of_head hne, scan_dot_of_head (hstops r hr hne)]
    rfl
  · obtain ⟨hF, hcs⟩ := h.joined '.' cs hr (by decide)
    rw [hF]
    rcases head_cases '.' cs with hne | ⟨ds, rfl⟩
    · rw [scan_dot_dot_of_head hne, scan_dot_dot_of_head (hstops cs hcs hne), Scan.mapRest, hF]
    · rw [(h.joined '.' ds hcs (by decide)).1]
      rfl

/-- A lexeme that is neither a punctuator nor a string. -/
theorem scan {c : Char} (hc : joins c = true → D (c :: r))
    (hp : Punctuator.ofChar? c = none) (hq : c ≠ '"') :
    scan c (F r) = (scan c r).mapRest F := by
  by_cases hdot : c = '.'
  · subst hdot
    exact h.dot hr
  · unfold Lexer.scan
    rw [hp]
    simp only [if_neg hdot, if_neg hq]
    split
    · rename_i hnum
      have hj : joins c = true := by
        rcases hnum with rfl | hd
        · decide
        · exact joins_of_isDigit hd
      rw [← (h.joined c r (hc hj) hj).1]
      exact h.number (hc hj)
    · split
      · rename_i hname
        have hj : joins c = true := by
          refine joins_of_isNameChar ?_
          simp only [isNameStart, isNameChar, Char.isAlphanum, Bool.or_eq_true] at hname ⊢
          exact hname.imp_left .inl
        rw [← (h.joined c r (hc hj) hj).1]
        exact h.name (hc hj)
      · rfl

end Keeps

/-! ### Lexemes that end by themselves -/

theorem Scan.prepend_eq {s : Scan} {front text rest : List Char} {kind : TokenKind}
    (h : s.prepend front = ⟨kind, text, rest⟩) :
    ∃ back, text = front ++ back ∧ s = ⟨kind, back, rest⟩ := by
  obtain ⟨k, t, r⟩ := s
  cases h
  exact ⟨t, rfl, rfl⟩

theorem string_quote (cs : List Char) : string ('"' :: cs) = ⟨.string, ['"'], cs⟩ := by
  simp [string]

theorem string_escape (c : Char) (cs : List Char) :
    string ('\\' :: c :: cs) = (string cs).prepend ['\\', c] := by
  simp [string]

theorem string_plain {c : Char} (hb : c ≠ '\\') (hq : c ≠ '"') (hl : Text.isLineEnd c = false)
    (cs : List Char) : string (c :: cs) = (string cs).prepend [c] := by
  cases cs with
  | nil => simp [string, hq, hl]
  | cons d ds => simp [string, hb, hq, hl]

theorem string_lineEnd {c : Char} (hl : Text.isLineEnd c = true) (cs : List Char) :
    string (c :: cs) = ⟨.unterminated, [], c :: cs⟩ := by
  have hc : c = '\n' ∨ c = '\r' := by simpa [Text.isLineEnd] using hl
  rcases hc with rfl | rfl <;> simp [string, Text.isLineEnd]

theorem eq_append_of_string {cs x r : List Char} {k : TokenKind} (h : string cs = ⟨k, x, r⟩) :
    cs = x ++ r := by
  have hwhole := string_whole cs
  rw [h] at hwhole
  exact hwhole.symm

/-- A string behind its opening quote is the closing quote alone, or a shorter string behind
what a backslash takes or behind a plain character. -/
theorem string_induction {r : List Char}
    {motive : (x : List Char) → string (x ++ r) = ⟨.string, x, r⟩ → Prop}
    (quote : ∀ h, motive ['"'] h)
    (escape : ∀ c x hx h, motive x hx → motive ('\\' :: c :: x) h)
    (plain : ∀ c x, c ≠ '\\' → c ≠ '"' → Text.isLineEnd c = false →
      ∀ hx h, motive x hx → motive (c :: x) h)
    (x : List Char) (h : string (x ++ r) = ⟨.string, x, r⟩) : motive x h := by
  have hscanned : ∀ cs x, string cs = ⟨.string, x, r⟩ → ∀ h, motive x h := by
    intro cs x hcs
    fun_induction string cs generalizing x with
    | case1 => cases hcs
    | case2 c cs ih =>
        obtain ⟨y, rfl, hy⟩ := Scan.prepend_eq hcs
        have hx : string (y ++ r) = ⟨.string, y, r⟩ := eq_append_of_string hy ▸ hy
        exact fun h => escape c y hx h (ih y hy hx)
    | case3 =>
        cases hcs
        exact quote
    | case4 => cases hcs
    | case5 c cs hne hq hl ih =>
        obtain ⟨y, rfl, hy⟩ := Scan.prepend_eq hcs
        have hx : string (y ++ r) = ⟨.string, y, r⟩ := eq_append_of_string hy ▸ hy
        have hb : c ≠ '\\' := by
          rintro rfl
          cases cs with
          | nil => cases hy
          | cons d ds => exact hne d ds rfl rfl
        exact fun h => plain c y hb hq (Bool.eq_false_iff.2 hl) hx h (ih y hy hx)
  exact hscanned _ x h h

/-- A string is the same in front of another text. -/
theorem string_append {cs x r : List Char} (h : string cs = ⟨.string, x, r⟩) (r' : List Char) :
    string (x ++ r') = ⟨.string, x, r'⟩ := by
  obtain rfl := eq_append_of_string h
  induction x, h using string_induction with
  | quote => exact string_quote r'
  | escape c x _ _ ih =>
      rw [List.cons_append, List.cons_append, string_escape, ih]
      rfl
  | plain c x hb hq hl _ _ ih =>
      rw [List.cons_append, string_plain hb hq hl, ih]
      rfl

theorem blockString_close (cs : List Char) :
    blockString ('"' :: '"' :: '"' :: cs) = ⟨.blockString, ['"', '"', '"'], cs⟩ := by
  simp [blockString]

theorem blockString_escape (cs : List Char) :
    blockString ('\\' :: '"' :: '"' :: '"' :: cs) =
      (blockString cs).prepend ['\\', '"', '"', '"'] := by
  simp [blockString]

theorem blockString_plain {c : Char} {cs : List Char} (hc : ¬['"', '"', '"'] <+: c :: cs)
    (he : ¬['\\', '"', '"', '"'] <+: c :: cs) :
    blockString (c :: cs) = (blockString cs).prepend [c] := by
  rw [blockString]
  · rintro r rfl rfl
    exact hc ⟨r, rfl⟩
  · rintro r rfl rfl
    exact he ⟨r, rfl⟩

theorem eq_append_of_blockString {cs x r : List Char} {k : TokenKind}
    (h : blockString cs = ⟨k, x, r⟩) : cs = x ++ r := by
  have hwhole := blockString_whole cs
  rw [h] at hwhole
  exact hwhole.symm

/-- A block string behind its opening quotes is the closing quotes alone, or a shorter one
behind an escape or behind a character with which neither starts. -/
theorem blockString_induction {r : List Char}
    {motive : (x : List Char) → blockString (x ++ r) = ⟨.blockString, x, r⟩ → Prop}
    (close : ∀ h, motive ['"', '"', '"'] h)
    (escape : ∀ x hx h, motive x hx → motive ('\\' :: '"' :: '"' :: '"' :: x) h)
    (plain : ∀ c x, ¬['"', '"', '"'] <+: c :: (x ++ r) → ¬['\\', '"', '"', '"'] <+: c :: (x ++ r) →
      ∀ hx h, motive x hx → motive (c :: x) h)
    (x : List Char) (h : blockString (x ++ r) = ⟨.blockString, x, r⟩) : motive x h := by
  have hscanned : ∀ cs x, blockString cs = ⟨.blockString, x, r⟩ → ∀ h, motive x h := by
    intro cs x hcs
    fun_induction blockString cs generalizing x with
    | case1 => cases hcs
    | case2 =>
        cases hcs
        exact close
    | case3 cs ih =>
        obtain ⟨y, rfl, hy⟩ := Scan.prepend_eq hcs
        have hx : blockString (y ++ r) = ⟨.blockString, y, r⟩ := eq_append_of_blockString hy ▸ hy
        exact fun h => escape y hx h (ih y hy hx)
    | case4 c cs hclose hescape ih =>
        obtain ⟨y, rfl, hy⟩ := Scan.prepend_eq hcs
        have hquotes : ¬['"', '"', '"'] <+: c :: cs := by
          rintro ⟨t, ht⟩
          cases ht
          exact hclose t rfl rfl
        have hbackslash : ¬['\\', '"', '"', '"'] <+: c :: cs := by
          rintro ⟨t, ht⟩
          cases ht
          exact hescape t rfl rfl
        obtain rfl := eq_append_of_blockString hy
        exact fun h => plain c y hquotes hbackslash hy h (ih y hy hy)
  exact hscanned _ x h h

/-- A block string ends in its closing quotes. -/
theorem blockString_length {cs x r : List Char} (h : blockString cs = ⟨.blockString, x, r⟩) :
    3 ≤ x.length := by
  obtain rfl := eq_append_of_blockString h
  induction x, h using blockString_induction with
  | close => exact Nat.le_refl 3
  | escape x _ _ ih => exact Nat.le_trans ih (Nat.le_add_right x.length 4)
  | plain c x _ _ _ _ ih => exact Nat.le_trans ih (Nat.le_add_right x.length 1)

/-- A block string is the same in front of another text. -/
theorem blockString_append {cs x r : List Char} (h : blockString cs = ⟨.blockString, x, r⟩)
    (r' : List Char) : blockString (x ++ r') = ⟨.blockString, x, r'⟩ := by
  obtain rfl := eq_append_of_blockString h
  induction x, h using blockString_induction with
  | close => exact blockString_close r'
  | escape x _ _ ih =>
      show blockString ('\\' :: '"' :: '"' :: '"' :: (x ++ r')) = _
      rw [blockString_escape, ih]
      rfl
  | plain c x hclose hescape hx _ ih =>
      have hlength := blockString_length hx
      -- What is decided on four characters is decided before the new text starts.
      have hfront : ∀ p : List Char, p.length ≤ 4 → ¬p <+: c :: (x ++ r) →
          ¬p <+: c :: (x ++ r') := by
        intro p hp hnot hpre
        have hx' : p <+: c :: x :=
          List.prefix_of_prefix_length_le hpre ⟨r', rfl⟩ (by rw [List.length_cons]; omega)
        exact hnot (hx'.trans ⟨r, rfl⟩)
      rw [List.cons_append, blockString_plain (hfront _ (by decide) hclose)
        (hfront _ (by decide) hescape), ih]
      rfl

/-! ### Gaps -/

theorem splitGap_inside (c : Char) (cs : List Char) :
    splitGap true (c :: cs) =
      (c :: (splitGap (!Text.isLineEnd c) cs).1, (splitGap (!Text.isLineEnd c) cs).2) := rfl

theorem splitGap_ignored {c : Char} (h : isIgnored c = true) (cs : List Char) :
    splitGap false (c :: cs) = (c :: (splitGap false cs).1, (splitGap false cs).2) := by
  rw [splitGap, if_pos h]

theorem splitGap_hash (cs : List Char) :
    splitGap false ('#' :: cs) = ('#' :: (splitGap true cs).1, (splitGap true cs).2) := rfl

theorem splitGap_lexeme {c : Char} (h : isIgnored c = false) (hc : c ≠ '#') (cs : List Char) :
    splitGap false (c :: cs) = ([], c :: cs) := by
  rw [splitGap, if_neg (Bool.eq_false_iff.1 h), if_neg hc]

/-- A gap is cut off character by character, and what is left behind it stays the same. -/
theorem splitGap_induction {rest : List Char}
    {motive : (inComment : Bool) → (cs gap : List Char) →
      splitGap inComment cs = (gap, rest) → Prop}
    (nil : ∀ inComment, rest = [] → ∀ h, motive inComment [] [] h)
    (inside : ∀ c cs gap hcs h, motive (!Text.isLineEnd c) cs gap hcs →
      motive true (c :: cs) (c :: gap) h)
    (ignored : ∀ c cs gap, isIgnored c = true → ∀ hcs h, motive false cs gap hcs →
      motive false (c :: cs) (c :: gap) h)
    (hash : ∀ cs gap hcs h, motive true cs gap hcs → motive false ('#' :: cs) ('#' :: gap) h)
    (lexeme : ∀ c cs, isIgnored c = false → c ≠ '#' → rest = c :: cs →
      ∀ h, motive false (c :: cs) [] h)
    (inComment : Bool) (cs gap : List Char) (h : splitGap inComment cs = (gap, rest)) :
    motive inComment cs gap h := by
  induction cs generalizing inComment gap with
  | nil =>
      obtain ⟨rfl, hrest⟩ : [] = gap ∧ [] = rest := by
        cases inComment <;> exact Prod.mk.inj h
      exact nil inComment hrest.symm h
  | cons c cs ih =>
      cases inComment with
      | true =>
          obtain ⟨rfl, hrest⟩ := Prod.mk.inj ((splitGap_inside c cs).symm.trans h)
          exact inside c cs _ (Prod.ext rfl hrest) h (ih ..)
      | false =>
          cases hc : isIgnored c with
          | true =>
              obtain ⟨rfl, hrest⟩ := Prod.mk.inj ((splitGap_ignored hc cs).symm.trans h)
              exact ignored c cs _ hc (Prod.ext rfl hrest) h (ih ..)
          | false =>
              by_cases hhash : c = '#'
              · subst hhash
                obtain ⟨rfl, hrest⟩ := Prod.mk.inj ((splitGap_hash cs).symm.trans h)
                exact hash cs _ (Prod.ext rfl hrest) h (ih ..)
              · obtain ⟨rfl, hrest⟩ := Prod.mk.inj ((splitGap_lexeme hc hhash cs).symm.trans h)
                exact lexeme c cs hc hhash hrest.symm h

end GraphQL.Lexer
