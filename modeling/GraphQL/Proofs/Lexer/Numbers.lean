import GraphQL.Proofs.Lexer.Tiling
import GraphQL.Proofs.Text.Utf8

/-!
Numbers. The scanner takes a number part by part and decides after each part whether to
go on. What it finds is what the grammar of numbers says: the longest number that starts
at a place is the only one there that ends where no number may go on.
-/

namespace GraphQL.Lexer

open Text

/-! ### The grammar of numbers -/

/-- At least one digit. -/
structure Digits (cs : List Char) : Prop where
  ne_nil : cs ≠ []
  isDigit : ∀ c ∈ cs, c.isDigit = true

/-- A zero, or digits that start with another one. -/
inductive Whole : List Char → Prop
  | zero : Whole ['0']
  | digits (c : Char) (cs : List Char) : c ≠ '0' → Digits (c :: cs) → Whole (c :: cs)

inductive Sign : List Char → Prop
  | none : Sign []
  | minus : Sign ['-']

inductive Fraction : List Char → Prop
  | mk (ds : List Char) : Digits ds → Fraction ('.' :: ds)

inductive Exponent : List Char → Prop
  | mk (letter : Char) (sign ds : List Char) : letter = 'e' ∨ letter = 'E' →
      sign = [] ∨ sign = ['+'] ∨ sign = ['-'] → Digits ds → Exponent (letter :: (sign ++ ds))

/-- The texts of numbers, each with the kind of its token. -/
inductive Number : TokenKind → List Char → Prop
  | int (sign w : List Char) : Sign sign → Whole w → Number .int (sign ++ w)
  | float (sign w f e : List Char) : Sign sign → Whole w → f = [] ∨ Fraction f →
      e = [] ∨ Exponent e → f ≠ [] ∨ e ≠ [] → Number .float (sign ++ w ++ f ++ e)

/-! ### Numbers are scanned -/

section
variable {rest : List Char}

theorem takeWhile_digits {ds : List Char} (h : Digits ds)
    (hrest : ∀ d ∈ rest.head?, d.isDigit = false) :
    (ds ++ rest).takeWhile Char.isDigit = ds ∧ (ds ++ rest).dropWhile Char.isDigit = rest := by
  obtain ⟨ht, hd⟩ := takeWhile_append_of_head hrest []
  rw [List.takeWhile_append_of_pos h.isDigit, List.dropWhile_append_of_pos h.isDigit]
  exact ⟨by simpa using ht, by simpa using hd⟩

theorem digits_of_digits {ds : List Char} (h : Digits ds) (taken : List Char)
    (hrest : ∀ d ∈ rest.head?, d.isDigit = false) :
    digits taken (ds ++ rest) = ⟨true, taken ++ ds, rest⟩ := by
  obtain ⟨ht, hd⟩ := takeWhile_digits h hrest
  simp [digits, ht, hd, h.ne_nil]

theorem wholePart_of_whole {w : List Char} (h : Whole w)
    (hrest : ∀ d ∈ rest.head?, d.isDigit = false) : wholePart (w ++ rest) = ⟨true, w, rest⟩ := by
  have hdigits : Digits w := by
    cases h with
    | zero => exact ⟨by simp, List.forall_mem_singleton.2 rfl⟩
    | digits c cs _ hcs => exact hcs
  obtain ⟨ht, hd⟩ := takeWhile_digits hdigits hrest
  simp only [wholePart, ht, hd]
  refine if_pos ?_
  cases h with
  | zero => exact .inl rfl
  | digits c cs hc _ => exact .inr ⟨by simp, by simpa using hc⟩

theorem fraction_of_fraction {f : List Char} (h : f = [] ∨ Fraction f)
    (hrest : ∀ d ∈ rest.head?, d.isDigit = false ∧ d ≠ '.') :
    fraction (f ++ rest) = ⟨true, f, rest⟩ := by
  rcases h with rfl | ⟨ds, hds⟩
  · exact fraction_of_head fun d hd => (hrest d hd).2
  · exact digits_of_digits hds ['.'] fun d hd => (hrest d hd).1

theorem exponent_of_exponent {e : List Char} (h : e = [] ∨ Exponent e)
    (hrest : ∀ d ∈ rest.head?, isNumberTail d = false) :
    exponent (e ++ rest) = ⟨true, e, rest⟩ := by
  have hdigit : ∀ d ∈ rest.head?, d.isDigit = false :=
    fun d hd => isDigit_of_isNumberTail (hrest d hd)
  rcases h with rfl | ⟨letter, sign, ds, hletter, hsign, hds⟩
  · refine exponent_of_head fun d hd => ?_
    constructor
    · rintro rfl
      exact absurd (hrest _ hd) (by decide)
    · rintro rfl
      exact absurd (hrest _ hd) (by decide)
  · have hhead : ∀ s ∈ (ds ++ rest).head?, s ≠ '+' ∧ s ≠ '-' := by
      obtain ⟨d, ds, rfl⟩ := List.exists_cons_of_ne_nil hds.ne_nil
      have hd := hds.isDigit d List.mem_cons_self
      rintro s ⟨⟩
      constructor
      · rintro rfl
        exact absurd hd (by decide)
      · rintro rfl
        exact absurd hd (by decide)
    rw [List.cons_append, List.append_assoc]
    rcases hsign with rfl | rfl | rfl
    · exact (exponent_unsigned hletter hhead).trans (digits_of_digits hds [letter] hdigit)
    · exact (exponent_signed hletter (.inl rfl)).trans (digits_of_digits hds [letter, '+'] hdigit)
    · exact (exponent_signed hletter (.inr rfl)).trans (digits_of_digits hds [letter, '-'] hdigit)

theorem head_of_exponent {e : List Char} (h : e = [] ∨ Exponent e)
    (hrest : ∀ d ∈ rest.head?, isNumberTail d = false) :
    ∀ d ∈ (e ++ rest).head?, d.isDigit = false ∧ d ≠ '.' := by
  rcases h with rfl | ⟨letter, sign, ds, hletter, -, -⟩
  · intro d hd
    refine ⟨isDigit_of_isNumberTail (hrest d hd), ?_⟩
    rintro rfl
    exact absurd (hrest _ hd) (by decide)
  · rintro d ⟨⟩
    rcases hletter with rfl | rfl <;> decide

theorem head_of_fraction {f : List Char} (h : f = [] ∨ Fraction f)
    (hrest : ∀ d ∈ rest.head?, d.isDigit = false) :
    ∀ d ∈ (f ++ rest).head?, d.isDigit = false := by
  rcases h with rfl | ⟨ds, -⟩
  · exact hrest
  · rintro d ⟨⟩
    rfl

theorem numberParts_of_number {sign w f e : List Char} (hs : Sign sign) (hw : Whole w)
    (hf : f = [] ∨ Fraction f) (he : e = [] ∨ Exponent e)
    (hrest : ∀ d ∈ rest.head?, isNumberTail d = false) :
    numberParts (sign ++ w ++ f ++ e ++ rest) = ⟨true, sign ++ w ++ f ++ e, rest⟩ := by
  have hexp := head_of_exponent he hrest
  have hwhole := wholePart_of_whole hw (head_of_fraction hf fun d hd => (hexp d hd).1)
  have hunsigned : unsignedParts sign (w ++ (f ++ (e ++ rest))) =
      ⟨true, sign ++ w ++ f ++ e, rest⟩ := by
    simp [unsignedParts, hwhole, fraction_of_fraction hf hexp, exponent_of_exponent he hrest]
  rw [← hunsigned]
  cases hs with
  | minus => simp [numberParts_minus]
  | none =>
      have hminus : ∀ c ∈ (w ++ (f ++ (e ++ rest))).head?, c ≠ '-' := by
        cases hw with
        | zero =>
            rintro c ⟨⟩
            decide
        | digits c cs _ hcs =>
            rintro d ⟨⟩ rfl
            exact absurd (hcs.isDigit _ List.mem_cons_self) (by decide)
      simp [← numberParts_of_head hminus]

end

/-! ### Kinds -/

/-- The signs of a number that is not whole. -/
def marksFloat (c : Char) : Bool := c == '.' || c == 'e' || c == 'E'

theorem marksFloat_of_isDigit {c : Char} (h : c.isDigit = true) : marksFloat c = false := by
  refine Bool.eq_false_iff.2 fun hm => ?_
  simp only [marksFloat, Bool.or_eq_true, beq_iff_eq] at hm
  rcases hm with (rfl | rfl) | rfl
  · exact absurd h (by decide)
  · exact absurd h (by decide)
  · exact absurd h (by decide)

theorem any_marksFloat_of_whole {sign w : List Char} (hs : Sign sign) (hw : Whole w) :
    (sign ++ w).any marksFloat = false := by
  have hsign : sign.any marksFloat = false := by cases hs <;> rfl
  have hwhole : w.any marksFloat = false := by
    cases hw with
    | zero => rfl
    | digits c cs _ hcs =>
        exact List.any_eq_false.2 fun d hd => by simp [marksFloat_of_isDigit (hcs.isDigit d hd)]
  rw [List.any_append, hsign, hwhole]
  rfl

theorem any_marksFloat_iff {f e : List Char} (hf : f = [] ∨ Fraction f) (he : e = [] ∨ Exponent e) :
    (f ++ e).any marksFloat = true ↔ f ≠ [] ∨ e ≠ [] := by
  rcases hf with rfl | ⟨ds, -⟩
  · rcases he with rfl | ⟨letter, sign, ds, hletter, -, -⟩
    · simp
    · have hmark : marksFloat letter = true := by rcases hletter with rfl | rfl <;> rfl
      simp [hmark]
  · simp [marksFloat]

/-- The kind of the token that a number is. -/
def kindOf (text : List Char) : TokenKind := if text.any marksFloat then .float else .int

theorem number_of_parts {sign w f e : List Char} (hs : Sign sign) (hw : Whole w)
    (hf : f = [] ∨ Fraction f) (he : e = [] ∨ Exponent e) :
    Number (kindOf (sign ++ w ++ f ++ e)) (sign ++ w ++ f ++ e) := by
  have hiff := any_marksFloat_iff hf he
  have hany : (sign ++ w ++ f ++ e).any marksFloat = (f ++ e).any marksFloat := by
    rw [List.append_assoc, List.any_append, any_marksFloat_of_whole hs hw, Bool.false_or]
  rw [kindOf, hany]
  by_cases hne : f ≠ [] ∨ e ≠ []
  · rw [if_pos (hiff.2 hne)]
    exact .float sign w f e hs hw hf he hne
  · rw [if_neg (mt hiff.1 hne)]
    obtain ⟨rfl, rfl⟩ : f = [] ∧ e = [] := by simpa using hne
    rw [List.append_nil, List.append_nil]
    exact .int sign w hs hw

/-- A number and its parts. -/
theorem parts_of_number {k : TokenKind} {text : List Char} (h : Number k text) :
    k = kindOf text ∧ ∃ sign w f e, Sign sign ∧ Whole w ∧ (f = [] ∨ Fraction f) ∧
      (e = [] ∨ Exponent e) ∧ text = sign ++ w ++ f ++ e := by
  cases h with
  | int sign w hs hw =>
      refine ⟨?_, sign, w, [], [], hs, hw, .inl rfl, .inl rfl, by simp⟩
      rw [kindOf, any_marksFloat_of_whole hs hw]
      rfl
  | float sign w f e hs hw hf he hne =>
      refine ⟨?_, sign, w, f, e, hs, hw, hf, he, rfl⟩
      rw [kindOf, List.append_assoc, List.any_append, (any_marksFloat_iff hf he).2 hne,
        Bool.or_true]
      rfl

/-! ### What is scanned is a number -/

/-- The number that parts make. -/
def conclude (p : Part) : Scan :=
  if p.wellFormed && !continues p.rest then ⟨kindOf p.taken, p.taken, p.rest⟩
  else ⟨.invalid, p.taken ++ p.rest.takeWhile isNumberTail, p.rest.dropWhile isNumberTail⟩

theorem number_eq_conclude (cs : List Char) : number cs = conclude (numberParts cs) := rfl

theorem digits_of_wellFormed {taken cs : List Char} (h : (digits taken cs).wellFormed = true) :
    ∃ ds, Digits ds ∧ (digits taken cs).taken = taken ++ ds := by
  have hall : ∀ c ∈ cs.takeWhile Char.isDigit, c.isDigit = true :=
    fun c hc => List.all_eq_true.1 List.all_takeWhile c hc
  refine ⟨cs.takeWhile Char.isDigit, ⟨fun hnil => ?_, hall⟩, rfl⟩
  simp [digits, hnil] at h

theorem whole_of_wellFormed {cs : List Char} (h : (wholePart cs).wellFormed = true) :
    Whole (wholePart cs).taken := by
  simp only [wholePart] at h ⊢
  split at h
  · rename_i hrun
    rw [if_pos hrun]
    rcases hrun with hzero | ⟨hne, hhead⟩
    · rw [hzero]
      exact .zero
    · have hall : ∀ c ∈ cs.takeWhile Char.isDigit, c.isDigit = true :=
        fun c hc => List.all_eq_true.1 List.all_takeWhile c hc
      show Whole (cs.takeWhile Char.isDigit)
      generalize cs.takeWhile Char.isDigit = run at *
      obtain ⟨c, ds, rfl⟩ := List.exists_cons_of_ne_nil hne
      exact .digits c ds (by simpa using hhead) ⟨hne, hall⟩
  · cases h

theorem fraction_of_wellFormed {cs : List Char} (h : (fraction cs).wellFormed = true) :
    (fraction cs).taken = [] ∨ Fraction (fraction cs).taken := by
  rcases head_cases '.' cs with hcs | ⟨ds, rfl⟩
  · rw [fraction_of_head hcs]
    exact .inl rfl
  · change (digits ['.'] ds).wellFormed = true at h
    obtain ⟨ds', hds, htaken⟩ := digits_of_wellFormed h
    refine .inr ?_
    rw [show (fraction ('.' :: ds)).taken = _ from htaken]
    exact .mk ds' hds

theorem exponent_of_wellFormed {cs : List Char} (h : (exponent cs).wellFormed = true) :
    (exponent cs).taken = [] ∨ Exponent (exponent cs).taken := by
  cases cs with
  | nil => exact .inl rfl
  | cons c cs =>
      by_cases hc : c = 'e' ∨ c = 'E'
      · refine .inr ?_
        have hsigned : (∃ s ds, (s = '+' ∨ s = '-') ∧ cs = s :: ds) ∨
            ∀ s ∈ cs.head?, s ≠ '+' ∧ s ≠ '-' := by
          cases cs with
          | nil => exact .inr (by simp)
          | cons s ds =>
              by_cases hs : s = '+' ∨ s = '-'
              · exact .inl ⟨s, ds, hs, rfl⟩
              · refine .inr ?_
                rintro d ⟨⟩
                exact not_or.1 hs
        rcases hsigned with ⟨s, ds, hs, rfl⟩ | hs
        · rw [exponent_signed hc hs] at h ⊢
          obtain ⟨ds', hds, htaken⟩ := digits_of_wellFormed h
          rw [htaken]
          exact .mk c [s] ds' hc (.inr (by simpa using hs)) hds
        · rw [exponent_unsigned hc hs] at h ⊢
          obtain ⟨ds', hds, htaken⟩ := digits_of_wellFormed h
          rw [htaken]
          exact .mk c [] ds' hc (.inl rfl) hds
      · refine .inl ?_
        rw [exponent_of_head]
        · rfl
        · rintro d ⟨⟩
          exact not_or.1 hc

theorem parts_of_wellFormed {sign cs : List Char}
    (h : (unsignedParts sign cs).wellFormed = true) :
    ∃ w f e, Whole w ∧ (f = [] ∨ Fraction f) ∧ (e = [] ∨ Exponent e) ∧
      (unsignedParts sign cs).taken = sign ++ w ++ f ++ e := by
  simp only [unsignedParts] at h ⊢
  split at h
  · cases h
  · rename_i hw
    rw [if_neg hw]
    split at h
    · cases h
    · rename_i hf
      rw [if_neg hf]
      exact ⟨_, _, _, whole_of_wellFormed (by simpa using hw),
        fraction_of_wellFormed (by simpa using hf), exponent_of_wellFormed h, rfl⟩

theorem number_of_wellFormed {cs : List Char} (h : (numberParts cs).wellFormed = true) :
    Number (kindOf (numberParts cs).taken) (numberParts cs).taken := by
  rcases head_cases '-' cs with hcs | ⟨ds, rfl⟩
  · rw [numberParts_of_head hcs] at h ⊢
    obtain ⟨w, f, e, hw, hf, he, htaken⟩ := parts_of_wellFormed h
    rw [htaken]
    exact number_of_parts .none hw hf he
  · rw [numberParts_minus] at h ⊢
    obtain ⟨w, f, e, hw, hf, he, htaken⟩ := parts_of_wellFormed h
    rw [htaken]
    exact number_of_parts .minus hw hf he

/-- Where a number of the grammar stands and does not go on, it is scanned. -/
theorem number_append_of_number {k : TokenKind} {text rest : List Char} (h : Number k text)
    (hrest : ∀ d ∈ rest.head?, isNumberTail d = false) :
    number (text ++ rest) = ⟨k, text, rest⟩ := by
  obtain ⟨hk, sign, w, f, e, hs, hw, hf, he, rfl⟩ := parts_of_number h
  have hcontinues : continues rest = false := by
    cases rest with
    | nil => rfl
    | cons d rest => exact hrest d rfl
  simp only [number, numberParts_of_number hs hw hf he hrest, hcontinues]
  rw [hk]
  rfl

/-- What is scanned as a number is one of the grammar. -/
theorem number_of_scanned {cs : List Char} (h : (number cs).kind ≠ .invalid) :
    Number (number cs).kind (number cs).text := by
  simp only [number] at h ⊢
  split at h
  · rename_i hvalid
    rw [if_pos hvalid]
    exact number_of_wellFormed (Bool.and_eq_true_iff.1 hvalid).1
  · exact absurd rfl h

/-! ### Part by part -/

def isExponentLetter (c : Char) : Bool := c == 'e' || c == 'E'

def isSign (c : Char) : Bool := c == '+' || c == '-'

theorem isExponentLetter_iff {c : Char} : isExponentLetter c = true ↔ c = 'e' ∨ c = 'E' := by
  simp [isExponentLetter]

theorem isSign_iff {c : Char} : isSign c = true ↔ c = '+' ∨ c = '-' := by
  simp [isSign]

/-- Puts characters in front of what a part has taken. -/
def Part.prepend (front : List Char) (p : Part) : Part := { p with taken := front ++ p.taken }

theorem digits_prepend (front taken cs : List Char) :
    (digits taken cs).prepend front = digits (front ++ taken) cs := by
  simp [digits, Part.prepend]

/-- A number from its point on, behind what has been taken of it. -/
def tailParts (taken cs : List Char) : Part :=
  let f := (fraction cs).prepend taken
  if f.wellFormed then (exponent f.rest).prepend f.taken else f

theorem unsignedParts_eq (sign cs : List Char) : unsignedParts sign cs =
    let w := (wholePart cs).prepend sign
    if w.wellFormed then tailParts w.taken w.rest else w := by
  cases hw : (wholePart cs).wellFormed with
  | false => simp [unsignedParts, Part.prepend, hw]
  | true =>
      cases hf : (fraction (wholePart cs).rest).wellFormed with
      | false => simp [unsignedParts, tailParts, Part.prepend, hw, hf]
      | true => simp [unsignedParts, tailParts, Part.prepend, hw, hf]

/-- A leading zero stands alone. -/
theorem wholePart_zero (cs : List Char) : wholePart ('0' :: cs) =
    if cs.head?.any Char.isDigit then ⟨false, [], '0' :: cs⟩ else ⟨true, ['0'], cs⟩ := by
  cases cs with
  | nil => rfl
  | cons c cs => cases hc : c.isDigit <;> simp [wholePart, hc]

theorem wholePart_of_head {cs : List Char} (h : ∀ c ∈ cs.head?, c ≠ '0') :
    wholePart cs = digits [] cs := by
  cases cs with
  | nil => rfl
  | cons c cs => cases hc : c.isDigit <;> simp [wholePart, digits, hc, h c rfl]

/-! ### Classes of ASCII -/

theorem narrow_joins : Narrow joins := by
  intro d hd
  refine Bool.eq_false_iff.2 fun hjoins => ?_
  simp only [joins, isNumberTail, Bool.or_eq_true, beq_iff_eq] at hjoins
  rcases hjoins with ((hname | rfl) | rfl) | rfl
  · have hcode := toNat_of_isNameChar hname
    omega
  all_goals exact absurd hd (by decide)

theorem narrow_of_joins {p : Char → Bool} (hp : ∀ c, p c = true → joins c = true) : Narrow p :=
  fun d hd => Bool.eq_false_iff.2 fun h => Bool.eq_false_iff.1 (narrow_joins d hd) (hp d h)

theorem narrow_isDigit : Narrow Char.isDigit := narrow_of_joins fun _ => joins_of_isDigit

theorem narrow_isNumberTail : Narrow isNumberTail := narrow_of_joins fun _ => joins_of_isNumberTail

theorem narrow_isNameChar : Narrow isNameChar := narrow_of_joins fun _ => joins_of_isNameChar

theorem scan_of_number {c : Char} (hc : c = '-' ∨ c.isDigit = true) (r : List Char) :
    scan c r = number (c :: r) := by
  have hpunctuator : Punctuator.ofChar? c = none := by
    unfold Punctuator.ofChar?
    split
    all_goals first | rfl | exact absurd hc (by decide)
  have hdot : c ≠ '.' := by
    rintro rfl
    exact absurd hc (by decide)
  have hquote : c ≠ '"' := by
    rintro rfl
    exact absurd hc (by decide)
  unfold scan
  rw [hpunctuator]
  simp only [if_neg hdot, if_neg hquote, if_pos hc]

end GraphQL.Lexer

namespace GraphQL

open Lexer Text

/-! ### Numbers in a source -/

/-- No digit, letter, underscore or dot stands at an offset. -/
def EndsAt (source : String) (stop : Nat) : Prop :=
  ∀ c ∈ byteAt source.toList stop, isNumberTail c = false

/-- A number of a kind stands in a source and does not go on behind its end. -/
structure NumberAt (source : String) (start stop : Nat) (k : TokenKind) : Prop where
  number : ∃ text, Span.slice? ⟨start, stop⟩ source = some text ∧ Number k text.toList
  ends : EndsAt source stop

/-- The text under a span starts where the span does. -/
theorem Span.slice_eq_some {before rest covered : List Char} {stop : Nat}
    (h : Span.slice ⟨byteLength before, stop⟩ (before ++ rest) = some covered) :
    ∃ after, rest = covered ++ after ∧ stop = byteLength (before ++ covered) := by
  rw [Span.slice] at h
  split at h
  · rename_i hle
    change byteLength before ≤ stop at hle
    rw [splitAtByte_append] at h
    change (splitAtByte (stop - byteLength before) rest).bind _ = _ at h
    cases hsplit : splitAtByte (stop - byteLength before) rest with
    | none =>
        rw [hsplit] at h
        cases h
    | some cut =>
        obtain ⟨covered', after⟩ := cut
        rw [hsplit] at h
        obtain rfl : covered' = covered := Option.some.inj h
        obtain ⟨hcut, hlength⟩ := splitAtByte_eq_some hsplit
        refine ⟨after, hcut.symm, ?_⟩
        rw [byteLength_append, hlength]
        omega
  · cases h

theorem endsAt_iff {source : String} {before rest : List Char}
    (h : source.toList = before ++ rest) :
    EndsAt source (byteLength before) ↔ ∀ d ∈ rest.head?, isNumberTail d = false := by
  rw [EndsAt, h, byteAt_append]
  cases rest with
  | nil => simp
  | cons d rest =>
      have hshown := apply_shown narrow_isNumberTail d
      simp [hshown]

theorem numberAt_iff {source : String} {before rest : List Char} {stop : Nat} {k : TokenKind}
    (h : source.toList = before ++ rest) :
    NumberAt source (byteLength before) stop k ↔
      ∃ text after, Number k text ∧ rest = text ++ after ∧ stop = byteLength (before ++ text) ∧
        ∀ d ∈ after.head?, isNumberTail d = false := by
  constructor
  · rintro ⟨⟨text, hslice, hnumber⟩, hends⟩
    obtain ⟨covered, hcovered, rfl⟩ := Option.map_eq_some_iff.1 hslice
    rw [h] at hcovered
    obtain ⟨after, rfl, rfl⟩ := Span.slice_eq_some hcovered
    rw [String.toList_ofList] at hnumber
    rw [← List.append_assoc] at h
    exact ⟨covered, after, hnumber, rfl, rfl, (endsAt_iff h).1 hends⟩
  · rintro ⟨text, after, hnumber, rfl, rfl, hafter⟩
    refine ⟨⟨String.ofList text, ?_, ?_⟩, ?_⟩
    · rw [Span.slice?, h, Span.slice_append]
      rfl
    · rwa [String.toList_ofList]
    · rw [← List.append_assoc] at h
      exact (endsAt_iff h).2 hafter

/-- A token that starts like a number is a number of the grammar where one stands that does
not go on, and where none stands it is malformed and takes all that could belong to it. -/
theorem kind_of_numberAt {source : String} {t : Token} (ht : t ∈ tokenize source)
    (hstart : ∃ c ∈ byteAt source.toList t.span.start, c = '-' ∨ c.isDigit = true) :
    (∀ stop k, NumberAt source t.span.start stop k →
      (∀ stop' k', NumberAt source t.span.start stop' k' → stop' = stop ∧ k' = k) ∧
        t.kind = k ∧ t.span = ⟨t.span.start, stop⟩) ∧
    ((∀ stop k, ¬NumberAt source t.span.start stop k) →
      t.kind = .invalid ∧ t.span.start < t.span.stop ∧ EndsAt source t.span.stop) := by
  obtain ⟨d, hd, hfirst⟩ := hstart
  rcases Reader.mem_tokens [] ht with rfl | ⟨before, c, r, htext, rfl⟩
  · have hnone := byteAt_append source.toList []
    rw [List.append_nil] at hnone
    rw [List.nil_append, Option.mem_def] at hd
    cases hnone.symm.trans hd
  · change source.toList = before ++ c :: r at htext
    rw [List.nil_append] at hd ⊢
    have hshown : shown c = d := by
      have hbyte := byteAt_append before (c :: r)
      rw [← htext] at hbyte
      exact Option.some.inj (hbyte.symm.trans hd)
    have hc : c = '-' ∨ c.isDigit = true := by
      rw [← hshown, shown_eq_iff (by decide), apply_shown narrow_isDigit] at hfirst
      exact hfirst
    rw [scan_of_number hc]
    have hstops := number_stops (c :: r)
    have hwhole : (number (c :: r)).text ++ (number (c :: r)).rest = c :: r := number_whole _
    constructor
    · intro stop k hat
      have hfound : ∀ stop' k', NumberAt source (byteLength before) stop' k' →
          (number (c :: r)).kind = k' ∧ byteLength (before ++ (number (c :: r)).text) = stop' := by
        intro stop' k' hat'
        obtain ⟨text, after, hnumber, hcut, rfl, hafter⟩ := (numberAt_iff htext).1 hat'
        rw [hcut, number_append_of_number hnumber hafter]
        exact ⟨rfl, rfl⟩
      obtain ⟨hkind, hstop⟩ := hfound stop k hat
      refine ⟨fun stop' k' hat' => ?_, hkind, ?_⟩
      · obtain ⟨hkind', hstop'⟩ := hfound stop' k' hat'
        exact ⟨hstop'.symm.trans hstop, hkind'.symm.trans hkind⟩
      · rw [← hstop]
        rfl
    · intro hnone
      refine ⟨?_, ?_, ?_⟩
      · refine Decidable.byContradiction fun hkind => hnone _ _ ((numberAt_iff htext).2
          ⟨_, _, number_of_scanned hkind, hwhole.symm, rfl, hstops⟩)
      · show byteLength before < byteLength (before ++ (number (c :: r)).text)
        have hpos := byteLength_pos (number_text_ne_nil r hc)
        rw [byteLength_append]
        omega
      · refine (endsAt_iff ?_).2 hstops
        rw [List.append_assoc, hwhole, htext]

theorem kind_of_numberAt_example :
    let s := "é -0.5e+1 01a"
    let t : Token := ⟨⟨.float, "-0.5e+1"⟩, ⟨3, 10⟩⟩
    let u : Token := ⟨⟨.invalid, "01a"⟩, ⟨11, 14⟩⟩
    (t ∈ tokenize s ∧ (∃ c ∈ byteAt s.toList t.span.start, c = '-' ∨ c.isDigit = true) ∧
      NumberAt s 3 10 .float ∧ ∀ stop k, NumberAt s 3 stop k → stop = 10 ∧ k = .float) ∧
    (u ∈ tokenize s ∧ (∃ c ∈ byteAt s.toList u.span.start, c = '-' ∨ c.isDigit = true) ∧
      (∀ stop k, ¬NumberAt s 11 stop k) ∧ EndsAt s 14) := by
  intro s t u
  have ht : t ∈ tokenize s := by decide +kernel
  have hu : u ∈ tokenize s := by decide +kernel
  have htstart : ∃ c ∈ byteAt s.toList t.span.start, c = '-' ∨ c.isDigit = true :=
    ⟨'-', by decide +kernel, .inl rfl⟩
  have hustart : ∃ c ∈ byteAt s.toList u.span.start, c = '-' ∨ c.isDigit = true :=
    ⟨'0', by decide +kernel, .inr rfl⟩
  have hfloat : NumberAt s 3 10 .float := by
    have htext : s.toList = ['é', ' '] ++ "-0.5e+1 01a".toList := by decide +kernel
    have hends : ∀ d ∈ [' ', '0', '1', 'a'].head?, isNumberTail d = false := by
      rintro d ⟨⟩
      rfl
    refine (numberAt_iff htext).2 ⟨['-', '0', '.', '5', 'e', '+', '1'], [' ', '0', '1', 'a'], ?_,
      by decide +kernel, by decide, hends⟩
    exact .float ['-'] ['0'] ['.', '5'] ['e', '+', '1'] .minus .zero
      (.inr (.mk ['5'] ⟨by simp, List.forall_mem_singleton.2 rfl⟩))
      (.inr (.mk 'e' ['+'] ['1'] (.inl rfl) (.inr (.inl rfl))
        ⟨by simp, List.forall_mem_singleton.2 rfl⟩))
      (.inl (by simp))
  have hnone : ∀ stop k, ¬NumberAt s 11 stop k := by
    intro stop k hat
    have hkind : TokenKind.invalid = k := ((kind_of_numberAt hu hustart).1 stop k hat).2.1
    obtain ⟨⟨text, -, hnumber⟩, -⟩ := hat
    subst hkind
    cases hnumber
  exact ⟨⟨ht, htstart, hfloat, ((kind_of_numberAt ht htstart).1 10 .float hfloat).1⟩,
    hu, hustart, hnone, ((kind_of_numberAt hu hustart).2 hnone).2.2⟩

end GraphQL
