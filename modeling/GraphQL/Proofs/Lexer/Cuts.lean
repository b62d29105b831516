import GraphQL.Proofs.Lexer.Seams

/-!
Lexemes on their own. Where a lexeme ends, or anywhere behind it, the text may as well end:
the scanner took the next character for no part of the lexeme, and it needs none behind it.
So every lexeme that is no open string can be written alone, and such lexemes line by line.
-/

namespace GraphQL.Lexer

open Text

/-! ### Numbers and names -/

theorem takeWhile_append_of_head {p : Char → Bool} {rest : List Char}
    (hrest : ∀ d ∈ rest.head?, p d = false) (z : List Char) :
    (z ++ rest).takeWhile p = z.takeWhile p ∧ (z ++ rest).dropWhile p = z.dropWhile p ++ rest := by
  induction z with
  | nil =>
      cases rest with
      | nil => exact ⟨rfl, rfl⟩
      | cons d rest => simp [hrest d rfl]
  | cons c z ih =>
      cases hc : p c with
      | true => simp [hc, ih]
      | false => simp [hc]

theorem isDigit_of_isNumberTail {d : Char} (h : isNumberTail d = false) : d.isDigit = false := by
  refine Bool.eq_false_iff.2 fun hdigit => Bool.eq_false_iff.1 h ?_
  simp [isNumberTail, isNameChar, Char.isAlphanum, hdigit]

section
variable {rest : List Char} (hrest : ∀ d ∈ rest.head?, isNumberTail d = false)
include hrest

theorem digits_append (taken z : List Char) :
    digits taken (z ++ rest) = (digits taken z).mapRest (· ++ rest) := by
  obtain ⟨ht, hd⟩ := takeWhile_append_of_head (fun d hd => isDigit_of_isNumberTail (hrest d hd)) z
  simp only [digits, Part.mapRest, ht, hd]

theorem wholePart_append (z : List Char) :
    wholePart (z ++ rest) = (wholePart z).mapRest (· ++ rest) := by
  obtain ⟨ht, hd⟩ := takeWhile_append_of_head (fun d hd => isDigit_of_isNumberTail (hrest d hd)) z
  simp only [wholePart, ht, hd]
  split <;> rfl

theorem fraction_append (z : List Char) :
    fraction (z ++ rest) = (fraction z).mapRest (· ++ rest) := by
  have hdot : ∀ d ∈ rest.head?, d ≠ '.' := by
    rintro d hd rfl
    exact absurd (hrest _ hd) (by decide)
  rcases head_cases '.' z with hz | ⟨z, rfl⟩
  · have hwhole : ∀ d ∈ (z ++ rest).head?, d ≠ '.' := by
      cases z with
      | nil => exact hdot
      | cons c z => exact hz
    rw [fraction_of_head hwhole, fraction_of_head hz]
    rfl
  · exact digits_append hrest ['.'] z

theorem continues_append (z : List Char) : continues (z ++ rest) = continues z := by
  cases z with
  | cons c z => rfl
  | nil =>
      cases rest with
      | nil => rfl
      | cons d rest => exact hrest d rfl

section
variable {y : List Char} (hy : ∀ d ∈ y.head?, d ∈ rest.head?)
include hy

/-- Only a sign behind the letter could be taken that stands behind the text. Where none is
taken, another text may start there with the same character. -/
theorem exponent_append {z : List Char} (h : rest.length ≤ (exponent (z ++ rest)).rest.length) :
    exponent (z ++ y) = (exponent z).mapRest (· ++ y) := by
  have hstops : ∀ d ∈ y.head?, isNumberTail d = false := fun d hd => hrest d (hy d hd)
  have hletter : ∀ d ∈ y.head?, d ≠ 'e' ∧ d ≠ 'E' := by
    intro d hd
    constructor
    · rintro rfl
      exact absurd (hstops _ hd) (by decide)
    · rintro rfl
      exact absurd (hstops _ hd) (by decide)
  match z with
  | [] =>
      rw [List.nil_append, exponent_of_head hletter]
      rfl
  | c :: z =>
      by_cases hc : c = 'e' ∨ c = 'E'
      · match z with
        | [] =>
            have hsign : ∀ s ∈ y.head?, s ≠ '+' ∧ s ≠ '-' := by
              intro s hs
              refine not_or.1 fun hsign => ?_
              obtain ⟨ds, rfl⟩ := List.head?_eq_some_iff.1 (hy s hs)
              change _ ≤ (exponent (c :: s :: ds)).rest.length at h
              rw [exponent_signed hc hsign] at h
              have hlength := (List.dropWhile_suffix (l := ds) Char.isDigit).length_le
              simp only [digits, List.length_cons] at h
              omega
            have hdigits := digits_append hstops [c] []
            rw [List.nil_append] at hdigits
            rw [List.singleton_append, exponent_unsigned hc hsign, hdigits,
              exponent_unsigned hc (by simp)]
        | s :: z =>
            by_cases hs : s = '+' ∨ s = '-'
            · rw [exponent_signed hc hs]
              show exponent (c :: s :: (z ++ y)) = _
              rw [exponent_signed hc hs]
              exact digits_append hstops [c, s] z
            · have hsign : ∀ ds, ∀ d ∈ (s :: ds).head?, d ≠ '+' ∧ d ≠ '-' := by
                rintro ds d ⟨⟩
                exact not_or.1 hs
              rw [exponent_unsigned hc (hsign z)]
              show exponent (c :: (s :: (z ++ y))) = _
              rw [exponent_unsigned hc (hsign _)]
              exact digits_append hstops [c] (s :: z)
      · have hne : ∀ ds, ∀ d ∈ (c :: ds).head?, d ≠ 'e' ∧ d ≠ 'E' := by
          rintro ds d ⟨⟩
          exact not_or.1 hc
        rw [List.cons_append, exponent_of_head (hne _), exponent_of_head (hne _)]
        rfl

theorem unsignedParts_append {sign z : List Char}
    (h : rest.length ≤ (unsignedParts sign (z ++ rest)).rest.length) :
    unsignedParts sign (z ++ y) = (unsignedParts sign z).mapRest (· ++ y) := by
  have hstops : ∀ d ∈ y.head?, isNumberTail d = false := fun d hd => hrest d (hy d hd)
  simp only [unsignedParts, wholePart_append hrest, fraction_append hrest, Part.mapRest] at h
  simp only [unsignedParts, wholePart_append hstops, fraction_append hstops, Part.mapRest]
  split at h
  · rename_i hw
    simp [hw]
  · rename_i hw
    split at h
    · rename_i hf
      simp [hw, hf]
    · rename_i hf
      have he := exponent_append hrest hy h
      simp [hw, hf, he, Part.mapRest]

theorem numberParts_append {c : Char} {z : List Char}
    (h : rest.length ≤ (numberParts (c :: z ++ rest)).rest.length) :
    numberParts (c :: z ++ y) = (numberParts (c :: z)).mapRest (· ++ y) := by
  by_cases hc : c = '-'
  · subst hc
    exact unsignedParts_append hrest hy h
  · have hminus : ∀ ds, ∀ d ∈ (c :: ds).head?, d ≠ '-' := by
      rintro ds d ⟨⟩
      exact hc
    have hwhole : ∀ ds, numberParts (c :: z ++ ds) = unsignedParts [] (c :: z ++ ds) :=
      fun _ => numberParts_of_head (hminus _)
    rw [hwhole] at h ⊢
    rw [numberParts_of_head (hminus _)]
    exact unsignedParts_append hrest hy h

theorem number_append {c : Char} {z : List Char}
    (h : rest.length ≤ (number (c :: z ++ rest)).rest.length) :
    number (c :: z ++ y) = (number (c :: z)).mapRest (· ++ y) := by
  have hparts : rest.length ≤ (numberParts (c :: z ++ rest)).rest.length := by
    refine Nat.le_trans h ?_
    simp only [number]
    split
    · exact Nat.le_refl _
    · exact (List.dropWhile_suffix _).length_le
  have hstops : ∀ d ∈ y.head?, isNumberTail d = false := fun d hd => hrest d (hy d hd)
  obtain ⟨ht, hd⟩ := takeWhile_append_of_head hstops (numberParts (c :: z)).rest
  simp only [number, numberParts_append hrest hy hparts, Part.mapRest, continues_append hstops,
    ht, hd]
  split <;> rfl

end

end

theorem head_dropWhile {p : Char → Bool} (cs : List Char) :
    ∀ d ∈ (cs.dropWhile p).head?, p d = false := by
  intro d hd
  have hnot := List.head?_dropWhile_not p cs
  rw [Option.mem_def.1 hd] at hnot
  simpa using hnot

/-- A number ends where no number goes on. -/
theorem number_stops (cs : List Char) : ∀ d ∈ (number cs).rest.head?, isNumberTail d = false := by
  simp only [number]
  split
  · rename_i hvalid
    have hcontinues : continues (numberParts cs).rest = false := by
      simpa using (Bool.and_eq_true_iff.1 hvalid).2
    intro d hd
    obtain ⟨ds, hds⟩ : ∃ ds, (numberParts cs).rest = d :: ds := List.head?_eq_some_iff.1 hd
    rw [hds] at hcontinues
    exact hcontinues
  · exact head_dropWhile _

theorem name_append {rest : List Char} (hrest : ∀ d ∈ rest.head?, isNameChar d = false)
    (z : List Char) : name (z ++ rest) = (name z).mapRest (· ++ rest) := by
  obtain ⟨ht, hd⟩ := takeWhile_append_of_head hrest z
  simp only [name, Scan.mapRest, ht, hd]

/-! ### Lexemes -/

/-- Of two texts with a common front, the one holds at the head of what is left what the
other one does, if it goes on at all. -/
theorem head_of_head_append {p : Char → Prop} {y after : List Char}
    (h : ∀ d ∈ (y ++ after).head?, p d) : ∀ d ∈ y.head?, p d := by
  intro d hd
  obtain ⟨ds, rfl⟩ := List.head?_eq_some_iff.1 hd
  exact h d rfl

/-- What is scanned alike in front of a rest that is left takes all there is. -/
theorem Scan.eq_of_mapRest {s : Scan} {k : TokenKind} {text rest : List Char}
    (h : s.mapRest (· ++ rest) = ⟨k, text, rest⟩) : s = ⟨k, text, []⟩ := by
  obtain ⟨kind, x, y⟩ := s
  obtain ⟨rfl, rfl, hrest⟩ := Scan.mk.inj h
  have hnil : y = [] := List.append_left_eq_self.1 hrest
  rw [hnil]

section
variable {z y after : List Char} {k : TokenKind}

/-- A number ends where the text does, if it ended there in a longer text. -/
theorem number_front {c : Char} (h : number (c :: z ++ (y ++ after)) = ⟨k, c :: z, y ++ after⟩) :
    number (c :: z ++ y) = ⟨k, c :: z, y⟩ := by
  have hrest : (number (c :: z ++ (y ++ after))).rest = y ++ after := congrArg Scan.rest h
  have hstops : ∀ d ∈ (y ++ after).head?, isNumberTail d = false := by
    rw [← hrest]
    exact number_stops _
  have hlength := Nat.le_of_eq (congrArg List.length hrest.symm)
  have hwhole := number_append hstops (fun _ hd => hd) hlength
  rw [number_append hstops (head_of_head_append fun _ hd => hd) hlength,
    Scan.eq_of_mapRest (hwhole.symm.trans h)]
  rfl

/-- A name ends where the text does, if it ended there in a longer text. -/
theorem name_front (h : name (z ++ (y ++ after)) = ⟨k, z, y ++ after⟩) :
    name (z ++ y) = ⟨k, z, y⟩ := by
  have hstops : ∀ d ∈ (y ++ after).head?, isNameChar d = false := by
    rw [← show (name (z ++ (y ++ after))).rest = y ++ after by rw [h]]
    exact head_dropWhile _
  rw [name_append hstops] at h
  rw [name_append (head_of_head_append hstops), Scan.eq_of_mapRest h]
  rfl

/-- A string is left open at a line end or at the end of the text, wherever that is. -/
theorem string_open {cs x : List Char} (h : string cs = ⟨.unterminated, x, y ++ after⟩) :
    string (x ++ y) = ⟨.unterminated, x, y⟩ := by
  fun_induction string cs generalizing x with
  | case1 =>
      obtain ⟨-, rfl, hrest⟩ := Scan.mk.inj h
      obtain ⟨rfl, -⟩ := List.append_eq_nil_iff.1 hrest.symm
      rfl
  | case2 c cs ih =>
      obtain ⟨x, rfl, hx⟩ := Scan.prepend_eq h
      simp [string_escape, ih hx, Scan.prepend]
  | case3 => cases h
  | case4 c cs hne hq hl =>
      obtain ⟨-, rfl, hrest⟩ := Scan.mk.inj h
      cases y with
      | nil => rfl
      | cons d y =>
          obtain ⟨rfl, -⟩ := List.cons.inj hrest
          exact string_lineEnd hl y
  | case5 c cs hne hq hl ih =>
      obtain ⟨x, rfl, hx⟩ := Scan.prepend_eq h
      have hplain := ih hx
      by_cases hb : c = '\\'
      · -- A backslash takes the character behind it, so this one ends the text.
        subst hb
        cases cs with
        | nil =>
            obtain ⟨-, rfl, hrest⟩ := Scan.mk.inj hx
            obtain ⟨rfl, -⟩ := List.append_eq_nil_iff.1 hrest.symm
            rfl
        | cons d ds => exact absurd rfl (hne d ds rfl)
      · rw [List.singleton_append, List.cons_append, string_plain hb hq (Bool.eq_false_iff.2 hl),
          hplain]
        rfl

theorem string_front {cs x : List Char} (h : string cs = ⟨k, x, y ++ after⟩) :
    string (x ++ y) = ⟨k, x, y⟩ := by
  have hkind := string_kind cs
  rw [h] at hkind
  rcases hkind with rfl | rfl
  · exact string_append h y
  · exact string_open h

/-- A block string is left open at the end of the text only. -/
theorem blockString_open {cs x rest : List Char} (h : blockString cs = ⟨.unterminated, x, rest⟩) :
    rest = [] ∧ x = cs := by
  fun_induction blockString cs generalizing x with
  | case1 =>
      obtain ⟨-, rfl, rfl⟩ := Scan.mk.inj h
      exact ⟨rfl, rfl⟩
  | case2 => cases h
  | case3 cs ih =>
      obtain ⟨x, rfl, hx⟩ := Scan.prepend_eq h
      obtain ⟨rfl, rfl⟩ := ih hx
      exact ⟨rfl, rfl⟩
  | case4 c cs _ _ ih =>
      obtain ⟨x, rfl, hx⟩ := Scan.prepend_eq h
      obtain ⟨rfl, rfl⟩ := ih hx
      exact ⟨rfl, rfl⟩

theorem blockString_front {cs x : List Char} (h : blockString cs = ⟨k, x, y ++ after⟩) :
    blockString (x ++ y) = ⟨k, x, y⟩ := by
  have hkind := blockString_kind cs
  rw [h] at hkind
  rcases hkind with rfl | rfl
  · exact blockString_append h y
  · obtain ⟨hrest, rfl⟩ := blockString_open h
    obtain ⟨rfl, rfl⟩ := List.append_eq_nil_iff.1 hrest
    rwa [List.append_nil]

/-- What starts with a quote is scanned alike where the text is cut off behind it. -/
theorem scan_quote_front (h : scan '"' (z ++ (y ++ after)) = ⟨k, '"' :: z, y ++ after⟩) :
    scan '"' (z ++ y) = ⟨k, '"' :: z, y⟩ := by
  by_cases hblock : ['"', '"'] <+: z ++ (y ++ after)
  · obtain ⟨r, hr⟩ := hblock
    rw [← hr] at h
    obtain ⟨body, htext, hbody⟩ :=
      Scan.prepend_eq (show (blockString r).prepend ['"', '"', '"'] = _ from h)
    obtain rfl : z = '"' :: '"' :: body := (List.cons.inj htext).2
    show (blockString (body ++ y)).prepend _ = _
    rw [blockString_front hbody]
    rfl
  · have hshort : ¬['"', '"'] <+: z ++ y := fun hpre =>
      hblock (hpre.trans ⟨after, List.append_assoc z y after⟩)
    rw [scan_quote_string hblock] at h
    obtain ⟨body, htext, hbody⟩ := Scan.prepend_eq h
    obtain rfl : z = body := (List.cons.inj htext).2
    rw [scan_quote_string hshort, string_front hbody]
    rfl

/-- Behind a dot two more are scanned, or nothing. -/
theorem scan_dot_front (h : scan '.' (z ++ (y ++ after)) = ⟨k, '.' :: z, y ++ after⟩) :
    scan '.' (z ++ y) = ⟨k, '.' :: z, y⟩ := by
  by_cases hspread : ['.', '.'] <+: z ++ (y ++ after)
  · obtain ⟨r, hr⟩ := hspread
    rw [← hr] at h
    obtain ⟨rfl, htext, -⟩ := Scan.mk.inj h
    obtain rfl : ['.', '.'] = z := (List.cons.inj htext).2
    rfl
  · rw [scan_dot_alone hspread] at h
    obtain ⟨rfl, htext, -⟩ := Scan.mk.inj h
    obtain rfl : [] = z := (List.cons.inj htext).2
    exact scan_dot_alone fun hpre => hspread (hpre.trans ⟨after, rfl⟩)

/-- What is cut off behind a lexeme was not part of it. -/
theorem scan_front {c : Char} (h : scan c (z ++ (y ++ after)) = ⟨k, c :: z, y ++ after⟩) :
    scan c (z ++ y) = ⟨k, c :: z, y⟩ := by
  have hsingle : ∀ kind, (∀ cs, scan c cs = ⟨kind, [c], cs⟩) →
      scan c (z ++ y) = ⟨k, c :: z, y⟩ := by
    intro kind hscan
    rw [hscan] at h ⊢
    obtain ⟨rfl, htext, -⟩ := Scan.mk.inj h
    obtain rfl : [] = z := (List.cons.inj htext).2
    rfl
  rcases scan_cases c with ⟨p, hscan⟩ | rfl | rfl | hscan | hscan | hscan
  · exact hsingle _ hscan
  · exact scan_quote_front h
  · exact scan_dot_front h
  · rw [hscan] at h ⊢
    exact number_front h
  · rw [hscan] at h ⊢
    exact name_front (z := c :: z) h
  · exact hsingle _ hscan

end

end GraphQL.Lexer

namespace GraphQL

open Lexer

/-- The lexeme is what the scanner makes of its own text, and leaves no string open. -/
def Lexeme.Writable (l : Lexeme) : Prop := lexemes l.text = [l] ∧ l.kind ≠ .unterminated

instance (l : Lexeme) : Decidable l.Writable := inferInstanceAs (Decidable (_ ∧ _))

/-- The lexemes of a source are writable but for an open string. -/
theorem writable_of_mem {source : String} {l : Lexeme} (h : l ∈ lexemes source)
    (hk : l.kind ≠ .unterminated) : l.Writable := by
  obtain ⟨c, r, -, hstart, rfl⟩ := started_of_mem_lexemes h
  obtain ⟨z, hz, hr⟩ := scan_text_eq_cons c r
  have hlong : scan c (z ++ (scan c r).rest) = ⟨(scan c r).kind, c :: z, (scan c r).rest⟩ := by
    rw [hr, ← hz]
  have hscan := scan_front (y := []) hlong
  rw [List.append_nil] at hscan
  refine ⟨?_, hk⟩
  show Lexer.lexemes (String.ofList (scan c r).text).toList = _
  rw [String.toList_ofList, hz, Lexer.lexemes, pieces_of_lexeme (hstart z), hscan,
    pieces_of_end rfl]
  rfl

/-- Lexemes written line by line. -/
def writeLines : List Lexeme → String
  | [] => ""
  | l :: ls => l.text ++ "\n" ++ writeLines ls

theorem lexemes_writeLines {ls : List Lexeme} (h : ∀ l ∈ ls, l.Writable) :
    lexemes (writeLines ls) = ls := by
  induction ls with
  | nil => exact lexemes_of_end rfl
  | cons l ls ih =>
      obtain ⟨⟨hl, hk⟩, hls⟩ := List.forall_mem_cons.1 h
      have hclosed : ∀ m ∈ lexemes l.text, m.kind ≠ .unterminated := by
        rw [hl]
        exact List.forall_mem_singleton.2 hk
      rw [writeLines, lexemes_append_line hclosed, hl, ih hls]
      rfl

end GraphQL
