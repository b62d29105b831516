import Mathlib.Data.List.Forall2
import Mathlib.Data.Nat.Digits.Defs
import GraphQL.Text.Quoted
import GraphQL.Text.Separator

/-!
The grammar of quoted strings. The text between the quotes is a sequence of symbols, each of
which stands for one character; `decode` gives the characters of the symbols, and where there
are no such symbols, the first escape that is none. Numbers of characters are a parameter of
the grammar, since more of them are accepted than the four hexadecimal digits of the
standard.
-/

namespace GraphQL.Text.Quoted

/-! ### Hexadecimal numbers -/

/-- A hexadecimal digit in either case, and its value. -/
def HexDigit (c : Char) (d : Nat) : Prop := d < 16 ∧ c.toLower = d.digitChar

/-- Hexadecimal digits and the number that they spell. -/
def HexNumber (cs : List Char) (n : Nat) : Prop :=
  ∃ ds, List.Forall₂ HexDigit cs ds ∧ n = Nat.ofDigits 16 ds.reverse

theorem toLower_of_le {c : Char} (h : 128 ≤ c.toNat) : c.toLower = c := by
  have hupper : ¬(c.val ≥ 'A'.val ∧ c.val ≤ 'Z'.val) := by
    rintro ⟨-, hc⟩
    have hle : c.toNat ≤ 90 := UInt32.le_iff_toNat_le.1 hc
    omega
  exact dif_neg hupper

theorem hexDigit?_of_le {c : Char} (h : 128 ≤ c.toNat) : hexDigit? c = none := by
  have hle : ∀ d : Char, d.toNat < 128 → ¬c ≤ d := by
    intro d hd hc
    have hnat : c.toNat ≤ d.toNat := UInt32.le_iff_toNat_le.1 hc
    omega
  have hdigit : ¬c.isDigit = true := by
    simp only [Char.isDigit, Bool.and_eq_true, decide_eq_true_eq]
    exact fun hc => hle '9' (by decide) hc.2
  rw [hexDigit?, if_neg hdigit, if_neg fun hc => hle 'f' (by decide) hc.2,
    if_neg fun hc => hle 'F' (by decide) hc.2]

theorem hexDigit?_eq_some_iff {c : Char} {d : Nat} : hexDigit? c = some d ↔ HexDigit c d := by
  have hascii : ∀ k < 128, (∀ d < 16, hexDigit? (Char.ofNat k) = some d ↔
      (Char.ofNat k).toLower = d.digitChar) ∧ ∀ d ∈ hexDigit? (Char.ofNat k), d < 16 := by
    decide +kernel
  rcases Nat.lt_or_ge c.toNat 128 with hc | hc
  · obtain ⟨hiff, hlt⟩ := hascii c.toNat hc
    rw [Char.ofNat_toNat] at hiff hlt
    exact ⟨fun h => ⟨hlt d h, (hiff d (hlt d h)).1 h⟩, fun h => (hiff d h.1).2 h.2⟩
  · rw [hexDigit?_of_le hc]
    refine ⟨fun h => (by cases h), fun ⟨hd, hlower⟩ => ?_⟩
    have hdigit : ∀ d < 16, (Nat.digitChar d).toNat < 128 := by decide
    have hlt := hdigit d hd
    rw [← hlower, toLower_of_le hc] at hlt
    omega

theorem hexFrom?_eq_some_iff {cs : List Char} {n m : Nat} : hexFrom? n cs = some m ↔
    ∃ ds, List.Forall₂ HexDigit cs ds ∧ m = ds.foldl (fun n d => d + 16 * n) n := by
  induction cs generalizing n with
  | nil => simp [hexFrom?, eq_comm]
  | cons c cs ih =>
      have hstep : ∀ d, d + 16 * n = n * 16 + d := fun d => by omega
      simp only [hexFrom?, Option.bind_eq_bind, Option.bind_eq_some_iff, ih,
        hexDigit?_eq_some_iff, List.forall₂_cons_left_iff]
      constructor
      · rintro ⟨d, hd, ds, hds, rfl⟩
        exact ⟨d :: ds, ⟨d, ds, hd, hds, rfl⟩, by rw [List.foldl_cons, hstep]⟩
      · rintro ⟨_, ⟨d, ds, hd, hds, rfl⟩, rfl⟩
        exact ⟨d, hd, ds, hds, by rw [List.foldl_cons, hstep]⟩

theorem hexFrom?_zero_eq_some_iff {cs : List Char} {n : Nat} :
    hexFrom? 0 cs = some n ↔ HexNumber cs n := by
  have hfold : ∀ ds : List Nat,
      ds.foldl (fun n d => d + 16 * n) 0 = Nat.ofDigits 16 ds.reverse := fun ds => by
    rw [Nat.ofDigits_eq_foldr, List.foldr_reverse]
    rfl
  simp only [hexFrom?_eq_some_iff, hfold, HexNumber]

theorem HexNumber.of_mem {cs : List Char} {n : Nat} (h : HexNumber cs n) :
    ∀ c ∈ cs, ∃ d, HexDigit c d := by
  obtain ⟨ds, hds, -⟩ := h
  induction hds with
  | nil => exact List.forall_mem_nil _
  | cons hd _ ih => exact List.forall_mem_cons.2 ⟨⟨_, hd⟩, ih⟩

/-- A sign is no digit. -/
theorem not_hexNumber_plus {cs : List Char} {n : Nat} : ¬HexNumber ('+' :: cs) n := by
  intro h
  obtain ⟨d, hd, hlower⟩ := h.of_mem '+' List.mem_cons_self
  have hne : ∀ d < 16, '+'.toLower ≠ d.digitChar := by decide
  exact hne d hd hlower

/-! ### Symbols -/

/-- Four hexadecimal digits. -/
def FourDigits (cs : List Char) (n : Nat) : Prop := cs.length = 4 ∧ HexNumber cs n

/-- Four hexadecimal digits, or three behind a plus sign. -/
def Accepted (cs : List Char) (n : Nat) : Prop :=
  FourDigits cs n ∨ ∃ ds, cs = '+' :: ds ∧ ds.length = 3 ∧ HexNumber ds n

/-- The escapes of one character behind the backslash, with what they stand for. -/
def letters : List (Char × Char) :=
  [('"', '"'), ('\\', '\\'), ('/', '/'), ('b', '\x08'), ('f', '\x0c'), ('n', '\n'), ('r', '\r'),
    ('t', '\t')]

/-- A symbol of a string, with the character that it stands for. No character has the number
of a surrogate. -/
inductive Symbol (Number : List Char → Nat → Prop) : List Char → Char → Prop
  | plain (c : Char) : c ≠ '"' → c ≠ '\\' → isLineEnd c = false → Symbol Number [c] c
  | letter (e x : Char) : (e, x) ∈ letters → Symbol Number ['\\', e] x
  | number (ds : List Char) (n : Nat) : Number ds n → n.isValidChar →
      Symbol Number ('\\' :: 'u' :: ds) (Char.ofNat n)

/-- A sequence of symbols, with the characters that they stand for. -/
inductive Symbols (Number : List Char → Nat → Prop) : List Char → List Char → Prop
  | nil : Symbols Number [] []
  | cons {p text value : List Char} {x : Char} : Symbol Number p x → Symbols Number text value →
      Symbols Number (p ++ text) (x :: value)

section
variable {N M : List Char → Nat → Prop} {p text value : List Char} {x : Char}

theorem Symbol.mono (h : ∀ ds n, N ds n → M ds n) (hp : Symbol N p x) : Symbol M p x := by
  cases hp with
  | plain _ hq hb hl => exact .plain _ hq hb hl
  | letter e x he => exact .letter e x he
  | number ds n hn hv => exact .number ds n (h ds n hn) hv

theorem Symbols.mono (h : ∀ ds n, N ds n → M ds n) (hp : Symbols N text value) :
    Symbols M text value := by
  induction hp with
  | nil => exact .nil
  | cons hp _ ih => exact .cons (hp.mono h) ih

theorem Symbol.number_inv {ds : List Char} (h : Symbol N ('\\' :: 'u' :: ds) x) :
    ∃ n, N ds n ∧ n.isValidChar ∧ x = Char.ofNat n := by
  cases h with
  | letter _ _ he => simp [letters] at he
  | number _ n hn hv => exact ⟨n, hn, hv, rfl⟩

theorem Symbol.letter_inv {e : Char} (h : Symbol N ['\\', e] x) (he : e ≠ 'u') :
    (e, x) ∈ letters := by
  cases h with
  | letter _ _ hx => exact hx
  | number => exact absurd rfl he

theorem accepted_of_fourDigits (ds : List Char) (n : Nat) (h : FourDigits ds n) : Accepted ds n :=
  .inl h

end

/-- An escape at the front of a text: a backslash with the character behind it, and with up to
four more if that is a `u`; there are fewer only if the text ends. -/
inductive Escape : List Char → List Char → Prop
  | letter (e : Char) (rest : List Char) : e ≠ 'u' → Escape ['\\', e] rest
  | number (ds rest : List Char) : ds.length = 4 ∨ ds.length < 4 ∧ rest = [] →
      Escape ('\\' :: 'u' :: ds) rest

/-- The first escape of a text that is no symbol. -/
def Fault (Number : List Char → Nat → Prop) (text e : List Char) : Prop :=
  ∃ front value rest, text = front ++ (e ++ rest) ∧ Symbols Number front value ∧
    Escape e rest ∧ ∀ x, ¬Symbol Number e x

/-! ### Decoding -/

theorem escape?_eq_some_iff {e x : Char} : escape? e = some x ↔ (e, x) ∈ letters := by
  constructor
  · intro h
    unfold escape? at h
    split at h
    case h_9 => cases h
    all_goals
      cases h
      decide
  · intro h
    simp only [letters, List.mem_cons, Prod.mk.injEq, List.not_mem_nil, or_false] at h
    rcases h with h | h | h | h | h | h | h | h
    all_goals
      obtain ⟨rfl, rfl⟩ := h
      rfl

theorem charOf?_eq_some_iff {n : Nat} {x : Char} :
    charOf? n = some x ↔ n.isValidChar ∧ x = Char.ofNat n := by
  by_cases h : n.isValidChar
  · have hchar : Char.ofNat n = Char.ofNatAux n h := dif_pos h
    rw [charOf?, dif_pos h, hchar, Option.some_inj, eq_comm]
    exact (and_iff_right h).symm
  · rw [charOf?, dif_neg h]
    exact ⟨fun hsome => (by cases hsome), fun hvalid => absurd hvalid.1 h⟩

theorem hex?_eq_some_iff {cs : List Char} (h : cs.length = 4) {n : Nat} :
    hex? cs = some n ↔ Accepted cs n := by
  unfold hex?
  split
  · cases h
  · cases h
  · rename_i ds _
    have hlength : ds.length = 3 := Nat.succ.inj h
    simp [hexFrom?_zero_eq_some_iff, Accepted, FourDigits, not_hexNumber_plus, hlength]
  · rename_i hnone hsign
    have hne : ∀ ds, cs ≠ '+' :: ds := fun ds hds => hsign ds hds
    simp [hexFrom?_zero_eq_some_iff, Accepted, FourDigits, hne, h]

theorem codePoint?_eq_some_iff {cs : List Char} (h : cs.length = 4) {x : Char} :
    codePoint? cs = some x ↔ ∃ n, Accepted cs n ∧ n.isValidChar ∧ x = Char.ofNat n := by
  simp only [codePoint?, Option.bind_eq_bind, Option.bind_eq_some_iff, hex?_eq_some_iff h,
    charOf?_eq_some_iff]

theorem Accepted.length {ds : List Char} {n : Nat} (h : Accepted ds n) : ds.length = 4 := by
  rcases h with h | ⟨es, rfl, hlength, -⟩
  · exact h.1
  · rw [List.length_cons, hlength]

theorem decode_plain {c : Char} (h : c ≠ '\\') (cs : List Char) :
    decode (c :: cs) = (decode cs).map (c :: ·) := by
  rw [decode]
  all_goals
    intros
    simp_all

theorem decode_unicode (a b c d : Char) (cs : List Char) :
    decode ('\\' :: 'u' :: a :: b :: c :: d :: cs) =
      match codePoint? [a, b, c, d] with
      | some x => (decode cs).map (x :: ·)
      | none => .error ['\\', 'u', a, b, c, d] :=
  decode.eq_2 a b c d cs

theorem decode_escape {e : Char} (h : e ≠ 'u') (cs : List Char) :
    decode ('\\' :: e :: cs) =
      match escape? e with
      | some x => (decode cs).map (x :: ·)
      | none => .error ['\\', e] :=
  decode.eq_4 e cs (fun _ _ _ _ _ he => absurd he h) h

theorem decode_unicode_short {ds : List Char} (h : ds.length < 4) :
    decode ('\\' :: 'u' :: ds) = .error ('\\' :: 'u' :: ds) := by
  refine decode.eq_3 ds fun a b c d cs hds => ?_
  rw [hds] at h
  simp only [List.length_cons] at h
  omega

theorem value_quoted (body : List Char) : value ('"' :: (body ++ ['"'])) = decode body := by
  rw [value, List.drop_one, List.tail_cons, List.dropLast_concat]

theorem ne_of_mem_letters {e x : Char} (h : (e, x) ∈ letters) : e ≠ 'u' := by
  rintro rfl
  simp [letters] at h

/-- A symbol is decoded to the character that it stands for. -/
theorem decode_symbol {p : List Char} {x : Char} (h : Symbol Accepted p x) (cs : List Char) :
    decode (p ++ cs) = (decode cs).map (x :: ·) := by
  cases h with
  | plain _ _ hb _ => exact decode_plain hb cs
  | letter e _ he =>
      rw [List.cons_append, List.cons_append, List.nil_append, decode_escape (ne_of_mem_letters he),
        escape?_eq_some_iff.2 he]
  | number ds n hn hv =>
      have hx := (codePoint?_eq_some_iff hn.length).2 ⟨n, hn, hv, rfl⟩
      obtain ⟨a, b, c, d, rfl⟩ := List.length_eq_four.1 hn.length
      show decode ('\\' :: 'u' :: a :: b :: c :: d :: cs) = _
      rw [decode_unicode, hx]

theorem decode_symbols {front value : List Char} (h : Symbols Accepted front value)
    (cs : List Char) : decode (front ++ cs) = (decode cs).map (value ++ ·) := by
  induction h with
  | nil => cases hcs : decode cs <;> simp [hcs, Except.map]
  | cons hp _ ih =>
      rw [List.append_assoc, decode_symbol hp, ih]
      cases decode cs <;> rfl

/-- An escape that is no symbol is reported as it is written. -/
theorem decode_of_escape {e rest : List Char} (h : Escape e rest)
    (hnone : ∀ x, ¬Symbol Accepted e x) : decode (e ++ rest) = .error e := by
  cases h with
  | letter e _ hu =>
      have he : escape? e = none :=
        Option.eq_none_iff_forall_ne_some.2 fun x hx =>
          hnone x (.letter e x (escape?_eq_some_iff.1 hx))
      rw [List.cons_append, List.cons_append, List.nil_append, decode_escape hu, he]
  | number ds _ hds =>
      rcases hds with hlength | ⟨hlength, rfl⟩
      · have hx : codePoint? ds = none :=
          Option.eq_none_iff_forall_ne_some.2 fun x hx => by
            obtain ⟨n, hn, hv, rfl⟩ := (codePoint?_eq_some_iff hlength).1 hx
            exact hnone _ (.number ds n hn hv)
        obtain ⟨a, b, c, d, rfl⟩ := List.length_eq_four.1 hlength
        show decode ('\\' :: 'u' :: a :: b :: c :: d :: rest) = _
        rw [decode_unicode, hx]
      · rw [List.append_nil]
        exact decode_unicode_short hlength

/-! ### Texts between quotes -/

/-- A text that holds no quote and no line end but behind a backslash, and no backslash at its
end. -/
inductive Enclosed : List Char → Prop
  | nil : Enclosed []
  | plain (c : Char) (cs : List Char) : c ≠ '"' → c ≠ '\\' → isLineEnd c = false → Enclosed cs →
      Enclosed (c :: cs)
  | escape (c : Char) (cs : List Char) : Enclosed cs → Enclosed ('\\' :: c :: cs)

/-- What decoding comes to: the characters of the symbols, or the first escape that is none. -/
def Verdict (cs : List Char) : Except (List Char) (List Char) → Prop
  | .ok value => Symbols Accepted cs value
  | .error e => Fault Accepted cs e

theorem Verdict.cons {p cs : List Char} {x : Char} {r : Except (List Char) (List Char)}
    (hp : Symbol Accepted p x) (h : Verdict cs r) : Verdict (p ++ cs) (r.map (x :: ·)) := by
  cases r with
  | ok value => exact Symbols.cons hp h
  | error e =>
      obtain ⟨front, value, rest, rfl, hfront, he, hnone⟩ := h
      exact ⟨p ++ front, x :: value, rest, by rw [List.append_assoc], Symbols.cons hp hfront, he,
        hnone⟩

theorem Verdict.escape {e rest : List Char} (h : Escape e rest)
    (hnone : ∀ x, ¬Symbol Accepted e x) : Verdict (e ++ rest) (.error e) :=
  ⟨[], [], rest, rfl, .nil, h, hnone⟩

theorem Enclosed.of_cons {c : Char} {cs : List Char} (h : Enclosed (c :: cs)) (hc : c ≠ '\\') :
    (c ≠ '"' ∧ isLineEnd c = false) ∧ Enclosed cs := by
  cases h with
  | plain _ _ hq _ hl hcs => exact ⟨⟨hq, hl⟩, hcs⟩
  | escape => exact absurd rfl hc

theorem Enclosed.of_append {front cs : List Char} (h : Enclosed (front ++ cs))
    (hfront : ∀ c ∈ front, c ≠ '\\') : Enclosed cs := by
  induction front with
  | nil => exact h
  | cons c front ih =>
      obtain ⟨hc, hfront⟩ := List.forall_mem_cons.1 hfront
      exact ih (h.of_cons hc).2 hfront

theorem Enclosed.of_escape {c : Char} {cs : List Char} (h : Enclosed ('\\' :: c :: cs)) :
    Enclosed cs := by
  cases h with
  | plain _ _ _ hb => exact absurd rfl hb
  | escape _ _ h => exact h

/-- Digits and signs stand for nothing else in a string. -/
theorem Accepted.of_mem {ds : List Char} {n : Nat} (h : Accepted ds n) :
    ∀ c ∈ ds, c ≠ '"' ∧ c ≠ '\\' ∧ isLineEnd c = false := by
  have hdigit : ∀ {ds : List Char}, HexNumber ds n →
      ∀ c ∈ ds, c ≠ '"' ∧ c ≠ '\\' ∧ isLineEnd c = false := by
    intro ds hn c hc
    obtain ⟨d, hd, hlower⟩ := hn.of_mem c hc
    have hne : ∀ d < 16, d.digitChar ∉ ['"', '\\', '\n', '\r'].map Char.toLower := by decide
    have hc' : c ∉ ['"', '\\', '\n', '\r'] := fun he =>
      hne d hd (hlower ▸ List.mem_map_of_mem he)
    simpa [isLineEnd, not_or] using hc'
  rcases h with h | ⟨es, rfl, -, hn⟩
  · exact hdigit h.2
  · exact List.forall_mem_cons.2 ⟨by decide, hdigit hn⟩

theorem decode_verdict {cs : List Char} (h : Enclosed cs) : Verdict cs (decode cs) := by
  fun_induction decode cs with
  | case1 => exact .nil
  | case2 a b c d cs x hx ih =>
      obtain ⟨n, hn, hv, rfl⟩ := (codePoint?_eq_some_iff rfl).1 hx
      have hplain : ∀ e ∈ [a, b, c, d], e ≠ '\\' := fun e he => (hn.of_mem e he).2.1
      exact (ih (h.of_escape.of_append hplain)).cons (.number [a, b, c, d] n hn hv)
  | case3 a b c d cs hx =>
      refine Verdict.escape (e := ['\\', 'u', a, b, c, d]) (.number _ cs (.inl rfl)) fun x hp => ?_
      have hlength : [a, b, c, d].length = 4 := rfl
      have hsome := (codePoint?_eq_some_iff hlength).2 hp.number_inv
      rw [hx] at hsome
      cases hsome
  | case4 cs hcs =>
      have hlength : cs.length < 4 := by
        match cs, hcs with
        | [], _ | [_], _ | [_, _], _ | [_, _, _], _ => simp
        | a :: b :: c :: d :: cs, hcs => exact absurd rfl (hcs a b c d cs)
      have hverdict : Verdict ('\\' :: 'u' :: cs ++ []) (.error ('\\' :: 'u' :: cs)) := by
        refine .escape (.number cs [] (.inr ⟨hlength, rfl⟩)) fun x hp => ?_
        obtain ⟨n, hn, -, -⟩ := hp.number_inv
        have := hn.length
        omega
      rwa [List.append_nil] at hverdict
  | case5 e cs _ hu x hx ih =>
      exact (ih h.of_escape).cons (.letter e x (escape?_eq_some_iff.1 hx))
  | case6 e cs _ hu hx =>
      refine Verdict.escape (e := ['\\', e]) (.letter e cs hu) fun x hp => ?_
      have hsome := escape?_eq_some_iff.2 (hp.letter_inv hu)
      rw [hx] at hsome
      cases hsome
  | case7 =>
      cases h with
      | plain _ _ _ hb => exact absurd rfl hb
  | case8 c cs _ _ hpair hlast ih =>
      have hb : c ≠ '\\' := by
        rintro rfl
        cases cs with
        | nil => exact hlast rfl rfl
        | cons e es => exact hpair e es rfl rfl
      obtain ⟨⟨hq, hl⟩, hcs⟩ := h.of_cons hb
      exact (ih hcs).cons (.plain c hq hb hl)

theorem decode_eq_ok_iff {cs value : List Char} (h : Enclosed cs) :
    decode cs = .ok value ↔ Symbols Accepted cs value := by
  constructor
  · intro hok
    have hverdict := decode_verdict h
    rwa [hok] at hverdict
  · intro hp
    have hdecode := decode_symbols hp []
    rw [List.append_nil] at hdecode
    rw [hdecode, decode, Except.map, List.append_nil]

theorem decode_eq_error_iff {cs e : List Char} (h : Enclosed cs) :
    decode cs = .error e ↔ Fault Accepted cs e := by
  constructor
  · intro herror
    have hverdict := decode_verdict h
    rwa [herror] at hverdict
  · rintro ⟨front, value, rest, rfl, hfront, he, hnone⟩
    rw [decode_symbols hfront, decode_of_escape he hnone]
    rfl

/-! ### Texts without signs -/

/-- No escape behind symbols has a plus sign where its digits should start. -/
def Unsigned (cs : List Char) : Prop :=
  ∀ front value rest, Symbols FourDigits front value → cs ≠ front ++ '\\' :: 'u' :: '+' :: rest

theorem unsigned_of_not_infix {cs : List Char} (h : ¬['\\', 'u', '+'] <:+: cs) : Unsigned cs := by
  rintro front value rest - rfl
  exact h ⟨front, rest, by simp⟩

/-- Four digits do not start with a sign. -/
theorem not_symbols_plus {cs value : List Char} :
    ¬Symbols FourDigits ('\\' :: 'u' :: '+' :: cs) value := by
  intro h
  generalize hwhole : '\\' :: 'u' :: '+' :: cs = whole at h
  cases h with
  | nil => cases hwhole
  | cons hp _ =>
      cases hp with
      | plain c _ hb _ => exact hb (List.cons.inj hwhole).1.symm
      | letter e x he =>
          obtain rfl := (List.cons.inj (List.cons.inj hwhole).2).1
          exact ne_of_mem_letters he rfl
      | number ds n hn _ =>
          obtain ⟨hlength, hnumber⟩ := hn
          cases ds with
          | nil => cases hlength
          | cons d ds =>
              obtain rfl := (List.cons.inj (List.cons.inj (List.cons.inj hwhole).2).2).1
              exact not_hexNumber_plus hnumber

theorem Unsigned.of_append {front rest : List Char} (h : Unsigned (front ++ rest)) :
    Unsigned front := by
  rintro front' value rest' hp rfl
  exact h front' value (rest' ++ rest) hp (by simp)

/-- A symbol behind symbols of four digits has four digits itself, if no sign stands there. -/
theorem Symbol.fourDigits {front value p rest : List Char} {x : Char}
    (h : Unsigned (front ++ (p ++ rest))) (hfront : Symbols FourDigits front value)
    (hp : Symbol Accepted p x) : Symbol FourDigits p x := by
  cases hp with
  | plain _ hq hb hl => exact .plain _ hq hb hl
  | letter e _ he => exact .letter e x he
  | number ds n hn hv =>
      rcases hn with hn | ⟨es, rfl, -, -⟩
      · exact .number ds n hn hv
      · exact absurd rfl (h front value (es ++ rest) hfront)

theorem Symbols.concat {N : List Char → Nat → Prop} {front value p : List Char} {x : Char}
    (h : Symbols N front value) (hp : Symbol N p x) : Symbols N (front ++ p) (value ++ [x]) := by
  induction h with
  | nil =>
      have hlast := Symbols.cons hp .nil
      rwa [List.append_nil] at hlast
  | cons hq _ ih =>
      rw [List.append_assoc]
      exact .cons hq ih

theorem Symbols.fourDigits {front value text value' : List Char}
    (hfront : Symbols FourDigits front value) (h : Unsigned (front ++ text))
    (ht : Symbols Accepted text value') : Symbols FourDigits text value' := by
  induction ht generalizing front value with
  | nil => exact .nil
  | cons hp _ ih =>
      have hp' := hp.fourDigits h hfront
      rw [← List.append_assoc] at h
      exact .cons hp' (ih (hfront.concat hp') h)

theorem symbols_fourDigits_iff {cs value : List Char} (h : Unsigned cs) :
    Symbols FourDigits cs value ↔ Symbols Accepted cs value :=
  ⟨.mono accepted_of_fourDigits, Symbols.fourDigits .nil h⟩

theorem fault_fourDigits_iff {cs e : List Char} (h : Unsigned cs) :
    Fault FourDigits cs e ↔ Fault Accepted cs e := by
  constructor
  · rintro ⟨front, value, rest, rfl, hfront, he, hnone⟩
    exact ⟨front, value, rest, rfl, hfront.mono accepted_of_fourDigits, he,
      fun x hp => hnone x (hp.fourDigits h hfront)⟩
  · rintro ⟨front, value, rest, rfl, hfront, he, hnone⟩
    exact ⟨front, value, rest, rfl, (symbols_fourDigits_iff h.of_append).2 hfront, he,
      fun x hp => hnone x (hp.mono accepted_of_fourDigits)⟩

/-! ### Writing -/

/-- Every character is what some symbol stands for. -/
theorem exists_symbol (N : List Char → Nat → Prop) (x : Char) : ∃ p, Symbol N p x := by
  have hletter : ∀ e, (e, x) ∈ letters → ∃ p, Symbol N p x := fun e he => ⟨_, .letter e x he⟩
  by_cases hq : x = '"'
  · exact hletter '"' (by simp [hq, letters])
  · by_cases hb : x = '\\'
    · exact hletter '\\' (by simp [hb, letters])
    · cases hl : isLineEnd x with
      | false => exact ⟨[x], .plain x hq hb hl⟩
      | true =>
          simp only [isLineEnd, Bool.or_eq_true, beq_iff_eq] at hl
          rcases hl with rfl | rfl
          · exact hletter 'n' (by decide)
          · exact hletter 'r' (by decide)

theorem exists_symbols (N : List Char → Nat → Prop) (value : List Char) :
    ∃ text, Symbols N text value := by
  induction value with
  | nil => exact ⟨[], .nil⟩
  | cons x value ih =>
      obtain ⟨p, hp⟩ := exists_symbol N x
      obtain ⟨text, ht⟩ := ih
      exact ⟨p ++ text, .cons hp ht⟩

theorem Enclosed.append {cs ds : List Char}
    (hc : ∀ c ∈ cs, c ≠ '"' ∧ c ≠ '\\' ∧ isLineEnd c = false) (h : Enclosed ds) :
    Enclosed (cs ++ ds) := by
  induction cs with
  | nil => exact h
  | cons c cs ih =>
      obtain ⟨⟨hq, hb, hl⟩, hcs⟩ := List.forall_mem_cons.1 hc
      exact .plain c _ hq hb hl (ih hcs)

/-- Symbols can stand between quotes. -/
theorem Symbols.enclosed {text value : List Char} (h : Symbols Accepted text value) :
    Enclosed text := by
  induction h with
  | nil => exact .nil
  | cons hp _ ih =>
      cases hp with
      | plain c hq hb hl => exact .plain _ _ hq hb hl ih
      | letter e _ _ => exact .escape e _ ih
      | number ds n hn _ => exact .escape 'u' _ (.append hn.of_mem ih)

/-- No line ends in a symbol. -/
theorem Symbol.isLineEnd_of_mem {p : List Char} {x : Char} (h : Symbol Accepted p x) :
    ∀ c ∈ p, isLineEnd c = false := by
  cases h with
  | plain _ _ _ hl => exact List.forall_mem_singleton.2 hl
  | letter e _ he =>
      have hletters : ∀ l ∈ letters, isLineEnd l.1 = false := by decide
      exact List.forall_mem_cons.2 ⟨rfl, List.forall_mem_singleton.2 (hletters _ he)⟩
  | number ds n hn _ =>
      exact List.forall_mem_cons.2
        ⟨rfl, List.forall_mem_cons.2 ⟨rfl, fun c hc => (hn.of_mem c hc).2.2⟩⟩

theorem Symbols.isLineEnd_of_mem {text value : List Char} (h : Symbols Accepted text value) :
    ∀ c ∈ text, isLineEnd c = false := by
  induction h with
  | nil => exact List.forall_mem_nil _
  | cons hp _ ih => exact List.forall_mem_append.2 ⟨hp.isLineEnd_of_mem, ih⟩

end GraphQL.Text.Quoted
