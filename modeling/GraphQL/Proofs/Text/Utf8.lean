import GraphQL.Text.Separator
import GraphQL.Text.Bytes

/-!
Texts as bytes. A character of ASCII is one byte, its code; every byte of another
character is above these codes. So a byte tells whether a given character of ASCII
starts at it, and where one does, the next character starts at the next byte.
-/

namespace GraphQL.Text

/-- The UTF-8 bytes of a text. -/
def utf8 (cs : List Char) : List UInt8 := cs.flatMap String.utf8EncodeChar

/-- The bytes of a source are those that it is stored as. -/
theorem utf8_toList (s : String) : utf8 s.toList = s.toByteArray.data.toList := by
  rw [← String.utf8Encode_toList, List.utf8Encode]
  simp [utf8]

theorem utf8_cons (c : Char) (cs : List Char) :
    utf8 (c :: cs) = String.utf8EncodeChar c ++ utf8 cs := rfl

theorem utf8_append (a b : List Char) : utf8 (a ++ b) = utf8 a ++ utf8 b :=
  List.flatMap_append

theorem length_utf8 (cs : List Char) : (utf8 cs).length = byteLength cs := by
  induction cs with
  | nil => rfl
  | cons c cs ih =>
      rw [utf8_cons, List.length_append, String.length_utf8EncodeChar, ih, byteLength_cons]

theorem length_le_byteLength (cs : List Char) : cs.length ≤ byteLength cs := by
  induction cs with
  | nil => exact Nat.le_refl 0
  | cons c cs ih =>
      have hc := Char.utf8Size_pos c
      rw [List.length_cons, byteLength_cons]
      omega

/-- The bytes behind a text. -/
theorem drop_utf8 (before rest : List Char) :
    (utf8 (before ++ rest)).drop (byteLength before) = utf8 rest := by
  rw [utf8_append, ← length_utf8, List.drop_left]

/-! ### Bytes of ASCII -/

theorem toNat_ofUInt8 (b : UInt8) : (Char.ofUInt8 b).toNat = b.toNat := rfl

theorem utf8Size_of_lt {c : Char} (h : c.toNat < 128) : c.utf8Size = 1 :=
  Char.utf8Size_eq_one_iff.2 (UInt32.le_iff_toNat_le.2 (Nat.le_of_lt_succ h))

theorem utf8EncodeChar_of_lt {c : Char} (h : c.toNat < 128) :
    String.utf8EncodeChar c = [UInt8.ofNat c.toNat] :=
  String.utf8EncodeChar_eq_singleton (utf8Size_of_lt h)

theorem ofUInt8_ofNat {c : Char} (h : c.toNat < 128) : Char.ofUInt8 (UInt8.ofNat c.toNat) = c := by
  rw [Char.ext_iff, ← UInt32.toNat_inj]
  show (Char.ofUInt8 _).toNat = c.toNat
  rw [toNat_ofUInt8, UInt8.toNat_ofNat']
  omega

theorem le_of_mem_utf8EncodeChar {c : Char} (h : 128 ≤ c.toNat) {b : UInt8}
    (hb : b ∈ String.utf8EncodeChar c) : 128 ≤ b.toNat := by
  have hc : ¬c.val.toNat ≤ 0x7F := by
    show ¬c.toNat ≤ 0x7F
    omega
  unfold String.utf8EncodeChar at hb
  simp only [apply_ite (b ∈ ·), List.mem_cons, List.not_mem_nil, or_false, if_neg hc] at hb
  split at hb
  · rcases hb with rfl | rfl
    all_goals
      rw [UInt8.toNat_ofNat']
      omega
  · split at hb
    · rcases hb with rfl | rfl | rfl
      all_goals
        rw [UInt8.toNat_ofNat']
        omega
    · rcases hb with rfl | rfl | rfl | rfl
      all_goals
        rw [UInt8.toNat_ofNat']
        omega

/-! ### First bytes -/

/-- The first byte of a character, as the character with its code. -/
def shown (c : Char) : Char :=
  Char.ofUInt8 ((String.utf8EncodeChar c).head String.utf8EncodeChar_ne_nil)

theorem shown_of_lt {c : Char} (h : c.toNat < 128) : shown c = c := by
  simp only [shown, utf8EncodeChar_of_lt h, List.head_cons, ofUInt8_ofNat h]

theorem le_shown {c : Char} (h : 128 ≤ c.toNat) : 128 ≤ (shown c).toNat := by
  rw [shown, toNat_ofUInt8]
  exact le_of_mem_utf8EncodeChar h (List.head_mem _)

/-- Only characters of ASCII are in the class. -/
def Narrow (p : Char → Bool) : Prop := ∀ d, 128 ≤ d.toNat → p d = false

theorem Narrow.lt {p : Char → Bool} (hp : Narrow p) {c : Char} (hc : p c = true) :
    c.toNat < 128 := by
  refine Nat.lt_of_not_le fun hle => ?_
  rw [hp c hle] at hc
  cases hc

/-- A test that only characters of ASCII pass can be made at the first byte. -/
theorem apply_shown {α : Type} {f : Char → α} {none : α} (hf : ∀ d, 128 ≤ d.toNat → f d = none)
    (c : Char) : f (shown c) = f c := by
  rcases Nat.lt_or_ge c.toNat 128 with hc | hc
  · rw [shown_of_lt hc]
  · rw [hf c hc, hf _ (le_shown hc)]

theorem shown_eq_iff {c d : Char} (hd : d.toNat < 128) : shown c = d ↔ c = d := by
  have hnot : ∀ e : Char, 128 ≤ e.toNat → (e = d) = False := by
    rintro e he
    refine eq_false ?_
    rintro rfl
    omega
  exact iff_of_eq (apply_shown hnot c)

theorem head?_utf8 (cs : List Char) : (utf8 cs).head?.map Char.ofUInt8 = cs.head?.map shown := by
  cases cs with
  | nil => rfl
  | cons c cs =>
      rw [utf8_cons, List.head?_append,
        List.head?_eq_some_head String.utf8EncodeChar_ne_nil]
      rfl

/-- The byte at an offset, as the character with its code. There is none at the end. -/
def byteAt (cs : List Char) (pos : Nat) : Option Char := (utf8 cs)[pos]?.map Char.ofUInt8

theorem byteAt_append (before rest : List Char) :
    byteAt (before ++ rest) (byteLength before) = rest.head?.map shown := by
  rw [byteAt, ← List.head?_drop, drop_utf8, head?_utf8]

/-- Bytes of ASCII stand in front where their characters do. -/
theorem prefix_utf8_iff {w : List Char} (hw : ∀ d ∈ w, d.toNat < 128) (cs : List Char) :
    w <+: (utf8 cs).map Char.ofUInt8 ↔ w <+: cs := by
  induction w generalizing cs with
  | nil => simp
  | cons d w ih =>
      have hd := hw d List.mem_cons_self
      cases cs with
      | nil => simp [utf8]
      | cons c cs =>
          rcases Nat.lt_or_ge c.toNat 128 with hc | hc
          · rw [utf8_cons, utf8EncodeChar_of_lt hc, List.singleton_append, List.map_cons,
              ofUInt8_ofNat hc, List.cons_prefix_cons, List.cons_prefix_cons,
              ih fun e he => hw e (List.mem_cons_of_mem _ he)]
          · have hne : d ≠ c := by
              rintro rfl
              omega
            have hfront : ¬d :: w <+: (utf8 (c :: cs)).map Char.ofUInt8 := by
              rintro ⟨t, ht⟩
              have hhead := head?_utf8 (c :: cs)
              rw [← List.head?_map, ← ht] at hhead
              have hshown : d = shown c := Option.some.inj hhead
              have hle := le_shown hc
              rw [← hshown] at hle
              omega
            simp [hfront, hne]

/-- The bytes of a byte order mark are those of no other character. -/
theorem prefix_utf8_byteOrderMark_iff (cs : List Char) :
    ['\u00EF', '\u00BB', '\u00BF'] <+: (utf8 cs).map Char.ofUInt8 ↔ [byteOrderMark] <+: cs := by
  cases cs with
  | nil => simp [utf8]
  | cons c cs =>
      rw [List.cons_prefix_cons, and_iff_left List.nil_prefix]
      constructor
      · intro h
        have hcodes := h.map Char.toNat
        have hc : c.val.toNat = c.toNat := rfl
        simp only [List.map_map, Function.comp_def, toNat_ofUInt8, utf8_cons,
          String.utf8EncodeChar, hc] at hcodes
        rw [Char.ext_iff, ← UInt32.toNat_inj]
        show 0xFEFF = c.toNat
        -- The codes settle how many bytes there are, and then the character.
        repeat' split at hcodes
        all_goals
          simp only [Char.reduceToNat, List.map_cons, List.map_nil, List.cons_append,
            List.nil_append, List.cons_prefix_cons, UInt8.toNat_ofNat'] at hcodes
          omega
      · rintro rfl
        exact ⟨(utf8 cs).map Char.ofUInt8, rfl⟩

end GraphQL.Text
