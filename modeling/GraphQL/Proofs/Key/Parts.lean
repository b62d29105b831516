import GraphQL.Proofs.Key.Pieces
import GraphQL.Proofs.Lexer.Fronts

/-!
What equal keys have in common. Regular texts with equal keys have the same
lexemes but for separators in strings, and parts of them that stand at the same
place have equal keys again.
-/

namespace GraphQL

open Lexer

/-! ### Lexemes of a key -/

namespace Lexeme

/-- A lexeme as a key shows it. -/
def squeezed (l : Lexeme) : Lexeme := ⟨l.kind, String.ofList (Key.tidyText l.kind l.text.toList)⟩

/-- The texts of the strings among some lexemes, in order. -/
def stringTexts (ls : List Lexeme) : List String :=
  (ls.filter (·.kind.isQuoted)).map Lexeme.text

/-- Lexemes that a key shows alike differ in strings at most. -/
theorem eq_of_squeezed_eq {ls ms : List Lexeme} (h : ls.map squeezed = ms.map squeezed)
    (htexts : stringTexts ls = stringTexts ms) : ls = ms := by
  induction ls generalizing ms with
  | nil => exact (List.map_eq_nil_iff.1 h.symm).symm
  | cons l ls ih =>
      obtain ⟨m, ms, rfl, hlm, hrest⟩ := List.map_eq_cons_iff.1 h.symm
      obtain ⟨kind, text⟩ := l
      obtain ⟨kind', text'⟩ := m
      obtain ⟨rfl, htext⟩ := Lexeme.mk.inj hlm
      cases hq : kind'.isQuoted with
      | true =>
          simp only [stringTexts, List.filter_cons, hq, if_true, List.map_cons] at htexts
          obtain ⟨rfl, hrest'⟩ := List.cons.inj htexts
          rw [ih hrest.symm hrest']
      | false =>
          simp only [stringTexts, List.filter_cons, hq] at htexts
          rw [Key.tidyText, Key.tidyText, hq] at htext
          have htext' : text' = text := String.toList_injective (String.ofList_injective htext)
          rw [ih hrest.symm htexts, htext']

end Lexeme

namespace Key

/-! ### Parts of a key -/

theorem ne_endOfInput_of_isProper {ps : List Piece} (h : ∀ p ∈ ps, p.kind.isProper = true) :
    ∀ p ∈ ps, p.kind ≠ .endOfInput :=
  fun p hp => (TokenKind.ne_of_isProper (h p hp)).1

/-- Is a space due behind some pieces? -/
def dueAfter (due : Bool) : List Piece → Bool
  | [] => due
  | p :: ps => dueAfter p.kind.isBrace ps

theorem tidy_append {ps : List Piece} (h : ∀ p ∈ ps, p.kind ≠ .endOfInput) (due : Bool)
    (qs : List Piece) : tidy due (ps ++ qs) = tidy due ps ++ tidy (dueAfter due ps) qs := by
  induction ps generalizing due with
  | nil => rfl
  | cons p ps ih =>
      obtain ⟨hp, hps⟩ := List.forall_mem_cons.1 h
      rw [List.cons_append, tidy_cons hp, tidy_cons hp, ih hps]
      rfl

theorem length_tidy {ps : List Piece} (h : ∀ p ∈ ps, p.kind ≠ .endOfInput) (due : Bool) :
    (tidy due ps).length = ps.length := by
  induction ps generalizing due with
  | nil => rfl
  | cons p ps ih =>
      obtain ⟨hp, hps⟩ := List.forall_mem_cons.1 h
      rw [tidy_cons hp]
      exact congrArg Nat.succ (ih hps _)

/-- The gap in front and the space due in front of it make no difference to what
follows. -/
theorem unlead_tidy (ps : List Piece) (due due' : Bool) :
    unlead (tidy due (unlead ps)) = unlead (tidy due' ps) := by
  cases ps with
  | nil => rfl
  | cons p ps =>
      rw [unlead, tidy, tidy]
      split
      · rfl
      · rfl

/-- The lexemes under the pieces of a key. -/
theorem map_lexeme_tidy {ps : List Piece} (h : ∀ p ∈ ps, p.kind ≠ .endOfInput) (due : Bool) :
    (tidy due ps).map Piece.lexeme = (ps.map Piece.lexeme).map Lexeme.squeezed := by
  induction ps generalizing due with
  | nil => rfl
  | cons p ps ih =>
      obtain ⟨hp, hps⟩ := List.forall_mem_cons.1 h
      rw [tidy_cons hp, List.map_cons, ih hps]
      simp [Piece.lexeme, Lexeme.squeezed]

theorem regular_of_mem_pieces {cs : List Char} (hreg : ∀ l ∈ Lexer.lexemes cs, l.Regular) :
    ∀ p ∈ pieces cs, p.lexeme.Regular := by
  obtain ⟨ps, gap, hpieces, -⟩ := pieces_split cs
  rw [lexemes_of_split hpieces] at hreg
  rw [hpieces]
  refine List.forall_mem_append.2 ⟨fun p hp => ?_, List.forall_mem_singleton.2 trivial⟩
  exact hreg _ (List.mem_map_of_mem hp)

/-- A key is read as the lexemes of its text, with strings of single spaces. -/
theorem lexemes_ofText {cs : List Char} (hreg : ∀ l ∈ Lexer.lexemes cs, l.Regular) :
    Lexer.lexemes (ofText cs) = (Lexer.lexemes cs).map Lexeme.squeezed := by
  obtain ⟨ps, gap, hpieces, hps⟩ := pieces_split cs
  have hend : ∀ due, tidy due [⟨gap, .endOfInput, []⟩] = [endPiece] := fun _ => rfl
  rw [lexemes_of_split hpieces, Lexer.lexemes, List.map_dropLast,
    pieces_ofText (regular_of_mem_pieces hreg), map_lexeme_unlead, hpieces, tidy_append hps,
    hend, List.map_append, map_lexeme_tidy hps]
  exact List.dropLast_concat

/-- The key of a part of a text is a part of what is written for the text. -/
theorem ofText_part {cs : List Char} {front part post : List Piece}
    (h : pieces cs = front ++ part ++ post) (hne : part ≠ [])
    (hproper : ∀ p ∈ part, p.kind.isProper = true) (hreg : ∀ p ∈ part, p.lexeme.Regular)
    (due : Bool) : ofText (textOf (unlead part)) = textOf (unlead (tidy due part)) := by
  have hkinds := ne_endOfInput_of_isProper hproper
  have hpieces := pieces_run (h.trans (List.append_assoc ..)) hkinds
  have hlexemes : Lexer.lexemes (textOf (unlead part)) = part.map Piece.lexeme := by
    rw [lexemes_of_split hpieces, map_lexeme_unlead]
  have hregular : ∀ l ∈ Lexer.lexemes (textOf (unlead part)), l.Regular := by
    rw [hlexemes]
    exact List.forall_mem_map.2 hreg
  have htidy : tidy due part ≠ [] := by
    rwa [← List.length_pos_iff, length_tidy hkinds, List.length_pos_iff]
  have hend : tidy (dueAfter due part) [endPiece] = [endPiece] := rfl
  -- The end of the part is written as nothing at all.
  rw [← textOf_pieces (ofText _), pieces_ofText (regular_of_mem_pieces hregular), hpieces,
    ← unlead_append hne, unlead_tidy _ false due, tidy_append hkinds, hend, unlead_append htidy,
    textOf_append]
  exact List.append_nil _

/-! ### Texts with one key -/

/-- A text that has no irregular lexeme. -/
def Regular (s : String) : Prop := ∀ l ∈ GraphQL.lexemes s, l.Regular

instance (s : String) : Decidable (Regular s) :=
  inferInstanceAs (Decidable (∀ l ∈ GraphQL.lexemes s, l.Regular))

/-- A text whose block strings are regular. -/
def BlockRegular (s : String) : Prop := ∀ l ∈ GraphQL.lexemes s, l.BlockRegular

instance (s : String) : Decidable (BlockRegular s) :=
  inferInstanceAs (Decidable (∀ l ∈ GraphQL.lexemes s, l.BlockRegular))

/-- Texts with the same lexemes but for separators in strings. -/
def SameLexemes (s t : String) : Prop :=
  (GraphQL.lexemes s).map Lexeme.squeezed = (GraphQL.lexemes t).map Lexeme.squeezed

instance (s t : String) : Decidable (SameLexemes s t) :=
  inferInstanceAs (Decidable (_ = _))

/-- Texts in whose strings the same is written. -/
def SameStrings (s t : String) : Prop :=
  Lexeme.stringTexts (GraphQL.lexemes s) = Lexeme.stringTexts (GraphQL.lexemes t)

instance (s t : String) : Decidable (SameStrings s t) :=
  inferInstanceAs (Decidable (_ = _))

theorem ofText_eq_of_ofSource_eq {s t : String} (h : ofSource s = ofSource t) :
    ofText s.toList = ofText t.toList := String.ofList_injective h

variable {cs cs' : List Char}

theorem tidy_eq_of_ofText_eq (hreg : ∀ l ∈ Lexer.lexemes cs, l.Regular)
    (hreg' : ∀ l ∈ Lexer.lexemes cs', l.Regular) (hkey : ofText cs = ofText cs') :
    unlead (tidy false (pieces cs)) = unlead (tidy false (pieces cs')) := by
  rw [← pieces_ofText (regular_of_mem_pieces hreg), hkey,
    pieces_ofText (regular_of_mem_pieces hreg')]

/-- Regular texts with one key have the same lexemes but for separators in strings. -/
theorem map_squeezed_eq {s t : String} (hs : Regular s) (ht : Regular t)
    (hkey : ofSource s = ofSource t) :
    (GraphQL.lexemes s).map Lexeme.squeezed = (GraphQL.lexemes t).map Lexeme.squeezed := by
  rw [GraphQL.lexemes, GraphQL.lexemes, ← lexemes_ofText hs, ofText_eq_of_ofSource_eq hkey,
    lexemes_ofText ht]

/-- With the same strings, they have the same lexemes. -/
theorem lexemes_eq {s t : String} (hs : Regular s) (ht : Regular t)
    (hkey : ofSource s = ofSource t) (hstrings : SameStrings s t) :
    GraphQL.lexemes s = GraphQL.lexemes t :=
  Lexeme.eq_of_squeezed_eq (map_squeezed_eq hs ht hkey) hstrings

theorem unlead_middle {front front' part part' back back' : List Piece}
    (hfront : front.length = front'.length) (hpart : part.length = part'.length)
    (h : unlead (front ++ part ++ back) = unlead (front' ++ part' ++ back')) :
    unlead part = unlead part' := by
  cases front with
  | nil =>
      rw [List.length_nil] at hfront
      rw [List.eq_nil_of_length_eq_zero hfront.symm, List.nil_append, List.nil_append] at h
      cases part with
      | nil => rw [List.eq_nil_of_length_eq_zero hpart.symm]
      | cons p ps =>
          obtain ⟨p', ps', rfl⟩ := List.exists_cons_of_length_eq_add_one hpart.symm
          obtain ⟨hp, hps⟩ := List.cons.inj h
          have htail := (List.append_inj hps (Nat.succ.inj hpart)).1
          rw [unlead, unlead, hp, htail]
  | cons p ps =>
      obtain ⟨p', ps', rfl⟩ := List.exists_cons_of_length_eq_add_one hfront.symm
      have hps : ps ++ part ++ back = ps' ++ part' ++ back' := (List.cons.inj h).2
      rw [List.append_assoc, List.append_assoc] at hps
      have hback := (List.append_inj hps (Nat.succ.inj hfront)).2
      rw [(List.append_inj hback hpart).1]

/-- Where two keys are equal, so are those of parts that stand at the same place. -/
theorem ofText_part_eq {front front' part part' post post' : List Piece}
    (hreg : ∀ l ∈ Lexer.lexemes cs, l.Regular) (hreg' : ∀ l ∈ Lexer.lexemes cs', l.Regular)
    (hkey : ofText cs = ofText cs') (h : pieces cs = front ++ part ++ post)
    (h' : pieces cs' = front' ++ part' ++ post') (hne : part ≠ [])
    (hproper : ∀ p ∈ front ++ part, p.kind.isProper = true)
    (hproper' : ∀ p ∈ front' ++ part', p.kind.isProper = true)
    (hfront : front.length = front'.length) (hpart : part.length = part'.length) :
    ofText (textOf (unlead part)) = ofText (textOf (unlead part')) := by
  -- What is written for the whole texts is written for their parts, one after the other.
  have hkinds := ne_endOfInput_of_isProper hproper
  have hkinds' := ne_endOfInput_of_isProper hproper'
  obtain ⟨hf, hp⟩ := List.forall_mem_append.1 hkinds
  obtain ⟨hf', hp'⟩ := List.forall_mem_append.1 hkinds'
  have htidy := tidy_eq_of_ofText_eq hreg hreg' hkey
  rw [h, h', tidy_append hkinds, tidy_append hf, tidy_append hkinds', tidy_append hf'] at htidy
  have hmiddle := unlead_middle
    (by rw [length_tidy hf, length_tidy hf', hfront])
    (by rw [length_tidy hp, length_tidy hp', hpart]) htidy
  have hne' : part' ≠ [] := by
    rwa [← List.length_pos_iff, ← hpart, List.length_pos_iff]
  have hmem : ∀ p ∈ part, p ∈ pieces cs := fun p hp => by
    rw [h]
    exact List.mem_append_left _ (List.mem_append_right _ hp)
  have hmem' : ∀ p ∈ part', p ∈ pieces cs' := fun p hp => by
    rw [h']
    exact List.mem_append_left _ (List.mem_append_right _ hp)
  rw [ofText_part h hne (List.forall_mem_append.1 hproper).2
      (fun p hp => regular_of_mem_pieces hreg p (hmem p hp)), hmiddle,
    ofText_part h' hne' (List.forall_mem_append.1 hproper').2
      fun p hp => regular_of_mem_pieces hreg' p (hmem' p hp)]

end Key
end GraphQL
