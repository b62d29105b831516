import GraphQL.Proofs.Key.Parts

/-!
The front of a key. As far as the lexemes of a text are regular, its key has their pieces in
front of whatever the rest of the text is written as. So two texts with one key start with
the same lexemes, up to separators in strings.
-/

namespace GraphQL.Key

open Lexer

section
variable {cs : List Char} {front back : List Piece}

theorem pieces_after_front (h : pieces cs = front ++ back)
    (hfront : ∀ p ∈ front, p.kind ≠ .endOfInput) (hreg : ∀ p ∈ front, p.lexeme.Regular)
    (due : Bool) : ∃ rest, pieces (after due cs) = tidy due front ++ rest := by
  induction front generalizing cs due with
  | nil => exact ⟨_, rfl⟩
  | cons p front ih =>
      obtain ⟨hp, hends⟩ := List.forall_mem_cons.1 hfront
      obtain ⟨hregular, hregulars⟩ := List.forall_mem_cons.1 hreg
      obtain ⟨gap, c, r, hgap, rfl, htail⟩ := pieces_eq_cons h (.inl hp)
      obtain ⟨rest, hrest⟩ := ih htail hends hregulars (scan c r).kind.isBrace
      rw [pieces_after_lexeme hgap hregular, hrest, tidy_cons hp]
      exact ⟨rest, rfl⟩

theorem pieces_ofText_front (h : pieces cs = front ++ back) (hne : front ≠ [])
    (hfront : ∀ p ∈ front, p.kind ≠ .endOfInput) (hreg : ∀ p ∈ front, p.lexeme.Regular) :
    ∃ rest, pieces (ofText cs) = unlead (tidy false front) ++ rest := by
  obtain ⟨p, front, rfl⟩ := List.exists_cons_of_ne_nil hne
  obtain ⟨hp, hends⟩ := List.forall_mem_cons.1 hfront
  obtain ⟨hregular, hregulars⟩ := List.forall_mem_cons.1 hreg
  obtain ⟨gap, c, r, hgap, rfl, htail⟩ := pieces_eq_cons h (.inl hp)
  obtain ⟨rest, hrest⟩ :=
    pieces_after_front htail hends hregulars (scan c r).kind.isBrace
  rw [pieces_ofText_lexeme hgap hregular, hrest, tidy_cons hp]
  exact ⟨rest, rfl⟩

end

/-- The lexemes at the front of a key are those at the front of its source. -/
theorem exists_front {s : String} {front back : List Lexeme} (h : lexemes s = front ++ back)
    (hreg : ∀ l ∈ front, l.Regular) : ∃ ps rest, pieces (ofText s.toList) = ps ++ rest ∧
      ps.length = front.length ∧ ps.map Piece.lexeme = front.map Lexeme.squeezed := by
  obtain ⟨all, gap, hpieces, hkinds⟩ := pieces_split s.toList
  have hall : all.map Piece.lexeme = front ++ back := (lexemes_of_split hpieces).symm.trans h
  obtain ⟨ps, rest, rfl, rfl, -⟩ := List.map_eq_append_iff.1 hall
  have hends : ∀ p ∈ ps, p.kind ≠ .endOfInput := fun p hp =>
    hkinds p (List.mem_append_left _ hp)
  rw [List.append_assoc] at hpieces
  have hmap : (unlead (tidy false ps)).map Piece.lexeme =
      (ps.map Piece.lexeme).map Lexeme.squeezed := by
    rw [map_lexeme_unlead, map_lexeme_tidy hends, List.map_map]
  by_cases hne : ps = []
  · rw [hne]
    exact ⟨[], _, rfl, rfl, rfl⟩
  · obtain ⟨rest', hkey⟩ := pieces_ofText_front hpieces hne hends fun p hp =>
      hreg _ (List.mem_map_of_mem hp)
    refine ⟨_, rest', hkey, ?_, hmap⟩
    rw [← List.length_map, hmap, List.length_map]

/-- Two texts with one key start with the same lexemes, up to separators in strings, as far
as these are regular in both. -/
theorem squeezed_front_eq {s t : String} {front front' back back' : List Lexeme}
    (hs : lexemes s = front ++ back) (ht : lexemes t = front' ++ back')
    (hlength : front.length = front'.length) (hreg : ∀ l ∈ front, l.Regular)
    (hreg' : ∀ l ∈ front', l.Regular) (hkey : ofSource s = ofSource t) :
    front.map Lexeme.squeezed = front'.map Lexeme.squeezed := by
  obtain ⟨ps, rest, hpieces, hps, hmap⟩ := exists_front hs hreg
  obtain ⟨qs, rest', hpieces', hqs, hmap'⟩ := exists_front ht hreg'
  rw [ofText_eq_of_ofSource_eq hkey, hpieces'] at hpieces
  have hsame : qs = ps := (List.append_inj hpieces (by omega)).1
  rw [← hmap, ← hmap', hsame]

end GraphQL.Key
