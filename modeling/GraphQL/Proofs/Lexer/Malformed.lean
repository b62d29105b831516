import GraphQL.Proofs.Lexer.Slices

/-!
What the scanner makes of a text that is not well formed. It gives a single
character, or a number with all that touches it. As nothing that is ignored starts
a lexeme, such a character is white space of the kind that is not ignored, or no
separator at all.
-/

namespace GraphQL.Lexer

/-! ### Numbers with what touches them -/

theorem joins_of_mem_takeWhile {p : Char → Bool} (hp : ∀ c, p c = true → joins c = true)
    (cs : List Char) : ∀ c ∈ cs.takeWhile p, joins c = true :=
  fun c hc => hp c (List.all_eq_true.1 List.all_takeWhile c hc)

namespace Part

/-- Whatever the part has taken can touch a number. -/
def Joined (p : Part) : Prop := ∀ c ∈ p.taken, joins c = true

end Part

theorem joined_digits {taken : List Char} (h : ∀ c ∈ taken, joins c = true) (cs : List Char) :
    (digits taken cs).Joined :=
  List.forall_mem_append.2 ⟨h, joins_of_mem_takeWhile (fun _ => joins_of_isDigit) cs⟩

theorem joined_wholePart (cs : List Char) : (wholePart cs).Joined := by
  simp only [wholePart]
  split
  · exact joins_of_mem_takeWhile (fun _ => joins_of_isDigit) cs
  · exact List.forall_mem_nil _

theorem joined_fraction (cs : List Char) : (fraction cs).Joined := by
  unfold fraction
  split
  · exact joined_digits (List.forall_mem_singleton.2 rfl) _
  · exact List.forall_mem_nil _

theorem joined_exponent (cs : List Char) : (exponent cs).Joined := by
  have hletter : ∀ c, c = 'e' ∨ c = 'E' → joins c = true := by
    rintro c (rfl | rfl) <;> decide
  have hsign : ∀ s, s = '+' ∨ s = '-' → joins s = true := by
    rintro s (rfl | rfl) <;> decide
  unfold exponent
  split
  · split
    · rename_i hc
      split
      · split
        · rename_i hs
          exact joined_digits (by simp [hletter _ hc, hsign _ hs]) _
        · exact joined_digits (by simp [hletter _ hc]) _
      · exact joined_digits (by simp [hletter _ hc]) _
    · exact List.forall_mem_nil _
  · exact List.forall_mem_nil _

theorem joined_unsignedParts {sign : List Char} (h : ∀ c ∈ sign, joins c = true)
    (cs : List Char) : (unsignedParts sign cs).Joined := by
  have hw := List.forall_mem_append.2 ⟨h, joined_wholePart cs⟩
  have hf := List.forall_mem_append.2 ⟨hw, joined_fraction (wholePart cs).rest⟩
  have he := List.forall_mem_append.2 ⟨hf, joined_exponent (fraction (wholePart cs).rest).rest⟩
  simp only [unsignedParts]
  split
  · exact hw
  · split
    · exact hf
    · exact he

theorem joined_numberParts (cs : List Char) : (numberParts cs).Joined := by
  rcases head_cases '-' cs with hcs | ⟨ds, rfl⟩
  · rw [numberParts_of_head hcs]
    exact joined_unsignedParts (List.forall_mem_nil _) cs
  · rw [numberParts_minus]
    exact joined_unsignedParts (List.forall_mem_singleton.2 rfl) ds

theorem joins_of_mem_number (cs : List Char) : ∀ c ∈ (number cs).text, joins c = true := by
  have hparts := joined_numberParts cs
  simp only [number]
  split
  · exact hparts
  · exact List.forall_mem_append.2
      ⟨hparts, joins_of_mem_takeWhile (fun _ => joins_of_isNumberTail) _⟩

/-! ### Errors -/

/-- An error is a malformed number or a single character. -/
theorem scan_invalid {c : Char} {r : List Char} (h : (scan c r).kind = .invalid) :
    (scan c r).text = [c] ∨ ∀ d ∈ (scan c r).text, joins d = true := by
  revert h
  unfold scan
  split
  · exact nofun
  · split
    · split
      · exact nofun
      · exact fun _ => .inl rfl
    · split
      · -- What starts with a quote is a string, finished or not.
        split
        · intro h
          rcases blockString_kind _ with hk | hk
          · exact absurd (hk.symm.trans h) (by decide)
          · exact absurd (hk.symm.trans h) (by decide)
        · intro h
          rcases string_kind r with hk | hk
          · exact absurd (hk.symm.trans h) (by decide)
          · exact absurd (hk.symm.trans h) (by decide)
      · split
        · exact fun _ => .inr (joins_of_mem_number _)
        · split
          · intro h
            simp only [name, TokenKind.ofName] at h
            split at h <;> cases h
          · exact fun _ => .inl rfl

/-- What is ignored starts no lexeme. -/
theorem isIgnored_of_splitGap {cs gap r : List Char} {c : Char}
    (h : splitGap false cs = (gap, c :: r)) : isIgnored c = false := by
  have hstart := splitGap_at_lexeme h r
  rw [splitGap] at hstart
  split at hstart
  · cases hstart
  · exact Bool.eq_false_iff.2 ‹_›

/-- Every lexeme of a text was scanned in it, at a character that starts no gap. -/
theorem started_of_mem_lexemes {cs : List Char} {l : Lexeme} (h : l ∈ lexemes cs) :
    ∃ c r, c :: r <:+ cs ∧ (∀ r', splitGap false (c :: r') = ([], c :: r')) ∧
      l = ⟨(scan c r).kind, String.ofList (scan c r).text⟩ := by
  induction cs using pieces_induction with
  | ending cs gap hgap =>
      rw [lexemes, pieces_of_end hgap] at h
      cases h
  | piece cs gap c r hgap ih =>
      have hcs : c :: r <:+ cs := by
        have hwhole := splitGap_append false cs
        rw [hgap] at hwhole
        exact ⟨gap, hwhole⟩
      rw [lexemes, pieces_of_lexeme hgap, List.dropLast_cons_of_ne_nil (pieces_ne_nil _)] at h
      rcases List.mem_cons.1 h with rfl | h
      · exact ⟨c, r, hcs, splitGap_at_lexeme hgap, rfl⟩
      · obtain ⟨d, r', hsuffix, hd⟩ := ih h
        have hrest : (scan c r).rest <:+ c :: r := ⟨(scan c r).text, scan_whole c r⟩
        exact ⟨d, r', hsuffix.trans (hrest.trans hcs), hd⟩

/-- Every lexeme of a text was scanned in it, where nothing is ignored. -/
theorem unignored_of_mem_lexemes {cs : List Char} {l : Lexeme} (h : l ∈ lexemes cs) :
    ∃ c r, c :: r <:+ cs ∧ isIgnored c = false ∧
      l = ⟨(scan c r).kind, String.ofList (scan c r).text⟩ := by
  obtain ⟨c, r, hsuffix, hstart, hl⟩ := started_of_mem_lexemes h
  exact ⟨c, r, hsuffix, isIgnored_of_splitGap (hstart r), hl⟩

end GraphQL.Lexer
