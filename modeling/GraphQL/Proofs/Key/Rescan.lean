import GraphQL.Proofs.Key.Marks
import GraphQL.Proofs.Lexer.BlockStrings

/-!
What is written for a lexeme is a lexeme of the same kind again. Strings have one
space for every run of separators then; all other lexemes are as they were, since
no separator can stand in them.
-/

namespace GraphQL.Key

open Lexer Text

/-! ### Texts with single spaces -/

/-- A text with one space for every run of separators between two characters. -/
def squeeze (due : Bool) (text : List Char) : List Char := writeAfter due (text.map markOf)

theorem squeeze_separator {c : Char} (h : isSeparator c = true) (due : Bool) (cs : List Char) :
    squeeze due (c :: cs) = squeeze true cs := by
  rw [squeeze, List.map_cons, markOf_separator h]
  rfl

theorem squeeze_plain {c : Char} (h : isSeparator c = false) (due : Bool) (cs : List Char) :
    squeeze due (c :: cs) = space due ++ c :: squeeze false cs := by
  rw [squeeze, List.map_cons, markOf_plain h, writeAfter_keep]
  rfl

/-- Separators keep what they part from touching. -/
theorem prefix_of_prefix_squeeze {p cs : List Char} (hp : ∀ c ∈ p, c ≠ ' ')
    (h : p <+: squeeze false cs) : p <+: cs := by
  induction cs generalizing p with
  | nil => exact h
  | cons c cs ih =>
      cases p with
      | nil => exact List.nil_prefix
      | cons d p =>
          cases hc : isSeparator c with
          | true =>
              rw [squeeze_separator hc] at h
              -- A space stands here now, and there is none in the prefix.
              rcases writeAfter_true (cs.map markOf) with hw | ⟨w, hw⟩
              · rw [squeeze, hw, List.prefix_nil] at h
                cases h
              · rw [squeeze, hw, List.cons_prefix_cons] at h
                exact absurd h.1 (hp d List.mem_cons_self)
          | false =>
              rw [squeeze_plain hc] at h
              obtain ⟨rfl, htail⟩ := List.cons_prefix_cons.1 h
              exact List.cons_prefix_cons.2
                ⟨rfl, ih (fun e he => hp e (List.mem_cons_of_mem _ he)) htail⟩

/-! ### Strings -/

theorem string_space (due : Bool) (cs : List Char) :
    string (space due ++ cs) = (string cs).prepend (space due) := by
  cases due with
  | true => exact string_plain (by decide) (by decide) (by decide) cs
  | false => rfl

/-- A string with single spaces is a string, whatever stands behind it. -/
theorem string_squeeze {cs x r : List Char} (h : string cs = ⟨.string, x, r⟩) (due : Bool)
    (r' : List Char) : string (squeeze due x ++ r') = ⟨.string, squeeze due x, r'⟩ := by
  obtain rfl := eq_append_of_string h
  induction x, h using string_induction generalizing due with
  | quote =>
      rw [squeeze_plain (by decide), List.append_assoc, string_space]
      exact congrArg (Scan.prepend (space due)) (string_quote r')
  | escape c x _ _ ih =>
      rw [squeeze_plain (by decide), List.append_assoc, string_space]
      cases hc : isSeparator c with
      | true =>
          -- The backslash takes the space now.
          rw [squeeze_separator hc]
          have htail := ih true
          rcases writeAfter_true (x.map markOf) with hw | ⟨w, hw⟩
          · rw [squeeze, hw] at htail
            obtain ⟨z, -, hz⟩ := enclosed_of_string htail
            exact absurd hz.symm (by simp)
          · rw [squeeze, hw] at htail ⊢
            have hspace := (string_space true (w ++ r')).symm.trans htail
            obtain ⟨z, hz, hrest⟩ := Scan.prepend_eq hspace
            cases hz
            rw [List.cons_append, List.cons_append, string_escape, hrest]
            rfl
      | false =>
          rw [squeeze_plain hc, space_false, List.nil_append, List.cons_append, List.cons_append,
            string_escape, ih false]
          rfl
  | plain c x hb hq hl _ _ ih =>
      cases hc : isSeparator c with
      | true =>
          rw [squeeze_separator hc]
          exact ih true
      | false =>
          rw [squeeze_plain hc, List.append_assoc, string_space, List.cons_append,
            string_plain hb hq hl, ih false]
          rfl

theorem blockString_space (due : Bool) (cs : List Char) :
    blockString (space due ++ cs) = (blockString cs).prepend (space due) := by
  cases due with
  | true =>
      refine blockString_plain ?_ ?_
      · rintro ⟨t, ht⟩
        cases ht
      · rintro ⟨t, ht⟩
        cases ht
  | false => rfl

/-- No characters come together that were not together before, unless the text is
too short for them. -/
theorem not_prefix_squeeze {p y r : List Char} {c : Char} (hc : isSeparator c = false)
    (hnot : ¬p <+: c :: (y ++ r)) (hp : ∀ d ∈ p, d ≠ ' ')
    (hlength : p.length ≤ (squeeze false y).length + 1) (r' : List Char) :
    ¬p <+: c :: (squeeze false y ++ r') := by
  intro hpre
  have hy : p <+: squeeze false (c :: y) := by
    rw [squeeze_plain hc]
    exact List.prefix_of_prefix_length_le hpre ⟨r', rfl⟩ hlength
  exact hnot ((prefix_of_prefix_squeeze hp hy).trans ⟨r, rfl⟩)

/-- A block string with single spaces is a block string, whatever stands behind it. -/
theorem blockString_squeeze {cs x r : List Char} (h : blockString cs = ⟨.blockString, x, r⟩)
    (due : Bool) (r' : List Char) :
    blockString (squeeze due x ++ r') = ⟨.blockString, squeeze due x, r'⟩ := by
  obtain rfl := eq_append_of_blockString h
  induction x, h using blockString_induction generalizing due with
  | close =>
      rw [squeeze_plain (by decide), List.append_assoc, blockString_space]
      exact congrArg (Scan.prepend (space due)) (blockString_close r')
  | escape x _ _ ih =>
      have hfront : squeeze due ('\\' :: '"' :: '"' :: '"' :: x) =
          space due ++ ['\\', '"', '"', '"'] ++ squeeze false x := by
        rw [squeeze_plain (by decide), List.append_assoc]
        rfl
      rw [hfront, List.append_assoc, List.append_assoc, blockString_space]
      show (blockString ('\\' :: '"' :: '"' :: '"' :: (squeeze false x ++ r'))).prepend _ = _
      rw [blockString_escape, ih false]
      simp [Scan.prepend]
  | plain c x hclose hescape _ _ ih =>
      cases hc : isSeparator c with
      | true =>
          rw [squeeze_separator hc]
          exact ih true
      | false =>
          have htail := ih false
          have hlength := blockString_length htail
          -- A quote that closes nothing, or a backslash that escapes nothing, still does not.
          have hquotes := not_prefix_squeeze hc hclose (by simp) (Nat.le_succ_of_le hlength) r'
          have hquotes' := not_prefix_squeeze hc hescape (by simp) (Nat.succ_le_succ hlength) r'
          rw [squeeze_plain hc, List.append_assoc, blockString_space, List.cons_append,
            blockString_plain hquotes hquotes', htail]
          rfl

end GraphQL.Key
