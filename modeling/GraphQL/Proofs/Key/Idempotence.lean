import GraphQL.Proofs.Key.Pieces

/-!
Keys of keys. A key is its own key, unless a line ends in a quoted string of the text:
the reader of marks takes such a string for closed, but there is no line end in the
key to tell it so again. As there is none in any key, a key of a key is its own key
whatever the text.
-/

namespace GraphQL.Key

open Lexer Text

/-- Does no line end in a quoted string, as the reader of marks takes quotes from here? -/
def unbroken : Mode → List Char → Bool
  | _, [] => true
  | .code, '"' :: '"' :: '"' :: cs => unbroken .block cs
  | .code, c :: cs => unbroken (if c = '"' then .string else if c = '#' then .comment else .code) cs
  | .comment, c :: cs => unbroken (if isLineEnd c then .code else .comment) cs
  | .string, '\\' :: c :: cs => !isLineEnd c && unbroken .string cs
  | .string, c :: cs => !isLineEnd c && unbroken (if c = '"' then .code else .string) cs
  | .block, '"' :: '"' :: '"' :: cs => unbroken .code cs
  | .block, '\\' :: '"' :: cs => unbroken .block cs
  | .block, _ :: cs => unbroken .block cs

/-! ### What is written and read again -/

/-- A text that is written as it stands. -/
def Settled (mode : Mode) (w : List Char) : Prop := writeAfter false (marks mode w) = w

/-- The mode in which a written text is read again: comments have not been written. -/
def again : Mode → Mode
  | .comment => .code
  | mode => mode

theorem again_of_ne {mode : Mode} (h : mode ≠ .comment) : again mode = mode := by
  cases mode with
  | comment => exact absurd rfl h
  | _ => rfl

theorem marks_space {mode : Mode} (h : mode ≠ .comment) (cs : List Char) :
    marks mode (' ' :: cs) = .gap :: marks mode cs := by
  cases mode with
  | comment => exact absurd rfl h
  | code => exact marks_separator (by decide) cs
  | string => exact marks_string_plain (by decide) (by decide) (by decide) cs
  | block =>
      refine marks_block_plain (by decide) ?_
      rintro ⟨t, ht⟩
      cases ht

theorem eq_nil_of_prefix_gap {p : List Char} {ms : List Mark} (hp : ' ' ∉ p)
    (h : p <+: writeAfter false (.gap :: ms)) : p = [] := by
  rcases writeAfter_true ms with hw | ⟨w, hw⟩
  · rw [writeAfter_gap, hw] at h
    exact List.prefix_nil.1 h
  · rw [writeAfter_gap, hw] at h
    cases p with
    | nil => rfl
    | cons c p =>
        obtain ⟨rfl, -⟩ := List.cons_prefix_cons.1 h
        exact absurd List.mem_cons_self hp

/-- What stands in front of a written text without a space stood in front of the text. -/
def Fronts (cs : List Char) (ms : List Mark) : Prop :=
  ∀ p, ' ' ∉ p → p <+: writeAfter false ms → p <+: cs

theorem Fronts.gap (cs : List Char) (ms : List Mark) : Fronts cs (.gap :: ms) := by
  intro p hp h
  rw [eq_nil_of_prefix_gap hp h]
  exact List.nil_prefix

theorem Fronts.keep {cs : List Char} {ms : List Mark} (h : Fronts cs ms) (c : Char) :
    Fronts (c :: cs) (.keep c :: ms) := by
  intro p hp hpre
  cases p with
  | nil => exact List.nil_prefix
  | cons d p =>
      obtain ⟨rfl, htail⟩ := List.cons_prefix_cons.1 hpre
      exact List.cons_prefix_cons.2 ⟨rfl, h p (fun hmem => hp (List.mem_cons_of_mem _ hmem)) htail⟩

/-- Characters that are kept side by side have stood side by side. -/
theorem fronts_marks {mode : Mode} (hmode : mode ≠ .comment) (cs : List Char) :
    Fronts cs (marks mode cs) := by
  have hnil : Fronts [] [] := fun p _ h => h
  fun_induction marks mode cs with
  | case5 cs _ _ _ ih => exact (((ih (by simp)).keep _).keep _).keep _
  | case21 cs _ _ ih => exact (((ih (by simp)).keep _).keep _).keep _
  | case9 => exact absurd rfl hmode
  | case10 => exact absurd rfl hmode
  | _ => simp_all [Fronts.gap, Fronts.keep]

theorem not_prefix_writeAfter {mode : Mode} {cs p : List Char} (hmode : mode ≠ .comment)
    (hp : ' ' ∉ p) (h : ¬p <+: cs) : ¬p <+: writeAfter false (marks mode cs) :=
  fun hpre => h (fronts_marks hmode cs p hp hpre)

/-! ### Reading again -/

/-- What is written for the text in this mode is settled. -/
def Renews (mode : Mode) (cs : List Char) : Prop :=
  ∀ due, Settled (again mode) (writeAfter due (marks mode cs))

theorem writeAfter_keeps {x : List Char} (hx : x ≠ []) (due : Bool) (ms : List Mark) :
    writeAfter due (x.map .keep ++ ms) = space due ++ (x ++ writeAfter false ms) := by
  induction x generalizing due with
  | nil => exact absurd rfl hx
  | cons c x ih =>
      rw [List.map_cons, List.cons_append, writeAfter_keep]
      cases x with
      | nil => rfl
      | cons d x =>
          rw [ih (by simp) false]
          rfl

/-- Characters that are kept, and a settled text behind them. -/
theorem settled_keeps {mode mode' : Mode} {x w : List Char} (hmode : mode ≠ .comment)
    (hx : x ≠ []) (hread : marks mode (x ++ w) = x.map .keep ++ marks mode' w)
    (hw : Settled mode' w) (due : Bool) : Settled mode (space due ++ (x ++ w)) := by
  have hwritten : ∀ due, writeAfter due (marks mode (x ++ w)) = space due ++ (x ++ w) := by
    intro due
    rw [hread, writeAfter_keeps hx, hw]
  cases due with
  | false => exact hwritten false
  | true =>
      show writeAfter false (marks mode (' ' :: (x ++ w))) = _
      rw [marks_space hmode]
      exact hwritten true

namespace Renews

variable {mode mode' : Mode} {c : Char} {cs : List Char}

theorem nil (mode : Mode) : Renews mode [] := by
  intro due
  cases mode <;> rfl

theorem gap (hread : marks mode (c :: cs) = .gap :: marks mode' cs)
    (hagain : again mode' = again mode) (h : Renews mode' cs) : Renews mode (c :: cs) := by
  intro due
  rw [hread, ← hagain]
  exact h true

theorem keeps (x : List Char) (hmode : mode ≠ .comment) (hmode' : mode' ≠ .comment) (hx : x ≠ [])
    (hread : ∀ w, w = cs ∨ w = writeAfter false (marks mode' cs) →
      marks mode (x ++ w) = x.map .keep ++ marks mode' w)
    (h : Renews mode' cs) : Renews mode (x ++ cs) := by
  intro due
  have hcs := h false
  rw [again_of_ne hmode'] at hcs
  rw [hread cs (.inl rfl), writeAfter_keeps hx, again_of_ne hmode]
  exact settled_keeps hmode hx (hread _ (.inr rfl)) hcs due

/-- What is due in front of a text that is written is written there already. -/
theorem writeAfter_true_marks (hmode : mode ≠ .comment) (h : Renews mode cs) :
    writeAfter true (marks mode (writeAfter true (marks mode cs))) =
      writeAfter true (marks mode cs) := by
  have hcs := h true
  rw [again_of_ne hmode, Settled] at hcs
  rcases writeAfter_true (marks mode cs) with hw | ⟨w, hw⟩
  · rw [hw]
    cases mode <;> rfl
  · rw [hw, marks_space hmode] at hcs ⊢
    exact hcs

theorem brace (hc : c = '{' ∨ c = '}') (h : Renews .code cs) : Renews .code (c :: cs) := by
  intro due
  have hwritten : ∀ due, writeAfter due (marks .code (c :: cs)) =
      ' ' :: c :: writeAfter true (marks .code cs) := by
    intro due
    rw [marks_brace hc, writeAfter_gap, writeAfter_keep, writeAfter_gap]
    rfl
  have hcode : Mode.code ≠ .comment := by simp
  rw [hwritten due, again_of_ne hcode, Settled, marks_space hcode, marks_brace hc]
  show ' ' :: c :: writeAfter true (marks .code (writeAfter true (marks .code cs))) = _
  rw [h.writeAfter_true_marks hcode]

theorem code {c : Char} (hblock : c = '"' → ¬['"', '"'] <+: cs)
    (h : Renews (if c = '"' then .string else if c = '#' then .comment else .code) cs) :
    Renews .code (c :: cs) := by
  by_cases hq : c = '"'
  · subst hq
    rw [if_pos rfl] at h
    refine h.keeps ['"'] (by simp) (by simp) (by simp) fun w hw => marks_quote_string ?_
    rcases hw with rfl | rfl
    · exact hblock rfl
    · exact not_prefix_writeAfter (by simp) (by decide) (hblock rfl)
  · rw [if_neg hq] at h
    by_cases hh : c = '#'
    · subst hh
      exact h.gap (marks_hash cs) rfl
    · rw [if_neg hh] at h
      cases hs : isSeparator c with
      | true => exact h.gap (marks_separator hs cs) rfl
      | false =>
          by_cases hb : c = '{' ∨ c = '}'
          · exact h.brace hb
          · exact h.keeps [c] (by simp) (by simp) (by simp)
              fun w _ => marks_plain ⟨hs, not_or.1 hb, hh, hq⟩ w

theorem comment (h : Renews (if isLineEnd c then .code else .comment) cs) :
    Renews .comment (c :: cs) := by
  cases hc : isLineEnd c with
  | true =>
      rw [hc] at h
      exact h.gap (marks_comment_end hc cs) rfl
  | false =>
      rw [hc] at h
      intro due
      rw [marks_comment hc]
      exact h due

theorem string_escape (hc : isLineEnd c = false) (h : Renews .string cs) :
    Renews .string ('\\' :: c :: cs) := by
  cases hs : isSeparator c with
  | false =>
      refine h.keeps ['\\', c] (by simp) (by simp) (by simp) fun w _ => ?_
      have hread := marks_string_escape hc w
      rwa [markOf_plain hs] at hread
  | true =>
      intro due
      have hw : Settled .string _ := h true
      rw [marks_string_escape hc, markOf_separator hs, writeAfter_keep, writeAfter_gap]
      -- The backslash stands in front of a space now, and takes that with it.
      have hstring : Mode.string ≠ .comment := by simp
      refine settled_keeps (x := ['\\']) hstring (by simp) ?_ hw due
      rcases writeAfter_true (marks .string cs) with hw | ⟨w, hw⟩
      · rw [hw]
        rfl
      · rw [hw, marks_space (by simp)]
        exact marks_string_escape (by decide) w

theorem string (hb : c = '\\' → cs = []) (hc : isLineEnd c = false)
    (h : Renews (if c = '"' then .code else .string) cs) : Renews .string (c :: cs) := by
  by_cases hq : c = '"'
  · subst hq
    rw [if_pos rfl] at h
    exact h.keeps ['"'] (by simp) (by simp) (by simp) fun w _ => marks_string_quote w
  · rw [if_neg hq] at h
    by_cases hb' : c = '\\'
    · subst hb'
      rw [hb rfl]
      intro due
      cases due <;> rfl
    · cases hs : isSeparator c with
      | true =>
          refine h.gap ?_ rfl
          rw [marks_string_plain hb' hq hc, markOf_separator hs]
      | false =>
          refine h.keeps [c] (by simp) (by simp) (by simp) fun w _ => ?_
          rw [List.singleton_append, marks_string_plain hb' hq hc, markOf_plain hs]
          rfl

theorem block (hclose : c = '"' → ¬['"', '"'] <+: cs) (hescape : c = '\\' → ¬['"'] <+: cs)
    (h : Renews .block cs) : Renews .block (c :: cs) := by
  have hkept : ∀ p, ' ' ∉ p → ¬p <+: cs → ∀ w, w = cs ∨ w = writeAfter false (marks .block cs) →
      ¬p <+: w := by
    rintro p hp hcs w (rfl | rfl)
    · exact hcs
    · exact not_prefix_writeAfter (by simp) hp hcs
  have hread : isSeparator c = false → ∀ w, w = cs ∨ w = writeAfter false (marks .block cs) →
      marks .block (c :: w) = .keep c :: marks .block w := by
    intro hs w hw
    by_cases hq : c = '"'
    · subst hq
      exact marks_block_quote (hkept _ (by decide) (hclose rfl) w hw)
    · rw [marks_block_plain hq, markOf_plain hs]
      rintro ⟨t, ht⟩
      obtain ⟨rfl, rfl⟩ := List.cons.inj ht
      exact hkept _ (by decide) (hescape rfl) _ hw ⟨_, rfl⟩
  cases hs : isSeparator c with
  | true =>
      refine h.gap ?_ rfl
      rw [marks.eq_def]
      exact if_pos hs
  | false => exact h.keeps [c] (by simp) (by simp) (by simp) (hread hs)

end Renews

/-- What is written for a text is settled, if no line ends in a quoted string. -/
theorem renews_of_unbroken {mode : Mode} {cs : List Char} (h : unbroken mode cs = true) :
    Renews mode cs := by
  fun_induction unbroken mode cs with
  | case1 mode => exact .nil mode
  | case2 cs ih =>
      exact (ih h).keeps ['"', '"', '"'] (by simp) (by simp) (by simp) fun w _ =>
        marks_quote_block w
  | case3 c cs hblock ih =>
      refine .code ?_ (ih h)
      rintro rfl ⟨t, rfl⟩
      exact hblock t rfl rfl
  | case4 c cs ih => exact .comment (ih h)
  | case5 c cs ih =>
      obtain ⟨hc, hcs⟩ := Bool.and_eq_true_iff.1 h
      exact (ih hcs).string_escape (by simpa using hc)
  | case6 c cs hb ih =>
      obtain ⟨hc, hcs⟩ := Bool.and_eq_true_iff.1 h
      refine .string ?_ (by simpa using hc) (ih hcs)
      rintro rfl
      cases cs with
      | nil => rfl
      | cons d cs => exact (hb d cs rfl rfl).elim
  | case7 cs ih =>
      exact (ih h).keeps ['"', '"', '"'] (by simp) (by simp) (by simp) fun w _ =>
        marks_block_close w
  | case8 cs ih =>
      exact (ih h).keeps ['\\', '"'] (by simp) (by simp) (by simp) fun w _ => marks_block_escape w
  | case9 c cs hclose hescape ih =>
      refine .block ?_ ?_ (ih h)
      · rintro rfl ⟨t, rfl⟩
        exact hclose t rfl rfl
      · rintro rfl ⟨t, rfl⟩
        exact hescape t rfl rfl

/-! ### Keys -/

theorem ofText_ofText {cs : List Char} (h : unbroken .code cs = true) :
    ofText (ofText cs) = ofText cs := by
  have hcode : Mode.code ≠ .comment := by simp
  have hwritten := (renews_of_unbroken h).writeAfter_true_marks hcode
  have hkey : writeAfter true (marks .code cs) = if ofText cs = [] then [] else ' ' :: ofText cs :=
    writeAfter_true_eq _
  split at hkey
  · rename_i hnil
    rw [hnil]
    rfl
  · rw [hkey, marks_space hcode, writeAfter_gap, writeAfter_true_eq] at hwritten
    split at hwritten
    · cases hwritten
    · exact (List.cons.inj hwritten).2

theorem unbroken_of_forall {mode : Mode} {cs : List Char} (h : ∀ c ∈ cs, isLineEnd c = false) :
    unbroken mode cs = true := by
  fun_induction unbroken mode cs with
  | case1 => rfl
  | _ => simp_all

theorem mem_write {c : Char} {ms : List Mark} (h : c ∈ write ms) : c = ' ' ∨ .keep c ∈ ms := by
  have hafter : ∀ due, c ∈ writeAfter due ms → c = ' ' ∨ .keep c ∈ ms := by
    clear h
    induction ms with
    | nil => simp [writeAfter]
    | cons m ms ih =>
        intro due hmem
        cases m with
        | gap => exact (ih true hmem).imp_right (List.mem_cons_of_mem _)
        | keep d =>
            rw [writeAfter_keep] at hmem
            rcases List.mem_append.1 hmem with hspace | hmem
            · cases due with
              | true => exact .inl (List.mem_singleton.1 hspace)
              | false => cases hspace
            · rcases List.mem_cons.1 hmem with rfl | hmem
              · exact .inr List.mem_cons_self
              · exact (ih false hmem).imp_right (List.mem_cons_of_mem _)
  refine hafter true ?_
  rw [writeAfter_true_eq, if_neg (List.ne_nil_of_mem h)]
  exact List.mem_cons_of_mem _ h

theorem isLineEnd_of_mem_ofText {cs : List Char} : ∀ c ∈ ofText cs, isLineEnd c = false := by
  intro c hc
  rcases mem_write hc with rfl | hkeep
  · decide
  · exact Bool.eq_false_iff.2 fun hend =>
      Bool.eq_false_iff.1 (isSeparator_of_keep c hkeep) (isSeparator_of_isLineEnd hend)

/-- A key is its own key, unless a line ended in a quoted string of the text; and the
key of a key always is. -/
theorem ofSource_ofSource (s : String) :
    (unbroken .code s.toList = true → ofSource (ofSource s) = ofSource s) ∧
      ofSource (ofSource (ofSource s)) = ofSource (ofSource s) := by
  have htext : ∀ t : String, unbroken .code t.toList = true →
      ofSource (ofSource t) = ofSource t := by
    intro t ht
    rw [ofSource, ofSource, String.toList_ofList, ofText_ofText ht]
  refine ⟨htext s, htext (ofSource s) (unbroken_of_forall ?_)⟩
  rw [ofSource, String.toList_ofList]
  exact isLineEnd_of_mem_ofText

/-- Quotes, escapes and signs of comments in strings and in a comment. -/
theorem ofSource_ofSource_example :
    let s := "\x7ba(b:\"\\\", #\"\"\"\"x\\\"\"\"\n\"\"\")#\"\n\x7d \"\" \"\\ "
    unbroken .code s.toList = true ∧ ofSource (ofSource s) = ofSource s := by
  intro s
  have h : unbroken .code s.toList = true := by decide +kernel
  exact ⟨h, (ofSource_ofSource s).1 h⟩

/-- The string is closed by the end of its line only, and the key has none: in the key
it goes on to the next quote, behind which there is code. -/
theorem ofSource_ofSource_broken : ¬∀ s : String, ofSource (ofSource s) = ofSource s := by
  intro h
  have hbroken := h "\"a\nb\" \x7bx\x7d"
  revert hbroken
  decide +kernel

end GraphQL.Key
