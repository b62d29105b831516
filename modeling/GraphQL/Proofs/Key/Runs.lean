import GraphQL.Proofs.Key.Concatenation

/-!
Keys and runs of separators and comments. The reader of marks reads two texts put
together as the one and then the other, unless quotes or backslashes meet between them:
only of these does it read several at once. So a run of separators and comments is
nothing but a gap to it wherever it stands in code, and next to a brace, which is read
with gaps around it, the run makes no difference at all.
-/

namespace GraphQL.Key

open Text

/-! ### Reading on -/

/-- Where the reader of marks stands behind a text. -/
def modeAfter : Mode → List Char → Mode
  | mode, [] => mode
  | .code, '"' :: '"' :: '"' :: cs => modeAfter .block cs
  | .code, c :: cs =>
      modeAfter (if c = '"' then .string else if c = '#' then .comment else .code) cs
  | .comment, c :: cs => modeAfter (if isLineEnd c then .code else .comment) cs
  | .string, '\\' :: c :: cs => modeAfter (if isLineEnd c then .code else .string) cs
  | .string, c :: cs => modeAfter (if isLineEnd c ∨ c = '"' then .code else .string) cs
  | .block, '"' :: '"' :: '"' :: cs => modeAfter .code cs
  | .block, '\\' :: '"' :: cs => modeAfter .block cs
  | .block, _ :: cs => modeAfter .block cs

theorem modeAfter_comment (c : Char) (cs : List Char) :
    modeAfter .comment (c :: cs) = modeAfter (if isLineEnd c then .code else .comment) cs := by
  rw [modeAfter]

theorem modeAfter_escape (c : Char) (cs : List Char) :
    modeAfter .string ('\\' :: c :: cs) =
      modeAfter (if isLineEnd c then .code else .string) cs := rfl

/-- Characters of which several may be read at once. -/
def isQuoting (c : Char) : Bool := c == '"' || c == '\\'

/-- No two of them meet where the texts do. -/
def Seam (p s : List Char) : Prop :=
  ∀ c ∈ p.getLast?, ∀ d ∈ s.head?, isQuoting c = true → isQuoting d = false

theorem Seam.of_append (front : List Char) {p s : List Char} (h : Seam (front ++ p) s) :
    Seam p s := by
  intro c hc
  refine h c ?_
  rw [List.getLast?_append, Option.mem_def.1 hc]
  rfl

theorem Seam.tail {c : Char} {p s : List Char} (h : Seam (c :: p) s) : Seam p s :=
  h.of_append [c]

/-- What is not in front of a text is not in front of a longer one. -/
theorem Seam.not_prefix {c : Char} {p s w : List Char} (h : Seam (c :: p) s)
    (hc : isQuoting c = true) (hw : ∀ d ∈ w, isQuoting d = true) (hnot : ¬w <+: p) :
    ¬w <+: p ++ s := by
  induction w generalizing c p with
  | nil => exact absurd List.nil_prefix hnot
  | cons d w ih =>
      obtain ⟨hd, hw⟩ := List.forall_mem_cons.1 hw
      cases p with
      | nil =>
          rintro ⟨t, ht⟩
          have hquoting := h c rfl d (by rw [← show d :: w ++ t = s from ht]; rfl) hc
          rw [hd] at hquoting
          cases hquoting
      | cons e p =>
          intro hpre
          obtain ⟨rfl, hrest⟩ := List.cons_prefix_cons.1 hpre
          exact ih h.tail hd hw (fun hp => hnot (List.cons_prefix_cons.2 ⟨rfl, hp⟩)) hrest

/-! ### One step -/

/-- Behind some characters the reader goes on in another mode, in front of certain texts. -/
def Leads (mode : Mode) (x : List Char) (mode' : Mode) (D : List Char → Prop) : Prop :=
  ∃ ms, ∀ cs, D cs → marks mode (x ++ cs) = ms ++ marks mode' cs ∧
    modeAfter mode (x ++ cs) = modeAfter mode' cs

theorem leads_code (c : Char) :
    Leads .code [c] (if c = '"' then .string else if c = '#' then .comment else .code)
      fun cs => c = '"' → ¬['"', '"'] <+: cs := by
  have hmode : ∀ cs, (c = '"' → ¬['"', '"'] <+: cs) → modeAfter .code (c :: cs) =
      modeAfter (if c = '"' then .string else if c = '#' then .comment else .code) cs := by
    intro cs hcs
    rw [modeAfter]
    rintro t rfl rfl
    exact hcs rfl ⟨t, rfl⟩
  suffices hmarks : ∃ ms, ∀ cs, (c = '"' → ¬['"', '"'] <+: cs) → marks .code (c :: cs) =
      ms ++ marks (if c = '"' then .string else if c = '#' then .comment else .code) cs by
    obtain ⟨ms, hms⟩ := hmarks
    exact ⟨ms, fun cs hcs => ⟨hms cs hcs, hmode cs hcs⟩⟩
  by_cases hq : c = '"'
  · subst hq
    exact ⟨[.keep '"'], fun cs hcs => marks_quote_string (hcs rfl)⟩
  · rw [if_neg hq]
    by_cases hh : c = '#'
    · subst hh
      exact ⟨[.gap], fun cs _ => marks_hash cs⟩
    · rw [if_neg hh]
      cases hs : isSeparator c with
      | true => exact ⟨[.gap], fun cs _ => marks_separator hs cs⟩
      | false =>
          by_cases hb : c = '{' ∨ c = '}'
          · exact ⟨[.gap, .keep c, .gap], fun cs _ => marks_brace hb cs⟩
          · exact ⟨[.keep c], fun cs _ => marks_plain ⟨hs, not_or.1 hb, hh, hq⟩ cs⟩

theorem leads_comment (c : Char) :
    Leads .comment [c] (if isLineEnd c then .code else .comment) fun _ => True := by
  cases hc : isLineEnd c with
  | true =>
      refine ⟨[.gap], fun cs _ => ⟨marks_comment_end hc cs, ?_⟩⟩
      rw [List.singleton_append, modeAfter_comment, hc]
  | false =>
      refine ⟨[], fun cs _ => ⟨marks_comment hc cs, ?_⟩⟩
      rw [List.singleton_append, modeAfter_comment, hc]

theorem marks_string_end {c : Char} (h : isLineEnd c = true) (cs : List Char) :
    marks .string (c :: cs) = .gap :: marks .code cs := by
  rw [marks.eq_def]
  exact if_pos h

/-- A separator behind a backslash is read on its own. -/
theorem marks_string_backslash {c : Char} (h : isSeparator c = true) (cs : List Char) :
    marks .string ('\\' :: c :: cs) = .keep '\\' :: marks .string (c :: cs) := by
  rw [marks.eq_def]
  exact if_pos h

theorem leads_escape (c : Char) :
    Leads .string ['\\', c] (if isLineEnd c then .code else .string) fun _ => True := by
  cases hc : isLineEnd c with
  | true =>
      refine ⟨[.keep '\\', .gap], fun cs _ => ⟨?_, ?_⟩⟩
      · show marks .string ('\\' :: c :: cs) = _
        rw [marks_string_backslash (isSeparator_of_isLineEnd hc), marks_string_end hc]
        rfl
      · show modeAfter .string ('\\' :: c :: cs) = _
        rw [modeAfter_escape, hc]
  | false =>
      refine ⟨[.keep '\\', markOf c], fun cs _ => ⟨marks_string_escape hc cs, ?_⟩⟩
      show modeAfter .string ('\\' :: c :: cs) = _
      rw [modeAfter_escape, hc]

theorem modeAfter_string {c : Char} (h : c ≠ '\\') (cs : List Char) :
    modeAfter .string (c :: cs) =
      modeAfter (if isLineEnd c ∨ c = '"' then .code else .string) cs := by
  rw [modeAfter]
  rintro d t rfl rfl
  exact h rfl

theorem leads_string (c : Char) :
    Leads .string [c] (if isLineEnd c ∨ c = '"' then .code else .string)
      fun cs => c = '\\' → ∀ d ∈ cs.head?, isQuoting d = false := by
  by_cases hb : c = '\\'
  · subst hb
    refine ⟨[.keep '\\'], fun cs hcs => ?_⟩
    show marks .string ('\\' :: cs) = .keep '\\' :: marks .string cs ∧
      modeAfter .string ('\\' :: cs) = modeAfter .string cs
    cases cs with
    | nil => exact ⟨rfl, rfl⟩
    | cons d cs =>
        have hd : d ≠ '"' ∧ d ≠ '\\' := by simpa [isQuoting] using hcs rfl d rfl
        constructor
        · cases hl : isLineEnd d with
          | true => exact marks_string_backslash (isSeparator_of_isLineEnd hl) cs
          | false =>
              rw [marks_string_escape hl, marks_string_plain hd.2 hd.1 hl]
        · rw [modeAfter_escape, modeAfter_string hd.2]
          simp [hd.1]
  · cases hl : isLineEnd c with
    | true =>
        refine ⟨[.gap], fun cs _ => ⟨marks_string_end hl cs, ?_⟩⟩
        rw [List.singleton_append, modeAfter_string hb, hl]
    | false =>
        by_cases hq : c = '"'
        · subst hq
          exact ⟨[.keep '"'], fun cs _ => ⟨marks_string_quote cs, modeAfter_string hb cs⟩⟩
        · rw [if_neg (by simp [hq])]
          refine ⟨[markOf c], fun cs _ => ⟨marks_string_plain hb hq hl cs, ?_⟩⟩
          rw [List.singleton_append, modeAfter_string hb, hl, if_neg (by simp [hq])]

theorem leads_block_open : Leads .code ['"', '"', '"'] .block fun _ => True :=
  ⟨[.keep '"', .keep '"', .keep '"'], fun cs _ => ⟨marks_quote_block cs, rfl⟩⟩

theorem leads_block_close : Leads .block ['"', '"', '"'] .code fun _ => True :=
  ⟨[.keep '"', .keep '"', .keep '"'], fun cs _ => ⟨marks_block_close cs, rfl⟩⟩

theorem leads_block_escape : Leads .block ['\\', '"'] .block fun _ => True :=
  ⟨[.keep '\\', .keep '"'], fun cs _ => ⟨marks_block_escape cs, rfl⟩⟩

theorem leads_block (c : Char) : Leads .block [c] .block
    fun cs => (c = '"' → ¬['"', '"'] <+: cs) ∧ (c = '\\' → ¬['"'] <+: cs) := by
  have hmode : ∀ cs, (c = '"' → ¬['"', '"'] <+: cs) ∧ (c = '\\' → ¬['"'] <+: cs) →
      modeAfter .block (c :: cs) = modeAfter .block cs := by
    rintro cs ⟨hquote, hback⟩
    rw [modeAfter]
    · rintro t rfl rfl
      exact hquote rfl ⟨t, rfl⟩
    · rintro t rfl rfl
      exact hback rfl ⟨t, rfl⟩
  by_cases hq : c = '"'
  · subst hq
    exact ⟨[.keep '"'], fun cs hcs => ⟨marks_block_quote (hcs.1 rfl), hmode cs hcs⟩⟩
  · refine ⟨[markOf c], fun cs hcs => ⟨marks_block_plain hq ?_, hmode cs hcs⟩⟩
    rintro ⟨t, ht⟩
    obtain ⟨rfl, rfl⟩ := List.cons.inj ht
    exact hcs.2 rfl ⟨_, rfl⟩

/-! ### Texts put together -/

/-- A text is read as its first part, and as its second part from there on. -/
def Joint (mode : Mode) (p s : List Char) : Prop :=
  marks mode (p ++ s) = marks mode p ++ marks (modeAfter mode p) s ∧
    modeAfter mode (p ++ s) = modeAfter (modeAfter mode p) s

theorem Leads.joint {mode mode' : Mode} {x cs s : List Char} {D : List Char → Prop}
    (h : Leads mode x mode' D) (hcs : D cs) (hlong : D (cs ++ s)) (hrest : Joint mode' cs s) :
    Joint mode (x ++ cs) s := by
  obtain ⟨ms, hms⟩ := h
  obtain ⟨hmarks, hmode⟩ := hms cs hcs
  obtain ⟨hmarks', hmode'⟩ := hms (cs ++ s) hlong
  rw [Joint, List.append_assoc, hmarks, hmarks', hmode, hmode', hrest.1, List.append_assoc]
  exact ⟨rfl, hrest.2⟩

/-- By the steps of the reader: each of them stays within the first text, because what
it looks ahead for would have to meet the quote or backslash it stands at. -/
theorem Seam.joint {p s : List Char} (h : Seam p s) (mode : Mode) : Joint mode p s := by
  induction mode, p using modeAfter.induct with
  | case1 mode =>
      rw [Joint, marks_nil]
      exact ⟨rfl, rfl⟩
  | case2 cs ih =>
      exact leads_block_open.joint trivial trivial (ih h.tail.tail.tail)
  | case3 c cs hblock ih =>
      have hcs : c = '"' → ¬['"', '"'] <+: cs := by
        rintro rfl ⟨t, rfl⟩
        exact hblock t rfl rfl
      have hlong : c = '"' → ¬['"', '"'] <+: cs ++ s := by
        rintro rfl
        exact h.not_prefix rfl (List.all_eq_true.1 rfl) (hcs rfl)
      exact (leads_code c).joint hcs hlong (ih h.tail)
  | case4 c cs ih => exact (leads_comment c).joint trivial trivial (ih h.tail)
  | case5 c cs ih => exact (leads_escape c).joint trivial trivial (ih h.tail.tail)
  | case6 c cs hb ih =>
      have hcs : c = '\\' → cs = [] := by
        rintro rfl
        cases cs with
        | nil => rfl
        | cons d cs => exact (hb d cs rfl rfl).elim
      have hshort : c = '\\' → ∀ d ∈ cs.head?, isQuoting d = false := by
        rintro hc d hd
        rw [hcs hc] at hd
        cases hd
      have hlong : c = '\\' → ∀ d ∈ (cs ++ s).head?, isQuoting d = false := by
        rintro rfl d hd
        rw [hcs rfl] at h hd
        exact h '\\' rfl d hd rfl
      exact (leads_string c).joint hshort hlong (ih h.tail)
  | case7 cs ih =>
      exact leads_block_close.joint trivial trivial (ih h.tail.tail.tail)
  | case8 cs ih =>
      exact leads_block_escape.joint trivial trivial (ih h.tail.tail)
  | case9 c cs hclose hescape ih =>
      have hquote : c = '"' → ¬['"', '"'] <+: cs := by
        rintro rfl ⟨t, rfl⟩
        exact hclose t rfl rfl
      have hback : c = '\\' → ¬['"'] <+: cs := by
        rintro rfl ⟨t, rfl⟩
        exact hescape t rfl rfl
      refine (leads_block c).joint ⟨hquote, hback⟩ ⟨?_, ?_⟩ (ih h.tail)
      · rintro rfl
        exact h.not_prefix rfl (List.all_eq_true.1 rfl) (hquote rfl)
      · rintro rfl
        exact h.not_prefix rfl (List.all_eq_true.1 rfl) (hback rfl)

/-! ### Ignored runs -/

/-- Separators, and whole comments with the line ends behind them. -/
inductive IgnoredRun : List Char → Prop
  | nil : IgnoredRun []
  | separator (c : Char) (cs : List Char) : isSeparator c = true → IgnoredRun cs →
      IgnoredRun (c :: cs)
  | comment (body : List Char) (c : Char) (cs : List Char) :
      (∀ d ∈ body, isLineEnd d = false) → isLineEnd c = true → IgnoredRun cs →
      IgnoredRun ('#' :: (body ++ c :: cs))

theorem marks_comment_body {body : List Char} (h : ∀ d ∈ body, isLineEnd d = false)
    {c : Char} (hc : isLineEnd c = true) (cs : List Char) :
    marks .comment (body ++ c :: cs) = .gap :: marks .code cs := by
  induction body with
  | nil => exact marks_comment_end hc cs
  | cons d body ih =>
      obtain ⟨hd, hbody⟩ := List.forall_mem_cons.1 h
      rw [List.cons_append, marks_comment hd, ih hbody]

/-- In front of code, a run is written as no more than a gap. -/
theorem IgnoredRun.write_marks {r : List Char} (h : IgnoredRun r) (s : List Char) :
    write (marks .code (r ++ s)) = write (marks .code s) := by
  induction h with
  | nil => rfl
  | separator c cs hc _ ih =>
      rw [List.cons_append, marks_separator hc]
      exact ih
  | comment body c cs hbody hc _ ih =>
      rw [List.cons_append, List.append_assoc, List.cons_append, marks_hash,
        marks_comment_body hbody hc]
      exact ih

/-- A run that is there starts with a gap. -/
theorem IgnoredRun.exists_gap {r : List Char} (h : IgnoredRun r) (hr : r ≠ []) (s : List Char) :
    ∃ ms, marks .code (r ++ s) = .gap :: ms := by
  cases h with
  | nil => exact absurd rfl hr
  | separator c cs hc _ => exact ⟨_, marks_separator hc _⟩
  | comment body c cs _ _ _ => exact ⟨_, marks_hash _⟩

/-! ### Keys -/

theorem isQuoting_of_isSeparator {c : Char} (h : isSeparator c = true) : isQuoting c = false := by
  refine Bool.eq_false_iff.2 fun hquoting => ?_
  have hc : c = '"' ∨ c = '\\' := by simpa [isQuoting] using hquoting
  rcases hc with rfl | rfl
  · exact absurd h (by decide)
  · exact absurd h (by decide)

theorem isQuoting_of_brace {c : Char} (h : c = '{' ∨ c = '}') : isQuoting c = false := by
  rcases h with rfl | rfl <;> rfl

theorem Seam.of_head {c : Char} (hc : isQuoting c = false) (p s : List Char) : Seam p (c :: s) := by
  rintro d hd e ⟨⟩ hquoting
  exact hc

theorem Seam.of_last {c : Char} (hc : isQuoting c = false) (p s : List Char) :
    Seam (p ++ [c]) s := by
  intro d hd e he hquoting
  rw [List.getLast?_concat] at hd
  cases hd
  rw [hc] at hquoting
  cases hquoting

theorem IgnoredRun.seam {r : List Char} (h : IgnoredRun r) (hr : r ≠ []) (p s : List Char) :
    Seam p (r ++ s) := by
  cases h with
  | nil => exact absurd rfl hr
  | separator c cs hc _ => exact .of_head (isQuoting_of_isSeparator hc) p _
  | comment body c cs _ _ _ => exact .of_head rfl p _

/-- Between code and a text, all that matters about a run is that it is there. -/
theorem ofText_run {p r : List Char} (hp : modeAfter .code p = .code) (hr : IgnoredRun r)
    (hne : r ≠ []) (s : List Char) : ofText (p ++ (r ++ s)) = glue (ofText p) (ofText s) := by
  have hmarks := ((hr.seam hne p s).joint .code).1
  have hwritten := hr.write_marks s
  obtain ⟨ms, hms⟩ := hr.exists_gap hne s
  rw [hp, hms] at hmarks
  rw [hms] at hwritten
  rw [ofText, hmarks, write_append_gap]
  exact congrArg _ hwritten

theorem modeAfter_brace {c : Char} (h : c = '{' ∨ c = '}') (mode : Mode) :
    modeAfter mode [c] = mode := by
  rcases h with rfl | rfl
  · cases mode <;> rfl
  · cases mode <;> rfl

/-- A brace brings its own gaps. -/
theorem ofText_brace_left {p : List Char} (hp : modeAfter .code p = .code)
    (hlast : ∃ c ∈ p.getLast?, c = '{' ∨ c = '}') (s : List Char) :
    ofText (p ++ s) = glue (ofText p) (ofText s) := by
  obtain ⟨c, hc, hbrace⟩ := hlast
  obtain ⟨front, rfl⟩ := List.getLast?_eq_some_iff.1 hc
  have hplain := isQuoting_of_brace hbrace
  obtain ⟨hfront, hmode⟩ := (Seam.of_head hplain front []).joint .code
  rw [hp, modeAfter_brace hbrace] at hmode
  rw [← hmode, marks_brace hbrace, marks_nil] at hfront
  obtain ⟨ms, hms⟩ : ∃ ms, marks .code (front ++ [c]) = ms ++ [.gap] :=
    ⟨marks .code front ++ [.gap, .keep c], by simpa using hfront⟩
  have hshort : ofText (front ++ [c]) = write ms := by
    rw [ofText, hms, write_append_gap]
    exact glue_nil_right _
  have hmarks := ((Seam.of_last hplain front s).joint .code).1
  rw [hp, hms, List.append_assoc ms] at hmarks
  rw [hshort, ofText, hmarks]
  exact write_append_gap _ _

theorem ofText_brace_right {p s : List Char} (hp : modeAfter .code p = .code)
    (hhead : ∃ c ∈ s.head?, c = '{' ∨ c = '}') :
    ofText (p ++ s) = glue (ofText p) (ofText s) := by
  obtain ⟨c, hc, hbrace⟩ := hhead
  obtain ⟨s, rfl⟩ := List.head?_eq_some_iff.1 hc
  have hmarks := ((Seam.of_head (isQuoting_of_brace hbrace) p s).joint .code).1
  rw [hp, marks_brace hbrace] at hmarks
  rw [ofText, hmarks, write_append_gap, ofText, ofText, marks_brace hbrace]
  rfl

/-- Behind code, a run of separators and comments may be exchanged for another one, and
next to a brace it may be left out. -/
theorem ofSource_exchange_run {p s r₁ r₂ : String} (hp : modeAfter .code p.toList = .code)
    (h₁ : IgnoredRun r₁.toList) (h₂ : IgnoredRun r₂.toList)
    (hgap : (r₁ ≠ "" ∧ r₂ ≠ "") ∨ (∃ c ∈ p.toList.getLast?, c = '{' ∨ c = '}') ∨
      ∃ c ∈ s.toList.head?, c = '{' ∨ c = '}') :
    ofSource (p ++ r₁ ++ s) = ofSource (p ++ r₂ ++ s) := by
  have hkey : ∀ r : String, IgnoredRun r.toList →
      (r ≠ "" ∨ (∃ c ∈ p.toList.getLast?, c = '{' ∨ c = '}') ∨
        ∃ c ∈ s.toList.head?, c = '{' ∨ c = '}') →
      ofText (p ++ r ++ s).toList = glue (ofText p.toList) (ofText s.toList) := by
    intro r hr hcase
    rw [String.toList_append, String.toList_append, List.append_assoc]
    by_cases hnil : r.toList = []
    · rw [hnil, List.nil_append]
      rcases hcase with hne | hlast | hhead
      · exact absurd (String.toList_eq_nil_iff.1 hnil) hne
      · exact ofText_brace_left hp hlast s.toList
      · exact ofText_brace_right hp hhead
    · exact ofText_run hp hr hnil s.toList
  rw [ofSource, ofSource, hkey r₁ h₁ (hgap.imp_left And.left), hkey r₂ h₂ (hgap.imp_left And.right)]

/-- An empty string behind a brace, and in front of a string a comment or a space. -/
theorem ofSource_exchange_run_example :
    let p := "a(b: \"\""
    let s := "\"\"\" # \"\"\")"
    let r₁ := "#\"\n,"
    let r₂ := "\uFEFF"
    modeAfter .code p.toList = .code ∧ IgnoredRun r₁.toList ∧ IgnoredRun r₂.toList ∧
      ofSource (p ++ r₁ ++ s) = ofSource (p ++ r₂ ++ s) := by
  intro p s r₁ r₂
  have hp : modeAfter .code p.toList = .code := by decide +kernel
  have h₁ : IgnoredRun r₁.toList := by
    rw [show r₁.toList = '#' :: (['"'] ++ '\n' :: [',']) by decide +kernel]
    exact .comment ['"'] '\n' [','] (List.forall_mem_singleton.2 rfl) rfl
      (.separator ',' [] rfl .nil)
  have h₂ : IgnoredRun r₂.toList := by
    rw [show r₂.toList = ['\uFEFF'] by decide +kernel]
    exact .separator '\uFEFF' [] rfl .nil
  exact ⟨hp, h₁, h₂, ofSource_exchange_run hp h₁ h₂ (.inl ⟨by decide, by decide⟩)⟩

end GraphQL.Key
