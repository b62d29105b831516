import GraphQL.Proofs.Grammar.Continuations
import GraphQL.Proofs.Grammar.Runs
import GraphQL.Proofs.Grammar.Sources
import Mathlib.Order.Bounds.Defs

/-!
Faults are met at the earliest lexeme. What was read before a fault can be gone on with
to the end of some source, and no source that goes on as the faulty one does is free of
faults. So the label of an error stands where the source leaves all that can be read,
and one lexeme before that if a description is to blame.
-/

namespace GraphQL

namespace Grammar

variable {allowed : Bool} {c d : Cursor} {ds : List Definition} {e : SyntaxError}

/-! ### Stray descriptions -/

/-- A description is a string. -/
theorem string_of_description {about : Option StringValue} (hc : ∀ l ∈ c.rest, l.Coherent)
    (h : description c = .ok (about, d)) (habout : about.isSome) :
    ∃ l, c.rest = l :: d.rest ∧ (l.kind = .string ∨ l.kind = .blockString) ∧
      d.position = c.position + 1 := by
  obtain ⟨ls, hrest, -, hspells⟩ := sound_description hc about d h
  obtain ⟨ms, -, hrest', hposition⟩ := reads_description h
  obtain rfl : ls = ms := List.append_cancel_right (hrest.symm.trans hrest')
  cases about with
  | none => cases habout
  | some v =>
      cases hspells with
      | @string _ ls _ _ l hl hspells =>
          obtain rfl := Spells.nil_iff.1 hspells
          refine ⟨l, hrest, ?_, hposition⟩
          cases hblock : v.block with
          | true => exact .inr (hblock ▸ hl).1
          | false => exact .inl (hblock ▸ hl).1

/-- Where a stray description is met, it stands in front. -/
theorem stray_of_definition (hc : ∀ l ∈ c.rest, l.Coherent)
    (h : definition allowed c = .error e) (hstray : e.fault = .strayDescription) :
    ∃ l rest, c.rest = l :: rest ∧ (l.kind = .string ∨ l.kind = .blockString) ∧
      e.position = c.position + 1 := by
  -- What has no description in front does not meet this fault.
  have hnever : ∀ {α : Type} {n : Nat} {u : List TokenKind} {p : Parser α} {d : Cursor},
      Steady ⟨allowed, false⟩ (d.rest.length + 1) n u p → p d ≠ .error e := by
    intro α n u p d hp he
    obtain ⟨_, _, _, _, hpossible, _⟩ := (hp (Nat.lt_succ_self _)).refused he
    rw [hstray] at hpossible
    cases hpossible
  have hbody := (maps_spanned _).error_iff.1 h
  by_cases hbrace : c.current.kind ∈ [.punctuator .braceOpen]
  · rw [(spots_sees _).pos hbrace] at hbody
    exact absurd hbody (hnever prompt_shorthandQuery.last.steady)
  · rw [(spots_sees _).neg hbrace] at hbody
    rcases bind_eq_error.1 hbody with habout | ⟨about, d, habout, hrest⟩
    · exact absurd habout (hnever prompt_description.steady)
    · -- The next lexeme is there to be looked at, so its kind decides.
      obtain ⟨l, d', hcurrent, hkind⟩ := (bind_eq_error.1 hrest).resolve_left (by rintro ⟨⟩)
      cases hcurrent
      generalize d.current.kind = kind at hkind
      cases kind with
      | keyword word =>
          by_cases hs : about.isSome ∧ takesNoDescription word
          · obtain ⟨l, hl, hstring, hposition⟩ := string_of_description hc habout hs.1
            have hfail : keywordDefinition allowed about word = fail fun _ => .strayDescription :=
              if_pos hs
            cases (congrFun hfail d).symm.trans hkind
            exact ⟨l, d.rest, hl, hstring, hposition⟩
          · exact absurd hkind (hnever (steady_keywordDefinition (k := ⟨allowed, false⟩)
              fun h => absurd h hs))
      | _ => exact absurd hkind (hnever (n := 0) (u := []) .unexpected)

/-! ### Definitions in front of other lexemes -/

/-- Definitions are read alike in front of the same lexeme, and in front of nothing. -/
theorem Runs.in_front (h : Runs allowed c ds d) : ∃ front, c.rest = front ++ d.rest ∧
    d.position = c.position + front.length ∧
    ∀ back, back.head? = d.rest.head? ∨ back = [] →
      Runs allowed ⟨c.position, front ++ back⟩ ds ⟨d.position, back⟩ := by
  induction h with
  | nil c => exact ⟨[], rfl, rfl, fun back _ => .nil _⟩
  | @cons c c' d x xs hx _ ih =>
      obtain ⟨front, hfront, hposition, hruns⟩ := ih
      obtain ⟨ls, -, hrest, hposition', hsame, htakes⟩ := (steady_definition allowed c).answered hx
      refine ⟨ls ++ front, ?_, ?_, fun back hback => .cons (d := ⟨c'.position, front ++ back⟩) ?_
        (hruns back hback)⟩
      · rw [hrest, hfront, List.append_assoc]
      · rw [hposition, hposition', List.length_append, Nat.add_assoc]
      · rw [List.append_assoc]
        rcases hback with hback | rfl
        · exact hsame _ (hfront ▸ head?_append_congr hback)
        · cases front with
          | nil =>
              rw [hposition']
              exact htakes [] (by decide)
          | cons l front => exact hsame _ (hfront ▸ rfl)

theorem Runs.snoc {x : Definition} {d' : Cursor} (h : Runs allowed c ds d)
    (hx : definition allowed d = .ok (x, d')) : Runs allowed c (ds ++ [x]) d' :=
  h.append (.cons hx (.nil d'))

/-- A fault behind some definitions ends them, unless nothing more is asked for. -/
theorem definitions_of_runs_error (h : Runs allowed c ds d) (hc : ∀ l ∈ c.rest, l.Coherent)
    (he : definition allowed d = .error e) (hend : ds = [] ∨ d.rest ≠ []) :
    definitions allowed c = .ok ((ds, some e), d) := by
  induction h with
  | nil => exact definitions_of_error he
  | @cons c c' d x xs hx hxs ih =>
      have hc' : ∀ l ∈ c'.rest, l.Coherent := (Runs.cons hx (.nil c')).coherent hc
      have hd : d.rest ≠ [] := hend.resolve_left (List.cons_ne_nil x xs)
      refine definitions_of_more hx ?_ (ih hc' he (.inr hd))
      cases hxs with
      | nil =>
          obtain ⟨l, ls, hl⟩ := List.exists_cons_of_ne_nil hd
          rw [Cursor.current, hl]
          exact (hc' l (hl ▸ List.mem_cons_self)).kind_ne_endOfInput
      | cons hy _ => exact (avoids.cons.1 (nextKind_of_definition hc' hy)).1

/-- Lexemes that are read up to a fault can be gone on with. -/
theorem completable_of_runs {front : List Lexeme}
    (hruns : ∀ back, back.head? = d.rest.head? ∨ back = [] →
      Runs allowed ⟨0, front ++ back⟩ ds ⟨d.position, back⟩)
    (hds : ds = [] → front = []) {ms rest : List Lexeme} (hrest : d.rest = ms ++ rest)
    (hmore : ms ≠ [] → ∃ more x, (∀ l ∈ more, l.Writable) ∧
      Takes definitionStops (definition allowed) d.position (ms ++ more) x) :
    ∃ more, (∀ l ∈ more, l.Writable) ∧ ∃ ds d, ds ≠ [] ∧
      Runs allowed ⟨0, front ++ ms ++ more⟩ ds d ∧ d.rest = [] := by
  cases ms with
  | cons m ms =>
      obtain ⟨more, x, hw, hx⟩ := hmore (List.cons_ne_nil m ms)
      have hlast := hx [] (by decide)
      rw [List.append_nil] at hlast
      have hall := (hruns (m :: ms ++ more) (.inl (hrest ▸ rfl))).snoc hlast
      rw [← List.append_assoc] at hall
      exact ⟨more, hw, ds ++ [x], _, by simp, hall, rfl⟩
  | nil =>
      rw [List.append_nil]
      cases ds with
      | cons y ys =>
          exact ⟨[], List.forall_mem_nil _, y :: ys, ⟨_, []⟩, List.cons_ne_nil y ys,
            hruns [] (.inr rfl), rfl⟩
      | nil =>
          -- Nothing has been read, and any definition will do.
          obtain rfl := hds rfl
          obtain ⟨more, x, -, hw, hx⟩ :=
            (prompt_definition (k := ⟨allowed, true⟩) (N := 0) rfl).fills 0
          have hlast := hx [] (by decide)
          rw [List.append_nil] at hlast
          exact ⟨more, hw, [x], ⟨_, []⟩, List.cons_ne_nil x [], .cons hlast (.nil _), rfl⟩

/-- Lexemes that are refused have a front that can be completed. At the lexeme behind it
all that goes on alike is refused. -/
theorem refused_read {ls : List Lexeme} (hls : ∀ l ∈ ls, l.Coherent)
    (h : (read allowed ls).error? = some e) :
    ∃ front rest, ls = front ++ rest ∧ e.position = front.length ∧
      (∀ back, (∀ l ∈ front ++ back, l.Coherent) → back.head? = rest.head? →
        (read allowed (front ++ back)).error? = some e) ∧
      ∃ more, (∀ l ∈ more, l.Writable) ∧ ∃ ds d, ds ≠ [] ∧
        Runs allowed ⟨0, front ++ more⟩ ds d ∧ d.rest = [] := by
  obtain ⟨ds, d, hruns, he, hread⟩ := read_of_error h
  have hend : ds = [] ∨ d.rest ≠ [] := by
    refine Decidable.or_iff_not_imp_left.2 fun hne hnil => ?_
    rw [read_of_runs hruns hne hls hnil] at hread
    cases hread
  obtain ⟨front, hfront, hposition, hagain⟩ := hruns.in_front
  obtain ⟨ms, rest, hrest, hposition', -, hsame, hmore⟩ :=
    (steady_definition allowed d).refused he
  have hds : ds = [] → front = [] := by
    rintro rfl
    cases hruns
    simpa using hfront
  refine ⟨front ++ ms, rest, ?_, ?_, fun back hc hback => ?_,
    completable_of_runs hagain hds hrest hmore⟩
  · rw [List.append_assoc, ← hrest]
    exact hfront
  · rw [hposition', hposition, List.length_append, Nat.zero_add]
  · have hhead : (ms ++ back).head? = d.rest.head? := hrest ▸ head?_append_congr hback
    have hleft : ds = [] ∨ ms ++ back ≠ [] := hend.imp_right fun hne hnil => hne (by
      rw [hnil] at hhead
      exact List.head?_eq_none_iff.1 hhead.symm)
    rw [List.append_assoc] at hc ⊢
    rw [read, definitions_of_runs_error (hagain _ (.inl hhead)) hc (hsame back hback) hleft]

end Grammar

/-! ### Sources -/

open Grammar

theorem Lexeme.Writable.coherent {l : Lexeme} (h : l.Writable) : l.Coherent :=
  have hmem : l ∈ lexemes l.text := h.1 ▸ List.mem_singleton_self l
  coherent_of_mem hmem

/-- Lexemes that some source without a fault starts with, the end of the input included. -/
def Viable (options : ParseOptions) (ls : List Lexeme) : Prop :=
  ∃ source, (parse options source).diagnostics = ⟨[]⟩ ∧
    ls <+: (tokenize source).map Token.toLexeme

theorem Viable.mono {options : ParseOptions} {ls ms : List Lexeme} (h : Viable options ls)
    (hms : ms <+: ls) : Viable options ms := by
  obtain ⟨source, hsource, hls⟩ := h
  exact ⟨source, hsource, hms.trans hls⟩

/-- Lexemes that are read up to their end are those of a source without a fault. -/
theorem viable_of_runs {options : ParseOptions} {source : String} {front rest more : List Lexeme}
    {ds : List Definition} {d : Cursor} (hsource : lexemes source = front ++ rest)
    (hmore : ∀ l ∈ more, l.Writable) (hne : ds ≠ [])
    (h : Runs options.legacyFragmentVariables ⟨0, front ++ more⟩ ds d) (hd : d.rest = []) :
    Viable options front := by
  have hmem : ∀ l ∈ front, l ∈ lexemes source := fun l hl =>
    hsource ▸ List.mem_append_left rest hl
  have hc : ∀ l ∈ front ++ more, l.Coherent := List.forall_mem_append.2
    ⟨fun l hl => coherent_of_mem (hmem l hl), fun l hl => (hmore l hl).coherent⟩
  have hproper := (h.placed hc hd).proper
  have hwritable : ∀ l ∈ front ++ more, l.Writable := by
    refine List.forall_mem_append.2 ⟨fun l hl => writable_of_mem (hmem l hl) fun hk => ?_, hmore⟩
    have hkind := (hproper l (List.mem_append_left more hl)).kind
    rw [hk] at hkind
    cases hkind
  refine ⟨writeLines (front ++ more), ?_, ?_⟩
  · rw [diagnostics_parse_eq_nil_iff, lexemes_writeLines hwritable, read_of_runs h hne hc hd]
  · rw [map_toLexeme_tokenize_append, lexemes_writeLines hwritable, List.append_assoc]
    exact List.prefix_append _ _

/-- A front that is refused at the lexeme behind it is not gone on with by that lexeme. -/
theorem not_viable_of_refused {options : ParseOptions} {front rest : List Lexeme}
    {e : SyntaxError} (hrest : ∀ l ∈ rest, l.Coherent)
    (h : ∀ back, (∀ l ∈ front ++ back, l.Coherent) → back.head? = rest.head? →
      (read options.legacyFragmentVariables (front ++ back)).error? = some e) :
    ¬Viable options (front ++ [rest.headD .endOfInput]) := by
  rintro ⟨source, hsource, more, hmore⟩
  rw [diagnostics_parse_eq_nil_iff] at hsource
  have hc : ∀ l ∈ lexemes source, l.Coherent := fun _ => coherent_of_mem
  -- The source goes on as the refused lexemes do.
  have hback : ∃ back, lexemes source = front ++ back ∧ back.head? = rest.head? := by
    rw [map_toLexeme_tokenize_append] at hmore
    rcases List.eq_nil_or_concat more with rfl | ⟨more, x, rfl⟩
    · rw [List.append_nil] at hmore
      obtain ⟨hfront, hl⟩ := List.append_inj' hmore rfl
      refine ⟨[], by rw [List.append_nil, hfront], ?_⟩
      cases rest with
      | nil => rfl
      | cons l rest =>
          have hkind : l.kind = .endOfInput := congrArg Lexeme.kind (List.cons.inj hl).1
          exact absurd hkind (hrest l List.mem_cons_self).kind_ne_endOfInput
    · rw [List.concat_eq_append, ← List.append_assoc] at hmore
      obtain ⟨hfront, -⟩ := List.append_inj' hmore rfl
      rw [List.append_assoc] at hfront
      refine ⟨_, hfront.symm, ?_⟩
      cases rest with
      | nil =>
          have hend : Lexeme.endOfInput ∈ lexemes source := by
            rw [← hfront]
            simp
          exact absurd rfl (hc _ hend).kind_ne_endOfInput
      | cons l rest => rfl
  obtain ⟨back, hlexemes, hhead⟩ := hback
  rw [hlexemes] at hsource hc
  rw [h back hc hhead] at hsource
  cases hsource

/-! ### Titles -/

theorem ne_strayTitle_of_head {s : String} (h : s.toList.head? ≠ some 'U') :
    s ≠ Fault.strayDescription.title := by
  rintro rfl
  exact h (by decide +kernel)

theorem unexpected_ne_strayTitle {s : String} (h : s.toList.head? ≠ some 'd') :
    "Unexpected " ++ s ≠ Fault.strayDescription.title := by
  have htitle : Fault.strayDescription.title =
      "Unexpected " ++ "description, descriptions are supported only on type definitions." := by
    decide +kernel
  intro hs
  rw [htitle] at hs
  have hlist := congrArg String.toList hs
  rw [String.toList_append, String.toList_append] at hlist
  rw [List.append_cancel_left hlist] at h
  exact h (by decide +kernel)

theorem head?_toList_append {s t : String} {c : Char} (h : s.toList.head? = some c) :
    (s ++ t).toList.head? = some c := by
  rw [String.toList_append, List.head?_append, h]
  rfl

theorem head?_describe (l : Lexeme) : ∃ c, l.describe.toList.head? = some c ∧ c ≠ 'd' := by
  obtain ⟨kind, text⟩ := l
  cases kind <;> simp [Lexeme.describe, TokenKind.label]

/-- Malformed lexemes have titles of their own. -/
theorem malformed_ne_strayTitle {l : Lexeme} {s : String}
    (h : s ≠ Fault.strayDescription.title) :
    (Fault.malformed? l).getD s ≠ Fault.strayDescription.title := by
  unfold Fault.malformed?
  split
  · show "Unterminated string." ≠ Fault.strayDescription.title
    decide +kernel
  · split
    · rw [Option.getD_some, String.append_assoc]
      refine ne_strayTitle_of_head ?_
      rw [head?_toList_append (c := 'I') (by decide +kernel)]
      decide
    · have htitle : "Unexpected character: \"" = "Unexpected " ++ "character: \"" := by
        decide +kernel
      rw [Option.getD_some, htitle, String.append_assoc, String.append_assoc]
      refine unexpected_ne_strayTitle ?_
      rw [head?_toList_append (c := 'c') (by decide +kernel)]
      decide
  · exact h

/-- Only a stray description is reported as one. -/
theorem Fault.eq_strayDescription {f : Fault} (h : f.title = Fault.strayDescription.title) :
    f = .strayDescription := by
  have hhead : ∀ {s t : String} {c : Char}, s.toList.head? = some c → c ≠ 'U' →
      s ++ t ≠ Fault.strayDescription.title := by
    intro s t c hs hc
    refine ne_strayTitle_of_head ?_
    rw [head?_toList_append hs]
    exact fun h => hc (Option.some.inj h)
  cases f with
  | strayDescription => rfl
  | unexpected l =>
      refine absurd h (malformed_ne_strayTitle ?_)
      rw [String.append_assoc]
      obtain ⟨c, hc, hne⟩ := head?_describe l
      refine unexpected_ne_strayTitle ?_
      rw [head?_toList_append hc]
      exact fun h => hne (Option.some.inj h)
  | expected wanted l =>
      refine absurd h (malformed_ne_strayTitle ?_)
      simp only [String.append_assoc]
      exact hhead (c := 'E') (by decide +kernel) (by decide)
  | fragmentVariables => exact absurd h (by decide +kernel)
  | invalidEscape escape =>
      refine absurd h ?_
      show "Invalid character escape sequence: \"" ++ escape ++ "\"." ≠ _
      rw [String.append_assoc]
      exact hhead (c := 'I') (by decide +kernel) (by decide)
  | reservedEnumValue name =>
      refine absurd h ?_
      show "Name \"" ++ name ++ "\" is reserved and cannot be used for an enum value." ≠ _
      rw [String.append_assoc]
      exact hhead (c := 'N') (by decide +kernel) (by decide)

/-! ### Labels -/

theorem placeSpan_token {tokens : Array Token} {i : Nat} {t : Token} (h : tokens[i]? = some t) :
    placeSpan tokens ⟨i, i + 1⟩ = t.span := by
  simp [placeSpan, startOf, endOf, h]

theorem token_of_lexemes {source : String} {front rest : List Lexeme} {l : Lexeme}
    (h : (tokenize source).map Token.toLexeme = front ++ l :: rest) :
    ∃ t, (tokenize source)[front.length]? = some t ∧ t.toLexeme = l := by
  have hget := congrArg (·[front.length]?) h
  simp only [List.getElem?_map, List.getElem?_append_right (Nat.le_refl _), Nat.sub_self,
    List.getElem?_cons_zero] at hget
  exact Option.map_eq_some_iff.1 hget

/-- Where a stray description is met, a string is the lexeme in front. -/
theorem stray_of_read {allowed : Bool} {ls : List Lexeme} {e : SyntaxError}
    (hls : ∀ l ∈ ls, l.Coherent) (h : (read allowed ls).error? = some e)
    (hstray : e.fault = .strayDescription) : ∃ front l rest, ls = front ++ l :: rest ∧
      (l.kind = .string ∨ l.kind = .blockString) ∧ e.position = front.length + 1 := by
  obtain ⟨ds, d, hruns, he, -⟩ := read_of_error h
  obtain ⟨front, hfront, hposition, -⟩ := hruns.in_front
  obtain ⟨l, rest, hrest, hkind, hposition'⟩ :=
    stray_of_definition (hruns.coherent hls) he hstray
  refine ⟨front, l, rest, hrest ▸ hfront, hkind, ?_⟩
  rw [hposition', hposition, Nat.zero_add]

theorem culprit_of_ne {e : SyntaxError} (h : e.fault ≠ .strayDescription) :
    e.culprit = e.position := by
  unfold SyntaxError.culprit
  split
  · rename_i hfault
    exact absurd hfault h
  · rfl

/-- The token that is to blame for a stray description is a string. -/
theorem stray_token {allowed : Bool} {source : String} {e : SyntaxError}
    (he : (read allowed (lexemes source)).error? = some e)
    (hstray : e.fault = .strayDescription) :
    ∃ s, (tokenize source)[e.culprit]? = some s ∧ (s.kind = .string ∨ s.kind = .blockString) ∧
      e.position = e.culprit + 1 := by
  obtain ⟨front, l, rest, hlexemes, hkind, hposition⟩ :=
    stray_of_read (fun _ => coherent_of_mem) he hstray
  have hculprit : e.culprit = front.length := by
    rw [SyntaxError.culprit, hstray]
    show e.position - 1 = _
    rw [hposition, Nat.add_sub_cancel]
  have htokens : (tokenize source).map Token.toLexeme = front ++ l :: (rest ++ [.endOfInput]) := by
    rw [map_toLexeme_tokenize_append, hlexemes, List.append_assoc]
    rfl
  obtain ⟨s, hs, rfl⟩ := token_of_lexemes htokens
  exact ⟨s, hculprit ▸ hs, hkind, by rw [hposition, hculprit]⟩

/-- The label covers the token that is to blame. -/
theorem labels_diagnostic {source : String} {e : SyntaxError} {t : Token}
    (h : (tokenize source)[e.culprit]? = some t) :
    (e.diagnostic (tokenize source).toArray).labels.map Label.span = [t.span] := by
  show [placeSpan _ ⟨e.culprit, e.culprit + 1⟩] = _
  rw [placeSpan_token (by rw [List.getElem?_toArray]; exact h)]

/-- Errors are reported at the earliest token. If `k` is the least index such that no source
without a fault starts with the first `k + 1` tokens of this one, the end of the input counted
as a token, then the label of the error covers exactly the token `k`; it covers the string in
front of that token if this is the error about a stray description. -/
theorem label_of_parse (options : ParseOptions) (source : String)
    (h : (parse options source).diagnostics ≠ ⟨[]⟩) :
    ∃ d k t, (parse options source).diagnostics = ⟨[d]⟩ ∧ (tokenize source)[k]? = some t ∧
      IsLeast {j | ¬Viable options (((tokenize source).map Token.toLexeme).take (j + 1))} k ∧
      (d.title ≠ Fault.strayDescription.title → d.labels.map Label.span = [t.span]) ∧
      (d.title = Fault.strayDescription.title → 0 < k ∧ ∃ s, (tokenize source)[k - 1]? = some s ∧
        (s.kind = .string ∨ s.kind = .blockString) ∧ d.labels.map Label.span = [s.span]) := by
  have hc : ∀ l ∈ lexemes source, l.Coherent := fun _ => coherent_of_mem
  rw [Ne, diagnostics_parse_eq_nil_iff, ← Ne, Option.ne_none_iff_exists'] at h
  obtain ⟨e, he⟩ := h
  obtain ⟨front, rest, hlexemes, hposition, halike, more, hmore, ds, d, hne, hruns, hd⟩ :=
    refused_read hc he
  have hrest : ∀ l ∈ rest, l.Coherent := fun l hl =>
    hc l (hlexemes ▸ List.mem_append_right front hl)
  have hviable : Viable options front := viable_of_runs hlexemes hmore hne hruns hd
  obtain ⟨back, htokens⟩ : ∃ back, (tokenize source).map Token.toLexeme =
      front ++ rest.headD .endOfInput :: back := by
    rw [map_toLexeme_tokenize_append, hlexemes, List.append_assoc]
    cases rest with
    | nil => exact ⟨[], rfl⟩
    | cons l rest => exact ⟨rest ++ [.endOfInput], rfl⟩
  obtain ⟨t, ht, -⟩ := token_of_lexemes htokens
  refine ⟨e.diagnostic (tokenize source).toArray, front.length, t, ?_, ht, ⟨?_, fun j hj => ?_⟩,
    fun htitle => labels_diagnostic ?_, fun htitle => ?_⟩
  · rw [diagnostics_parse, he]
    rfl
  · show ¬Viable _ _
    have htake : ((tokenize source).map Token.toLexeme).take (front.length + 1) =
        front ++ [rest.headD .endOfInput] := by
      rw [htokens, List.take_length_add_append]
      rfl
    rw [htake]
    exact not_viable_of_refused hrest halike
  · refine Nat.le_of_not_lt fun hlt => hj (hviable.mono ?_)
    rw [htokens, List.take_append_of_le_length hlt]
    exact List.take_prefix _ _
  · rw [culprit_of_ne fun hfault => htitle (congrArg Fault.title hfault), hposition]
    exact ht
  · obtain ⟨s, hs, hkind, hstray⟩ := stray_token he (Fault.eq_strayDescription htitle)
    rw [← hposition, hstray]
    exact ⟨Nat.succ_pos _, s, hs, hkind, labels_diagnostic hs⟩

/-- The extension says nothing, which is known only at the word behind it. -/
theorem label_of_parse_example :
    let source := "extend type A type B"
    (parse {} source).diagnostics ≠ ⟨[]⟩ ∧
      ∃ d k t, (parse {} source).diagnostics = ⟨[d]⟩ ∧ (tokenize source)[k]? = some t ∧
        IsLeast {j | ¬Viable {} (((tokenize source).map Token.toLexeme).take (j + 1))} k ∧
        d.labels.map Label.span = [t.span] := by
  intro source
  have h : (parse {} source).diagnostics ≠ ⟨[]⟩ := by decide +kernel
  obtain ⟨d, k, t, hd, ht, hleast, hlabel, -⟩ := label_of_parse {} source h
  have htitle : (parse {} source).diagnostics.toList.map Diagnostic.title ≠
      [Fault.strayDescription.title] := by decide +kernel
  rw [hd] at htitle
  exact ⟨h, d, k, t, hd, ht, hleast, hlabel fun heq => htitle (congrArg (fun s => [s]) heq)⟩

end GraphQL
