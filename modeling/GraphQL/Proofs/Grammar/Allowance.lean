import GraphQL.Proofs.Grammar.Continuations
import GraphQL.Proofs.Grammar.Sources

/-!
What allowing variables on fragments changes. Both ways of reading take the same steps up
to the first variable of a fragment, which is a fault where it is not allowed. So where
that fault is not met, the option makes no difference, and where variables are allowed, it
cannot be met.
-/

namespace GraphQL

namespace Grammar

variable {α β : Type}

/-- The second parser does what the first does, unless that stops at a fragment's variables. -/
def Allows (p q : Parser α) : Prop :=
  ∀ c, q c = p c ∨ ∃ n, p c = .error ⟨n, .fragmentVariables⟩

namespace Allows

variable {p p' q q' : Parser α} {f g : α → Parser β}

theorem refl (p : Parser α) : Allows p p := fun _ => .inl rfl

theorem bind (h : Allows p q) (hf : ∀ a, Allows (f a) (g a)) : Allows (p >>= f) (q >>= g) := by
  intro c
  rcases h c with hq | ⟨n, hn⟩
  · rcases hp : p c with e | ⟨a, d⟩
    · left
      show (q c >>= fun x => g x.1 x.2) = (p c >>= fun x => f x.1 x.2)
      rw [hq, hp]
      rfl
    · refine (hf a d).imp (fun hd => ?_) fun ⟨n, hn⟩ => ⟨n, bind_eq_error.2 (.inr ⟨a, d, hp, hn⟩)⟩
      show (q c >>= fun x => g x.1 x.2) = (p c >>= fun x => f x.1 x.2)
      rw [hq, hp]
      exact hd
  · exact .inr ⟨n, bind_eq_error.2 (.inl hn)⟩

/-- What comes before is the same. -/
theorem behind (hf : ∀ a, Allows (f a) (g a)) : Allows (p >>= f) (p >>= g) := (refl p).bind hf

theorem ite {t : Prop} [Decidable t] (h : Allows p q) (h' : Allows p' q') :
    Allows (if t then p else p') (if t then q else q') := by
  split
  · exact h
  · exact h'

theorem spanned {p q : Parser (Option Span → α)} (h : Allows p q) :
    Allows (spanned p) (spanned q) :=
  behind fun _ => h.bind fun _ => refl _

end Allows

theorem allows_fragmentVariables : Allows (fragmentVariables false) (fragmentVariables true) := by
  intro c
  by_cases hk : c.current.kind ∈ [.punctuator .parenOpen]
  · exact .inr ⟨c.position, (spots_sees _).pos hk⟩
  · exact .inl (((spots_sees _).neg hk).trans ((spots_sees _).neg hk).symm)

theorem allows_fragment : Allows (fragment false) (fragment true) :=
  .behind fun _ => .behind fun _ => .ite (.refl _) (.behind fun _ =>
    allows_fragmentVariables.bind fun _ => .refl _)

theorem allows_keywordDefinition (about : Option StringValue) (word : Keyword) :
    Allows (keywordDefinition false about word) (keywordDefinition true about word) := by
  refine .ite (.refl _) ?_
  cases word with
  | fragment => exact allows_fragment.bind fun _ => .refl _
  | _ => exact .refl _

theorem allows_definition : Allows (definition false) (definition true) := by
  refine .spanned (.behind fun _ => .ite (.refl _) (.behind fun about => .behind fun l => ?_))
  cases l.kind with
  | keyword word => exact allows_keywordDefinition about word
  | _ => exact .refl _

/-! ### Documents -/

theorem definitions_eq_ok (allowed : Bool) (c : Cursor) :
    ∃ r d, definitions allowed c = .ok (r, d) := by
  obtain ⟨ds, d, -, ⟨-, -, h⟩ | ⟨e, -, h⟩⟩ := definitions_cases allowed c
  · exact ⟨_, d, h⟩
  · exact ⟨_, d, h⟩

/-- The same definitions are read up to a fragment's variables, and those in front of them
in any case. -/
theorem definitions_allow (c : Cursor) : definitions true c = definitions false c ∨
    ∃ ds n d r e, definitions false c = .ok ((ds, some ⟨n, .fragmentVariables⟩), d) ∧
      definitions true c = .ok (r, e) ∧ ds <+: r.1 := by
  induction hn : c.rest.length using Nat.strongRecOn generalizing c with
  | ind n ih =>
      rcases allows_definition c with hsame | ⟨n, hn⟩
      · cases hx : definition false c with
        | error err =>
            exact .inl ((definitions_of_error (hsame.trans hx)).trans
              (definitions_of_error hx).symm)
        | ok r =>
            obtain ⟨x, d⟩ := r
            by_cases hend : d.current.kind = .endOfInput
            · exact .inl ((definitions_of_last (hsame.trans hx) hend).trans
                (definitions_of_last hx hend).symm)
            · have hlength := (reads_definition false).length_le hx
              rcases ih _ (by omega) d rfl with heq | ⟨ds, m, e, r, e', hds, hr, hprefix⟩
              · obtain ⟨r, e, hr⟩ := definitions_eq_ok false d
                exact .inl ((definitions_of_more (hsame.trans hx) hend (heq.trans hr)).trans
                  (definitions_of_more hx hend hr).symm)
              · exact .inr ⟨x :: ds, m, e, _, e', definitions_of_more hx hend hds,
                  definitions_of_more (hsame.trans hx) hend hr,
                  List.cons_prefix_cons.2 ⟨rfl, hprefix⟩⟩
      · obtain ⟨r, e, hr⟩ := definitions_eq_ok true c
        exact .inr ⟨[], n, c, r, e, definitions_of_error hn, hr, List.nil_prefix⟩

theorem read_allow (ls : List Lexeme) : read true ls = read false ls ∨
    ∃ n, (read false ls).error? = some ⟨n, .fragmentVariables⟩ := by
  rcases definitions_allow ⟨0, ls⟩ with h | ⟨ds, n, d, r, e, hds, -, -⟩
  · left
    rw [read, h, read]
  · right
    rw [read, hds]
    exact ⟨n, rfl⟩

theorem read_definitions {allowed : Bool} {ls : List Lexeme}
    {r : List Definition × Option SyntaxError} {d : Cursor}
    (h : definitions allowed ⟨0, ls⟩ = .ok (r, d)) : (read allowed ls).definitions = r.1 := by
  obtain ⟨ds, _ | e⟩ := r
  · rw [read, h]
  · rw [read, h]

theorem prefix_definitions_read (ls : List Lexeme) :
    (read false ls).definitions <+: (read true ls).definitions := by
  rcases definitions_allow ⟨0, ls⟩ with h | ⟨ds, n, d, r, e, hds, hr, hprefix⟩
  · have hsame : read true ls = read false ls := by rw [read, h, read]
    exact hsame ▸ List.prefix_rfl
  · rw [read_definitions hds, read_definitions hr]
    exact hprefix

theorem Runs.valid {allowed : Bool} {c d : Cursor} {ds : List Definition}
    (h : Runs allowed c ds d) (hc : ∀ l ∈ c.rest, l.Coherent) : ∀ x ∈ ds, x.Valid allowed := by
  induction h with
  | nil => exact List.forall_mem_nil _
  | cons hx _ ih =>
      obtain ⟨ls, hrest, -, -, hvalid⟩ := sound_definition allowed hc _ _ hx
      exact List.forall_mem_cons.2 ⟨hvalid,
        ih fun l hl => hc l (hrest ▸ List.mem_append_right ls hl)⟩

/-- Definitions in front of a fault are valid as well. -/
theorem valid_of_read (allowed : Bool) {ls : List Lexeme} (hc : ∀ l ∈ ls, l.Coherent) :
    ∀ x ∈ (read allowed ls).definitions, x.Valid allowed := by
  obtain ⟨d, hruns⟩ := runs_read allowed ls
  exact hruns.valid hc

/-- Where variables are allowed, they are no fault. -/
theorem fault_of_read {ls : List Lexeme} {e : SyntaxError}
    (h : (read true ls).error? = some e) : e.fault ≠ .fragmentVariables := by
  obtain ⟨ds, d, -, he, -⟩ := read_of_error h
  obtain ⟨_, _, _, _, hpossible, _⟩ := (steady_definition true d).refused he
  intro hfault
  rw [hfault] at hpossible
  cases hpossible

end Grammar

/-! ### Sources -/

open Grammar

theorem Fault.eq_fragmentVariables {f : Fault} (h : f.code = .fragmentVariables) :
    f = .fragmentVariables := by
  cases f with
  | fragmentVariables => rfl
  | unexpected l =>
      obtain ⟨kind, text⟩ := l
      cases kind <;> cases h
  | expected wanted l =>
      obtain ⟨kind, text⟩ := l
      cases kind <;> cases h
  | strayDescription => cases h
  | invalidEscape escape => cases h
  | reservedEnumValue name => cases h

theorem parse_congr {b b' : Bool} {source : String}
    (h : read b (lexemes source) = read b' (lexemes source)) :
    parse ⟨b⟩ source = parse ⟨b'⟩ source := by
  rw [← map_toLexeme_tokenize] at h
  simp only [parse, h]

/-- The option only adds. Where it makes a difference, the source is refused without it
because of a fragment's variables. The definitions that are read without it are read with it,
no fragment among them has variables, and with it variables are never a fault. -/
theorem parse_allow (source : String) :
    (parse ⟨true⟩ source = parse ⟨false⟩ source ∨
      ∃ d, (parse ⟨false⟩ source).diagnostics = ⟨[d]⟩ ∧ d.code = .fragmentVariables) ∧
    (parse ⟨false⟩ source).document.definitions <+: (parse ⟨true⟩ source).document.definitions ∧
    (∀ f, Definition.fragment f ∈ (parse ⟨false⟩ source).document.definitions →
      f.variableDefinitions = none) ∧
    ∀ d ∈ (parse ⟨true⟩ source).diagnostics.toList, d.code ≠ .fragmentVariables := by
  refine ⟨(read_allow (lexemes source)).imp parse_congr ?_, ?_, fun f hf => ?_, fun d hd => ?_⟩
  · rintro ⟨n, hn⟩
    rw [diagnostics_parse, hn]
    exact ⟨_, rfl, rfl⟩
  · rw [definitions_parse, definitions_parse]
    exact (prefix_definitions_read (lexemes source)).map _
  · rw [definitions_parse] at hf
    obtain ⟨x, hx, hfx⟩ := List.mem_map.1 hf
    have hvalid : (Definition.fragment f).Valid false := by
      rw [← hfx]
      exact Definition.Valid.mapSpans _
        (valid_of_read false (fun _ => coherent_of_mem) x hx)
    refine Option.eq_none_iff_forall_ne_some.2 fun vs hvs => ?_
    cases (FragmentDefinition.Valid.variableDefinitions hvalid vs hvs).1
  · rw [diagnostics_parse] at hd
    obtain ⟨e, he, rfl⟩ := Option.map_eq_some_iff.1 (Option.mem_toList.1 hd)
    exact fun hcode => fault_of_read he (Fault.eq_fragmentVariables hcode)

/-- The query is read either way, and the fragment only where it may have variables. -/
theorem parse_allow_example :
    let source := "\x7b a \x7d fragment F($v: T) on A \x7b b \x7d"
    (parse ⟨false⟩ source).diagnostics.toList.map Diagnostic.code = [.fragmentVariables] ∧
      (parse ⟨true⟩ source).diagnostics = ⟨[]⟩ ∧
      (parse ⟨false⟩ source).document.definitions <+: (parse ⟨true⟩ source).document.definitions ∧
      ∀ f, Definition.fragment f ∈ (parse ⟨false⟩ source).document.definitions →
        f.variableDefinitions = none := by
  intro source
  obtain ⟨-, hprefix, hnone, -⟩ := parse_allow source
  exact ⟨by decide +kernel, by decide +kernel, hprefix, hnone⟩

end GraphQL
