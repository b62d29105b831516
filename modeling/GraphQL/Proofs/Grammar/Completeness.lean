import GraphQL.Proofs.Grammar.Lookahead
import GraphQL.Proofs.Grammar.Validity

/-!
Every spelling of a valid tree is read as that tree. One lexeme is always enough
to choose between the branches of the grammar, although keywords are names and
optional parts follow one another. Lists of kinds tell what must not stand
behind a production; what does stand there is never among them.
-/

namespace GraphQL.Grammar

variable {α β γ : Type}

/-! ### Values -/

/-- Clears a span. -/
def noSpan : Option Span → Option Span := fun _ => none

variable {follow P : TokenKind → Prop}

theorem complete_name (n : Name) :
    Complete name n.slots follow fun n' => n'.mapSpans noSpan = n.mapSpans noSpan :=
  .spanned (.expectName (.pure fun _ => rfl))

theorem complete_stringValueNode (v : StringValue) :
    Complete stringValueNode v.slots follow fun v' => v'.mapSpans noSpan = v.mapSpans noSpan := by
  obtain ⟨value, block, s⟩ := v
  refine .spanned (.current_string fun l hl => ?_)
  cases block with
  | true =>
      obtain ⟨hkind, rfl⟩ := hl
      rw [hkind]
      exact .expect_string (fun _ h => h.1) fun _ => .pure fun _ => rfl
  | false =>
      obtain ⟨hkind, hvalue⟩ := hl
      rw [hkind, hvalue]
      exact .expect_string (fun _ h => h.1) fun _ => .pure fun _ => rfl

theorem complete_description (o : Option StringValue) :
    Complete description (descriptionSlots o) (avoids [.string, .blockString])
      fun o' => o'.map (·.mapSpans noSpan) = o.map (·.mapSpans noSpan) := by
  cases o with
  | none => exact .seesString_false (.nil fun _ hk => hk) (.pure rfl)
  | some v =>
      refine .seesString_true (.last (complete_stringValueNode v) fun v' hv => ?_)
      exact congrArg some hv

theorem complete_argumentOf {value : Parser Value} {a : Argument}
    (hv : Complete value a.value.slots follow fun v =>
      v.mapSpans noSpan = a.value.mapSpans noSpan) :
    Complete (argumentOf value) a.slots follow fun a' =>
      a'.mapSpans noSpan = a.mapSpans noSpan := by
  rw [Argument.slots_eq]
  refine .spanned (.bind_free (complete_name a.name) fun n hn => .mark (.last hv fun v hv s => ?_))
  simp [Argument.mapSpans_eq, hn, hv, noSpan]

theorem leads_value (v : Value) :
    Leads v.slots follow (avoids [.punctuator .bracketClose]) := by
  cases v with
  | int t s => exact .lexeme (show avoids _ .int by decide)
  | float t s => exact .lexeme (show avoids _ .float by decide)
  | string v => exact .string (by decide) (by decide)
  | boolean b s => cases b <;> exact .lexeme (by decide)
  | enum n => exact .word fun k => avoids.of_isName rfl
  | _ => exact .lexeme (by decide)

theorem leads_argument (hP : ∀ k : TokenKind, k.isName = true → P k) (a : Argument) :
    Leads a.slots follow P := by
  rw [Argument.slots_eq]
  exact .word hP

/-- A name that is not reserved is no keyword, or one that is no value. -/
theorem kind_of_unreserved {n : Name} (h : n.Unreserved) :
    TokenKind.ofName n.value = .name ∨ ∃ k : Keyword, k ≠ .trueWord ∧ k ≠ .falseWord ∧
      k ≠ .nullWord ∧ TokenKind.ofName n.value = .keyword k := by
  unfold TokenKind.ofName
  split
  · rename_i k hk
    have hword := Keyword.word_of_ofWord? hk
    refine .inr ⟨k, ?_, ?_, ?_, rfl⟩
    · rintro rfl
      exact h.1 hword.symm
    · rintro rfl
      exact h.2.1 hword.symm
    · rintro rfl
      exact h.2.2 hword.symm
  · exact .inl rfl

theorem complete_string {const : Bool} (v : StringValue) :
    Complete (value const) (Value.string v).slots follow fun v' =>
      v'.mapSpans noSpan = (Value.string v).mapSpans noSpan := by
  rw [value_eq]
  obtain ⟨text, block, s⟩ := v
  refine .current_string fun l hl => ?_
  have hnode : Complete (do return Value.string (← stringValueNode))
      (Value.string ⟨text, block, s⟩).slots follow fun v =>
        v.mapSpans noSpan = (Value.string ⟨text, block, s⟩).mapSpans noSpan :=
    .last (complete_stringValueNode ⟨text, block, s⟩) fun v' hv => congrArg Value.string hv
  cases block with
  | true =>
      rw [show l.kind = .blockString from hl.1]
      exact hnode
  | false =>
      rw [show l.kind = .string from hl.1]
      exact hnode

/-- A name that is not reserved is read as an enum value. -/
theorem complete_enum {const : Bool} {n : Name} (h : n.Unreserved) :
    Complete (value const) (Value.enum n).slots follow fun v =>
      v.mapSpans noSpan = (Value.enum n).mapSpans noSpan := by
  rw [value_eq]
  refine .current ?_
  have hword : Complete (do return Value.enum (← name)) n.slots follow fun v =>
      v.mapSpans noSpan = (Value.enum n).mapSpans noSpan :=
    .last (complete_name n) fun n' hn => congrArg Value.enum hn
  rcases kind_of_unreserved h with hkind | ⟨k, ht, hf, hn, hkind⟩
  · rw [show (Lexeme.word n.value).kind = .name from hkind]
    exact hword
  · rw [show (Lexeme.word n.value).kind = .keyword k from hkind]
    cases k with
    | trueWord => exact absurd rfl ht
    | falseWord => exact absurd rfl hf
    | nullWord => exact absurd rfl hn
    | _ => exact hword

theorem complete_value {const : Bool} {v : Value} (hv : v.Valid const) :
    Complete (value const) v.slots follow fun v' =>
      v'.mapSpans noSpan = v.mapSpans noSpan := by
  have hreads := reads_value const
  -- Inside a list or an object something else may follow than behind the whole.
  induction hv generalizing follow with
  | var n hconst =>
      subst hconst
      rw [value_eq]
      refine .current (.mark (.last (complete_name n) fun n' hn => ?_))
      exact congrArg Value.variable hn
  | int t s =>
      rw [value_eq]
      exact .current (.spanned (.expect rfl (.pure fun _ => rfl)))
  | float t s =>
      rw [value_eq]
      exact .current (.spanned (.expect rfl (.pure fun _ => rfl)))
  | string v => exact complete_string v
  | boolean b s =>
      rw [value_eq]
      cases b with
      | true => exact .current (.spanned (.keyword (.pure fun _ => rfl)))
      | false => exact .current (.spanned (.keyword (.pure fun _ => rfl)))
  | null s =>
      rw [value_eq]
      exact .current (.spanned (.keyword (.pure fun _ => rfl)))
  | enum n hn => exact complete_enum hn
  | list vs s _ ih =>
      rw [value_eq, Value.slots_list]
      refine .current (.spanned (.mark (.last (.upTo (fun v hv => ih v hv) hreads leads_value
        (by decide)) fun vs' hvs s => ?_)))
      simp [Value.mapSpans, hvs, noSpan]
  | object fs s _ ih =>
      rw [value_eq, Value.slots_object]
      have hargument : ∀ a ∈ fs, Complete (argumentOf (value const)) a.slots (avoids [])
          fun a' => a'.mapSpans noSpan = a.mapSpans noSpan :=
        fun a ha => complete_argumentOf (ih a ha)
      refine .current (.spanned (.mark (.last (.upTo hargument (reads_argumentOf hreads.zero)
        (leads_argument fun k => avoids.of_isName rfl) (by decide)) fun fs' hfs s => ?_)))
      simp [Value.mapSpans, hfs, noSpan]

theorem complete_arguments {const : Bool} {as : List Argument}
    (has : ∀ a ∈ as, a.Valid const) :
    Complete (arguments const) (argumentSlots as) (avoids [.punctuator .parenOpen])
      fun as' => as'.map (·.mapSpans noSpan) = as.map (·.mapSpans noSpan) := by
  have hargument : ∀ a ∈ as, Complete (argumentOf (value const)) a.slots (avoids [])
      fun a' => a'.mapSpans noSpan = a.mapSpans noSpan :=
    fun a ha => complete_argumentOf (complete_value (has a ha))
  exact .optionalMany hargument (reads_argumentOf (reads_value const).zero)
    (leads_argument fun k => avoids.of_isName rfl) (by decide)

theorem complete_directive {const : Bool} {d : Directive} (hd : d.Valid const) :
    Complete (directive const) d.slots (avoids [.punctuator .parenOpen]) fun d' =>
      d'.mapSpans noSpan = d.mapSpans noSpan := by
  refine .spanned (.mark (.bind_free (complete_name d.name) fun n hn =>
    .last (complete_arguments hd.arguments) fun as has s => ?_))
  simp [Directive.mapSpans, hn, has, noSpan]

theorem leads_directive (d : Directive) :
    Leads d.slots follow (· = .punctuator .atSign) :=
  .lexeme rfl

theorem complete_directives {const : Bool} {ds : List Directive}
    (hds : ∀ d ∈ ds, d.Valid const) :
    Complete (directives const) (ds.flatMap Directive.slots)
      (avoids [.punctuator .atSign, .punctuator .parenOpen])
      fun ds' => ds'.map (·.mapSpans noSpan) = ds.map (·.mapSpans noSpan) :=
  .whileSees (fun d hd => complete_directive (hds d hd)) (reads_directive const)
    leads_directive (by decide)

theorem leads_directives (ds : List Directive) (h : P (.punctuator .atSign)) :
    Leads (ds.flatMap Directive.slots) P P :=
  .flatMap (fun d => (leads_directive d).imp fun _ hk => hk ▸ h) ds

/-! ### Types -/

/-- A type without an exclamation mark, in front of which none may stand. -/
theorem complete_typeRef_of_nullable {t : TypeRef}
    (h : Complete (nullableTypeRef typeRef) t.slots anything fun t' =>
      t'.mapSpans noSpan = t.mapSpans noSpan) :
    Complete typeRef t.slots (avoids [.punctuator .bang]) fun t' =>
      t'.mapSpans noSpan = t.mapSpans noSpan := by
  rw [typeRef_eq, ← List.append_nil t.slots]
  refine .position fun n => .bind_free h fun t' ht => ?_
  exact .accept_false (.nil fun _ hk => (avoids.cons.1 hk).1) (.pure ht)

theorem complete_typeRef {t : TypeRef} (hv : t.Valid) :
    Complete typeRef t.slots (avoids [.punctuator .bang]) fun t' =>
      t'.mapSpans noSpan = t.mapSpans noSpan := by
  -- An exclamation mark goes with the type in front of it, which must be read without one.
  have hboth : Complete typeRef t.slots (avoids [.punctuator .bang]) (fun t' =>
        t'.mapSpans noSpan = t.mapSpans noSpan) ∧
      (t.isNonNull = false → Complete (nullableTypeRef typeRef) t.slots anything fun t' =>
        t'.mapSpans noSpan = t.mapSpans noSpan) := by
    induction t with
    | named n =>
        have hnull : Complete (nullableTypeRef typeRef) (TypeRef.named n).slots anything
            fun t' => t'.mapSpans noSpan = (TypeRef.named n).mapSpans noSpan := by
          refine .sees_false (.word ?_) (.last (complete_name n) fun n' hn => ?_)
          · rintro k hk rfl
            cases hk
          · exact congrArg TypeRef.named hn
        exact ⟨complete_typeRef_of_nullable hnull, fun _ => hnull⟩
    | list t s ih =>
        have hnull : Complete (nullableTypeRef typeRef) (TypeRef.list t s).slots anything
            fun t' => t'.mapSpans noSpan = (TypeRef.list t s).mapSpans noSpan := by
          refine .sees_true (.lexeme rfl) (.spanned (.mark (.bind (ih hv).1 (.lexeme (by decide))
            fun t' ht => .mark (.pure fun s' => ?_))))
          simp [TypeRef.mapSpans, ht, noSpan]
        exact ⟨complete_typeRef_of_nullable hnull, fun _ => hnull⟩
    | nonNull t s ih =>
        refine ⟨?_, fun hnon => absurd hnon (by simp [TypeRef.isNonNull])⟩
        rw [typeRef_eq]
        refine .position fun n => .bind_free ((ih hv.2).2 hv.1) fun t' ht =>
          .accept_true rfl (.position fun m => .pure ?_)
        simp [TypeRef.mapSpans, ht, noSpan]
  exact hboth.1

/-! ### Selections -/

theorem leads_selectionSet (set : SelectionSet) :
    Leads set.slots follow (· = .punctuator .braceOpen) := by
  rw [SelectionSet.slots_eq]
  exact .lexeme rfl

theorem leads_optionalSet (o : Option SelectionSet) (h : P (.punctuator .braceOpen)) :
    Leads (optionalSlots SelectionSet.slots o) P P :=
  .optionalSlots (fun set => (leads_selectionSet set).imp fun _ hk => hk ▸ h) o

/-- The kinds that go on with a selection. -/
def selectionKinds : List TokenKind :=
  [.punctuator .braceOpen, .punctuator .atSign, .punctuator .parenOpen, .punctuator .colon]

theorem leads_field (hP : ∀ k : TokenKind, k.isName = true → P k) (x : Field) :
    Leads x.slots follow P := by
  obtain ⟨a, n, as, ds, set, s⟩ := x
  rw [Field.slots_eq]
  cases a with
  | none => exact .word hP
  | some a => exact .word hP

theorem leads_selection (hP : ∀ k : TokenKind, k.isName = true → P k)
    (hs : P (.punctuator .spread)) (x : Selection) : Leads x.slots follow P := by
  cases x with
  | field x => exact leads_field hP x
  | fragmentSpread x => exact .lexeme hs
  | inlineFragment x =>
      rw [Selection.slots, InlineFragment.slots_eq]
      exact .lexeme hs

/-- A name behind a lexeme, or neither. -/
theorem complete_afterName {l : Lexeme} {kind : TokenKind} (hl : l.kind = kind)
    (o : Option Name) :
    Complete (after kind name) (optionalSlots (fun n => .lexeme l :: n.slots) o) (avoids [kind])
      fun o' => o'.map (·.mapSpans noSpan) = o.map (·.mapSpans noSpan) :=
  .after (fun n _ => complete_name n) hl

/-- What follows the names of a field. -/
theorem complete_fieldParts {set : Parser SelectionSet} {x : Field} {R : β → Prop}
    {f : List Argument → List Directive → Option SelectionSet → Parser β}
    (hown : (Selection.field x).OwnValid)
    (hset : ∀ y ∈ x.selectionSet, Complete set y.slots anything fun y' =>
      y'.mapSpans noSpan = y.mapSpans noSpan)
    (hf : ∀ as ds o, as.map (·.mapSpans noSpan) = x.arguments.map (·.mapSpans noSpan) →
      ds.map (·.mapSpans noSpan) = x.directives.map (·.mapSpans noSpan) →
      o.map (·.mapSpans noSpan) = x.selectionSet.map (·.mapSpans noSpan) →
      Complete (f as ds o) [] (avoids selectionKinds) R) :
    Complete (do
        let as ← arguments false
        let ds ← directives false
        let o ← onlyIf (sees (.punctuator .braceOpen)) set
        f as ds o)
      (argumentSlots x.arguments ++ (x.directives.flatMap Directive.slots ++
        optionalSlots SelectionSet.slots x.selectionSet)) (avoids selectionKinds) R := by
  refine .bind (complete_arguments hown.1) ?_ fun as has =>
    .bind (complete_directives hown.2) ?_ fun ds hds => ?_
  · exact .append (leads_directives _ (by decide))
      ((leads_optionalSet _ (by decide)).of_follow (avoids.mono (by decide)))
  · exact (leads_optionalSet _ (by decide)).of_follow (avoids.mono (by decide))
  · rw [← List.append_nil (optionalSlots SelectionSet.slots x.selectionSet)]
    have hset' : ∀ y ∈ x.selectionSet, Complete set y.slots (avoids []) fun y' =>
        y'.mapSpans noSpan = y.mapSpans noSpan :=
      fun y hy => .mono (hset y hy) fun _ _ => trivial
    refine .bind (.onlyIf_sees hset' leads_selectionSet) (.nil (avoids.mono (by decide)))
      fun o ho => hf as ds o has hds ho

section
variable {set : Parser SelectionSet}

/-- The names of a field, of which the first may be its alias. -/
def fieldNames (x : Field) : Name × Option Name :=
  match x.aliasName with
  | none => (x.name, none)
  | some a => (a, some x.name)

theorem slots_eq_fieldNames (x : Field) :
    x.slots = (fieldNames x).1.slots ++
      (optionalSlots (fun n => .lexeme (.punctuator .colon) :: n.slots) (fieldNames x).2 ++
        (argumentSlots x.arguments ++ (x.directives.flatMap Directive.slots ++
          optionalSlots SelectionSet.slots x.selectionSet))) := by
  rw [Field.slots_eq]
  obtain ⟨a, n, as, ds, o, s⟩ := x
  cases a with
  | none => rfl
  | some a => simp [fieldNames, aliasSlots, optionalSlots, Slot.mark]

theorem complete_field {x : Field} (hown : (Selection.field x).OwnValid)
    (hset : ∀ y ∈ x.selectionSet, Complete set y.slots anything fun y' =>
      y'.mapSpans noSpan = y.mapSpans noSpan) :
    Complete (field set) x.slots (avoids selectionKinds) fun x' =>
      x'.mapSpans noSpan = x.mapSpans noSpan := by
  have hnext : Leads (argumentSlots x.arguments ++ (x.directives.flatMap Directive.slots ++
      optionalSlots SelectionSet.slots x.selectionSet)) (avoids selectionKinds)
      (avoids [.punctuator .colon]) :=
    .append (.group _ (by decide)) (.append (leads_directives _ (by decide))
      ((leads_optionalSet _ (by decide)).of_follow (avoids.mono (by decide))))
  rw [slots_eq_fieldNames]
  refine .spanned (.bind_free (complete_name _) fun first hfirst =>
    .bind (complete_afterName (l := .punctuator .colon) rfl _) hnext fun second hsecond => ?_)
  cases ha : x.aliasName with
  | none =>
      simp only [fieldNames, ha, Option.map_none, Option.map_eq_none_iff] at hfirst hsecond
      subst hsecond
      refine complete_fieldParts hown hset fun as ds o has hds ho => .pure fun s => ?_
      simp [Field.mapSpans_eq, ha, hfirst, has, hds, ho, noSpan]
  | some a =>
      simp only [fieldNames, ha, Option.map_some, Option.map_eq_some_iff] at hfirst hsecond
      obtain ⟨n, rfl, hn⟩ := hsecond
      refine complete_fieldParts hown hset fun as ds o has hds ho => .pure fun s => ?_
      simp [Field.mapSpans_eq, ha, hfirst, hn, has, hds, ho, noSpan]

/-- Of all names only a keyword's own text has the kind of the keyword. -/
theorem eq_word_of_ofName {w : String} {k : Keyword} (h : TokenKind.ofName w = .keyword k) :
    w = k.word := by
  unfold TokenKind.ofName at h
  split at h
  · rename_i hk
    cases h
    exact (Keyword.word_of_ofWord? hk).symm
  · cases h

/-- The kinds with which the name of a fragment starts behind three dots. -/
def namesFragment (k : TokenKind) : Prop := k.isName = true ∧ k ≠ .keyword .on

instance : DecidablePred namesFragment := fun k =>
  inferInstanceAs (Decidable (k.isName = true ∧ k ≠ .keyword .on))

theorem complete_fragmentSpread {x : FragmentSpread}
    (hown : (Selection.fragmentSpread x).OwnValid) :
    Complete (spread set) x.slots (avoids selectionKinds) fun build => ∀ s,
      (build s).mapSpans noSpan = (Selection.fragmentSpread x).mapSpans noSpan := by
  have hname : namesFragment (.ofName x.name.value) :=
    ⟨isName_ofName _, fun h => hown.1 (eq_word_of_ofName h)⟩
  refine .mark (.current_pos (t := namesFragment) (.append_left (.lexeme hname)) ?_)
  refine .bind_free (complete_name x.name) fun n hn =>
    .last (.mono (complete_directives hown.2) (avoids.mono (by decide))) fun ds hds s => ?_
  simp [Selection.mapSpans, FragmentSpread.mapSpans, hn, hds, noSpan]

theorem complete_inlineFragment {x : InlineFragment}
    (hown : (Selection.inlineFragment x).OwnValid)
    (hset : Complete set x.selectionSet.slots anything fun y =>
      y.mapSpans noSpan = x.selectionSet.mapSpans noSpan) :
    Complete (spread set) x.slots follow fun build => ∀ s,
      (build s).mapSpans noSpan = (Selection.inlineFragment x).mapSpans noSpan := by
  have hdirs : ∀ P : TokenKind → Prop, P (.punctuator .atSign) → P (.punctuator .braceOpen) →
      Leads (x.directives.flatMap Directive.slots ++ x.selectionSet.slots) follow P :=
    fun P ha hb => .append (leads_directives _ ha)
      ((leads_selectionSet _).imp fun _ hk => hk ▸ hb)
  have hstart : Leads (conditionSlots x.typeCondition ++
      (x.directives.flatMap Directive.slots ++ x.selectionSet.slots)) follow
      (¬namesFragment ·) :=
    .append (.optionalSlots (fun n => .lexeme (by decide)) _) (hdirs _ (by decide) (by decide))
  rw [InlineFragment.slots_eq]
  refine .mark (.current_neg (t := namesFragment) hstart ?_)
  have hbehind := hdirs (avoids [.keyword .on]) (by decide) (by decide)
  have hbrace : Leads x.selectionSet.slots follow
      (avoids [.punctuator .atSign, .punctuator .parenOpen]) :=
    (leads_selectionSet _).imp fun _ hk => hk ▸ by decide
  refine .bind (complete_afterName (l := .keyword .on) rfl _) hbehind fun c hc => ?_
  refine .bind (complete_directives hown) hbrace fun ds hds => ?_
  refine .last (.mono hset fun _ _ => trivial) fun y hy s => ?_
  simp [Selection.mapSpans, InlineFragment.mapSpans_eq, hc, hds, hy, noSpan]

theorem complete_selection {x : Selection} (hown : x.OwnValid)
    (hset : ∀ y ∈ x.inner?, Complete set y.slots anything fun y' =>
      y'.mapSpans noSpan = y.mapSpans noSpan) :
    Complete (selection set) x.slots (avoids selectionKinds) fun x' =>
      x'.mapSpans noSpan = x.mapSpans noSpan := by
  cases x with
  | field x =>
      refine .sees_false (leads_field ?_ x) (.map (complete_field hown hset) fun x' hx => ?_)
      · rintro k hk rfl
        cases hk
      · exact congrArg Selection.field hx
  | fragmentSpread x =>
      exact .sees_true (.lexeme rfl) (.spanned (complete_fragmentSpread hown))
  | inlineFragment x =>
      refine .sees_true ?_ (.spanned (complete_inlineFragment hown (hset _ rfl)))
      rw [Selection.slots, InlineFragment.slots_eq]
      exact .lexeme rfl

end

theorem complete_selectionSet {set : SelectionSet} (hv : set.Valid) :
    Complete selectionSet set.slots follow fun set' =>
      set'.mapSpans noSpan = set.mapSpans noSpan := by
  induction hv generalizing follow with
  | mk ss s hne hown _ ih =>
      rw [selectionSet_eq, SelectionSet.slots_eq]
      refine .spanned (.last (.many (fun x hx => complete_selection (hown x hx) fun y hy =>
        ih x hx y hy) (reads_selection reads_selectionSet.zero)
        (leads_selection (fun k => avoids.of_isName rfl) (by decide)) (by decide) hne)
        fun ss' hss s' => ?_)
      simp [SelectionSet.mapSpans, hss, noSpan]

/-! ### What is executed -/

theorem complete_default {o : Option Value} (ho : ∀ v ∈ o, v.Valid true) :
    Complete (after (.punctuator .equals) (value true)) (defaultSlots o)
      (avoids [.punctuator .equals])
      fun o' => o'.map (·.mapSpans noSpan) = o.map (·.mapSpans noSpan) :=
  .after (fun v hv => complete_value (ho v hv)) rfl

theorem leads_default (o : Option Value) (h : P (.punctuator .equals)) :
    Leads (defaultSlots o) P P :=
  .optionalSlots (fun _ => .lexeme h) o

/-- The kinds that go on with something that has a type. -/
def typedKinds : List TokenKind :=
  [.punctuator .bang, .punctuator .equals, .punctuator .atSign, .punctuator .parenOpen]

/-- What follows the name of a variable, an argument or an input field. -/
theorem complete_typedParts {f : TypeRef → Option Value → List Directive → β} {R : β → Prop}
    {t : TypeRef} {o : Option Value} {ds : List Directive} (ht : t.Valid)
    (ho : ∀ v ∈ o, v.Valid true) (hds : ∀ d ∈ ds, d.Valid true)
    (hf : ∀ t' o' ds', t'.mapSpans noSpan = t.mapSpans noSpan →
      o'.map (·.mapSpans noSpan) = o.map (·.mapSpans noSpan) →
      ds'.map (·.mapSpans noSpan) = ds.map (·.mapSpans noSpan) → R (f t' o' ds')) :
    Complete (do
        let _ ← expect (.punctuator .colon)
        let t ← typeRef
        let o ← after (.punctuator .equals) (value true)
        let ds ← directives true
        return f t o ds)
      (.mark .colon :: (t.slots ++ (defaultSlots o ++ ds.flatMap Directive.slots)))
      (avoids typedKinds) R := by
  -- Directives may stand behind the type and behind the default, or neither.
  have hdirs : ∀ ks : List TokenKind, (∀ k ∈ ks, k ∈ typedKinds) →
      avoids ks (.punctuator .atSign) →
      Leads (ds.flatMap Directive.slots) (avoids typedKinds) (avoids ks) := fun ks hks ha =>
    (leads_directives ds ha).of_follow (avoids.mono hks)
  have hbehindType : Leads (defaultSlots o ++ ds.flatMap Directive.slots) (avoids typedKinds)
      (avoids [.punctuator .bang]) :=
    .append (leads_default o (by decide)) (hdirs _ (by decide) (by decide))
  have hbehindDefault := hdirs [.punctuator .equals] (by decide) (by decide)
  refine .mark (.bind (complete_typeRef ht) hbehindType fun t' ht' => ?_)
  refine .bind (complete_default ho) hbehindDefault fun o' ho' => ?_
  refine .last (.mono (complete_directives hds) (avoids.mono (by decide))) fun ds' hds' => ?_
  exact hf t' o' ds' ht' ho' hds'

theorem complete_variableDefinition {d : VariableDefinition} (hd : d.Valid) :
    Complete variableDefinition d.slots (avoids typedKinds) fun d' =>
      d'.mapSpans noSpan = d.mapSpans noSpan := by
  refine .spanned (.mark (.bind_free (complete_name d.name) fun n hn =>
    complete_typedParts hd.type hd.defaultValue hd.directives fun t o ds ht ho hds s => ?_))
  simp [VariableDefinition.mapSpans, hn, ht, ho, hds, noSpan]

theorem complete_variableDefinitions {vs : List VariableDefinition} (hvs : ∀ v ∈ vs, v.Valid) :
    Complete variableDefinitions (variableSlots vs) (avoids [.punctuator .parenOpen])
      fun vs' => vs'.map (·.mapSpans noSpan) = vs.map (·.mapSpans noSpan) :=
  .optionalMany (fun v hv => complete_variableDefinition (hvs v hv)) reads_variableDefinition
    (fun _ => .lexeme (by decide)) (by decide)

theorem complete_operationType (t : OperationType) :
    Complete operationType [.keyword t.keyword] follow (· = t) := by
  cases t with
  | query => exact .current (.keyword (.pure rfl))
  | mutation => exact .current (.keyword (.pure rfl))
  | subscription => exact .current (.keyword (.pure rfl))

theorem leads_variables (vs : List VariableDefinition) (h : P (.punctuator .parenOpen)) :
    Leads (variableSlots vs) P P :=
  .group vs h

/-- What stands between the head of an operation and its end. -/
theorem leads_selecting {ds : List Directive} {set : SelectionSet}
    (ha : P (.punctuator .atSign)) (hb : P (.punctuator .braceOpen)) :
    Leads (ds.flatMap Directive.slots ++ set.slots) follow P :=
  .append (leads_directives ds ha) ((leads_selectionSet set).imp fun _ hk => hk ▸ hb)

/-- Directives and a selection set, with which all that is executed ends. -/
theorem complete_selecting {f : List Directive → SelectionSet → β} {R : β → Prop}
    {ds : List Directive} {set : SelectionSet} (hds : ∀ d ∈ ds, d.Valid false)
    (hset : set.Valid)
    (hf : ∀ ds' set', ds'.map (·.mapSpans noSpan) = ds.map (·.mapSpans noSpan) →
      set'.mapSpans noSpan = set.mapSpans noSpan → R (f ds' set')) :
    Complete (do
        let ds ← directives false
        let set ← selectionSet
        return f ds set)
      (ds.flatMap Directive.slots ++ set.slots) follow R :=
  .bind (complete_directives hds) ((leads_selectionSet set).imp fun _ hk => hk ▸ by decide)
    fun ds' hds' => .last (complete_selectionSet hset) fun set' hset' => hf ds' set' hds' hset'

/-- An operation that has its keyword. -/
theorem complete_operation {d : OperationDefinition} (hd : d.Valid) :
    Complete operation (.keyword d.operation.keyword :: (optionalSlots Name.slots d.name ++
      (variableSlots d.variableDefinitions ++
        (d.directives.flatMap Directive.slots ++ d.selectionSet.slots)))) follow
      fun build => ∀ s, (build s).mapSpans noSpan = d.mapSpans noSpan := by
  have hnext : Leads (variableSlots d.variableDefinitions ++
      (d.directives.flatMap Directive.slots ++ d.selectionSet.slots)) follow
      (·.isName = false) :=
    .append (leads_variables _ rfl) (leads_selecting rfl rfl)
  have hname : Complete (onlyIf seesName name) (optionalSlots Name.slots d.name)
      (·.isName = false) fun o => o.map (·.mapSpans noSpan) = d.name.map (·.mapSpans noSpan) := by
    cases d.name with
    | none => exact .seesName (.nil fun _ hk => hk) (.pure rfl)
    | some n =>
        refine .seesName (.lexeme (isName_ofName _)) (.last (complete_name n) fun n' hn => ?_)
        exact congrArg some hn
  show Complete _ ([.keyword _] ++ _) _ _
  have hbehindVariables : Leads (d.directives.flatMap Directive.slots ++ d.selectionSet.slots)
      follow (avoids [.punctuator .parenOpen]) := leads_selecting (by decide) (by decide)
  refine .bind_free (complete_operationType d.operation) fun t ht => .bind hname hnext
    fun n hn => ?_
  refine .bind (complete_variableDefinitions hd.variableDefinitions) hbehindVariables
    fun vs hvs => ?_
  refine complete_selecting hd.directives hd.selectionSet fun ds set hds hset s => ?_
  simp [OperationDefinition.mapSpans, ht, hn, hvs, hds, hset, noSpan]

theorem complete_shorthandQuery {d : OperationDefinition} (hd : d.Valid)
    (hplain : d.isPlain = true) :
    Complete shorthandQuery d.selectionSet.slots follow
      fun build => ∀ s, (build s).mapSpans noSpan = d.mapSpans noSpan := by
  simp only [OperationDefinition.isPlain, Bool.and_eq_true, beq_iff_eq,
    Option.isNone_iff_eq_none, List.isEmpty_iff] at hplain
  obtain ⟨⟨⟨ho, hn⟩, hvs⟩, hds⟩ := hplain
  refine .last (complete_selectionSet hd.selectionSet) fun set hset s => ?_
  simp [OperationDefinition.mapSpans, ho, hn, hvs, hds, hset, noSpan]

theorem complete_fragmentVariables {allowed : Bool} {o : Option (List VariableDefinition)}
    (ho : ∀ vs ∈ o, allowed = true ∧ vs ≠ [] ∧ ∀ v ∈ vs, v.Valid) :
    Complete (fragmentVariables allowed) (optionalSlots variableSlots o)
      (avoids [.punctuator .parenOpen]) fun o' =>
        o'.map (·.map (·.mapSpans noSpan)) = o.map (·.map (·.mapSpans noSpan)) := by
  cases o with
  | none => exact .sees_false (.nil fun _ hk => (avoids.cons.1 hk).1) (.pure rfl)
  | some vs =>
      obtain ⟨rfl, hne, hvs⟩ := ho vs rfl
      cases vs with
      | nil => exact absurd rfl hne
      | cons v vs =>
          refine .sees_true (.lexeme rfl) (.map (complete_variableDefinitions hvs) fun vs' h => ?_)
          exact congrArg some h

theorem complete_fragment {allowed : Bool} {d : FragmentDefinition} (hd : d.Valid allowed) :
    Complete (fragment allowed) d.slots follow
      fun build => ∀ s, (build s).mapSpans noSpan = d.mapSpans noSpan := by
  have hon : TokenKind.ofName d.name.value ≠ .keyword .on := fun h =>
    hd.name (eq_word_of_ofName h)
  have hvariables := complete_fragmentVariables hd.variableDefinitions
  refine .keyword (.sees_false (.append_left (.lexeme hon)) ?_)
  refine .bind_free (complete_name d.name) fun n hn => ?_
  refine .bind hvariables (.lexeme (by decide)) fun vs hvs => ?_
  refine .keyword (.bind_free (complete_name d.typeCondition) fun t ht => ?_)
  refine complete_selecting hd.directives hd.selectionSet fun ds set hds hset s => ?_
  simp [FragmentDefinition.mapSpans, hn, hvs, ht, hds, hset, noSpan]

/-! ### The type system -/

/-- What starts with a description or a name. -/
theorem leads_described {o : Option StringValue} {n : Name} {ss : List Slot}
    (hP : ∀ k : TokenKind, k.isName = true → P k) (hs : P .string) (hb : P .blockString) :
    Leads (descriptionSlots o ++ (n.slots ++ ss)) follow P :=
  .append (.optionalSlots (fun _ => .string hs hb) o) (.append_left (.word hP))

theorem complete_inputValueDefinition {d : InputValueDefinition} (hd : d.Valid) :
    Complete inputValueDefinition d.slots (avoids typedKinds) fun d' =>
      d'.mapSpans noSpan = d.mapSpans noSpan := by
  refine .spanned (.bind (complete_description d.description)
    (.append_left (.word fun _ => avoids.of_isName rfl)) fun about habout => ?_)
  refine .bind_free (complete_name d.name) fun n hn => ?_
  refine complete_typedParts hd.type hd.defaultValue hd.directives fun t o ds ht ho hds s => ?_
  simp [InputValueDefinition.mapSpans, habout, hn, ht, ho, hds, noSpan]

theorem leads_inputValueDefinition (hP : ∀ k : TokenKind, k.isName = true → P k)
    (hs : P .string) (hb : P .blockString) (d : InputValueDefinition) :
    Leads d.slots follow P :=
  leads_described hP hs hb

theorem complete_argumentDefinitions {as : List InputValueDefinition}
    (has : ∀ a ∈ as, a.Valid) :
    Complete argumentDefinitions (argumentDefinitionSlots as) (avoids [.punctuator .parenOpen])
      fun as' => as'.map (·.mapSpans noSpan) = as.map (·.mapSpans noSpan) :=
  .optionalMany (fun a ha => complete_inputValueDefinition (has a ha)) reads_inputValueDefinition
    (leads_inputValueDefinition (fun _ => avoids.of_isName rfl) (by decide) (by decide))
    (by decide)

theorem complete_fieldDefinition {d : FieldDefinition} (hd : d.Valid) :
    Complete fieldDefinition d.slots (avoids typedKinds) fun d' =>
      d'.mapSpans noSpan = d.mapSpans noSpan := by
  have hdirectives := complete_directives hd.directives
  have hbehindType : Leads (d.directives.flatMap Directive.slots) (avoids typedKinds)
      (avoids [.punctuator .bang]) :=
    (leads_directives _ (by decide)).of_follow (avoids.mono (by decide))
  refine .spanned (.bind (complete_description d.description)
    (.append_left (.word fun _ => avoids.of_isName rfl)) fun about habout => ?_)
  refine .bind_free (complete_name d.name) fun n hn => ?_
  refine .bind (complete_argumentDefinitions hd.arguments) (.lexeme (by decide)) fun as has => ?_
  refine .mark (.bind (complete_typeRef hd.type) hbehindType fun t ht => ?_)
  refine .last (.mono hdirectives (avoids.mono (by decide))) fun ds hds s => ?_
  simp [FieldDefinition.mapSpans, habout, hn, has, ht, hds, noSpan]

theorem isReserved_eq_false {n : Name} (h : n.Unreserved) :
    isReserved (.ofName n.value) = false := by
  rcases kind_of_unreserved h with hkind | ⟨k, ht, hf, hn, hkind⟩
  · rw [hkind]
    rfl
  · simp [isReserved, hkind, ht, hf, hn]

theorem complete_enumValueDefinition {d : EnumValueDefinition} (hd : d.Valid) :
    Complete enumValueDefinition d.slots (avoids typedKinds) fun d' =>
      d'.mapSpans noSpan = d.mapSpans noSpan := by
  have hreserved : Leads (d.name.slots ++ d.directives.flatMap Directive.slots)
      (avoids typedKinds) (¬isReserved · = true) :=
    .append_left (.lexeme (Bool.eq_false_iff.1 (isReserved_eq_false hd.name)))
  have hdirectives := complete_directives hd.directives
  refine .spanned (.bind (complete_description d.description)
    (.append_left (.word fun _ => avoids.of_isName rfl)) fun about habout => ?_)
  refine .current_neg (t := (isReserved · = true)) hreserved ?_
  refine .bind_free (complete_name d.name) fun n hn => ?_
  refine .last (.mono hdirectives (avoids.mono (by decide))) fun ds hds s => ?_
  simp [EnumValueDefinition.mapSpans, habout, hn, hds, noSpan]

/-- A block in braces may be left out where no brace follows. -/
theorem complete_optionalBlock {item : Parser α} {slots : α → List Slot} {clear : α → γ}
    {ks : List TokenKind} {xs : List α}
    (hi : ∀ x ∈ xs, Complete item (slots x) (avoids ks) fun y => clear y = clear x)
    (hr : Reads 1 item)
    (hstart : ∀ x, Leads (slots x) anything (avoids (.punctuator .braceClose :: ks)))
    (hclose : avoids ks (.punctuator .braceClose)) :
    Complete (optionalBlock item) (group slots .braceOpen .braceClose xs)
      (fun k => xs = [] → k ≠ .punctuator .braceOpen) fun ys => ys.map clear = xs.map clear := by
  cases xs with
  | nil => exact .sees_false (.nil fun _ hk => hk rfl) (.pure rfl)
  | cons x xs =>
      exact .sees_true (.lexeme rfl) (.many hi hr hstart hclose (List.cons_ne_nil _ _))

theorem complete_namesAfter {l : Lexeme} {kind : TokenKind} (separator : Punctuator)
    (hl : l.kind = kind) (ns : List Name) :
    Complete (namesAfter kind (.punctuator separator)) (introduced Name.slots l separator ns)
      (avoids [kind, .punctuator separator])
      fun ns' => ns'.map (·.mapSpans noSpan) = ns.map (·.mapSpans noSpan) := by
  cases ns with
  | nil =>
      refine .last (Q := (· = none)) (.accept_false (.nil fun _ hk => (avoids.cons.1 hk).1)
        (.pure rfl)) ?_
      rintro o rfl
      rfl
  | cons n ns =>
      have hname : ∀ m ∈ n :: ns, Complete name m.slots (avoids []) fun m' =>
          m'.mapSpans noSpan = m.mapSpans noSpan := fun m _ => complete_name m
      have hstart : ∀ m : Name, Leads m.slots anything (· ≠ .punctuator separator) :=
        fun m => .word fun k hk heq => by rw [heq] at hk; cases hk
      have hnames := Complete.separatedBy hname reads_name (List.cons_ne_nil n ns) hstart
        (by simp [avoids])
      refine .last (Q := fun o => (o.getD []).map (·.mapSpans noSpan) =
        (n :: ns).map (·.mapSpans noSpan)) (.accept_true hl (.last (.mono hnames ?_) ?_)) ?_
      · exact fun _ => avoids.tail
      · exact fun _ h => h
      · exact fun _ h => h

theorem complete_operationTypeDefinition (d : OperationTypeDefinition) :
    Complete operationTypeDefinition d.slots follow fun d' =>
      d'.mapSpans noSpan = d.mapSpans noSpan := by
  show Complete _ ([.keyword _] ++ _) _ _
  refine .spanned (.bind_free (complete_operationType d.operation) fun t ht => .mark
    (.last (complete_name d.typeName) fun n hn s => ?_))
  simp [OperationTypeDefinition.mapSpans, ht, hn, noSpan]

/-- The kinds that go on with a definition, apart from a brace. -/
def definitionKinds : List TokenKind :=
  [.punctuator .atSign, .punctuator .parenOpen, .punctuator .ampersand, .punctuator .pipe,
    .punctuator .equals, .keyword .implements]

/-- What may stand behind a definition: no lexeme that would go on with it. -/
def ends (lacksBlock : Bool) (k : TokenKind) : Prop :=
  avoids definitionKinds k ∧ (lacksBlock = true → k ≠ .punctuator .braceOpen)

theorem ends.avoids {b : Bool} {k : TokenKind} {ks : List TokenKind} (h : ends b k)
    (hks : ∀ k ∈ ks, k ∈ definitionKinds) : avoids ks k :=
  avoids.mono hks k h.1

/-- Behind a block that was left out no brace may stand. -/
theorem ends.lacksBlock {xs : List α} {k : TokenKind} (h : ends xs.isEmpty k) (hxs : xs = []) :
    k ≠ .punctuator .braceOpen := by
  refine h.2 ?_
  rw [hxs]
  rfl

theorem complete_schemaOperations {extend : Bool} {os : List OperationTypeDefinition}
    (hos : extend = false → os ≠ []) :
    Complete (schemaOperations extend)
      (group OperationTypeDefinition.slots .braceOpen .braceClose os) (ends os.isEmpty)
      fun os' => os'.map (·.mapSpans noSpan) = os.map (·.mapSpans noSpan) := by
  have hitem : ∀ o ∈ os, Complete operationTypeDefinition o.slots (avoids []) fun o' =>
      o'.mapSpans noSpan = o.mapSpans noSpan :=
    fun o _ => complete_operationTypeDefinition o
  have hstart : ∀ o : OperationTypeDefinition,
      Leads o.slots anything (avoids [.punctuator .braceClose]) :=
    fun o => .lexeme (by simp [avoids, Lexeme.keyword])
  cases extend with
  | true =>
      exact .mono (complete_optionalBlock hitem reads_operationTypeDefinition hstart (by decide))
        fun k hk => hk.lacksBlock
  | false =>
      cases os with
      | nil => exact absurd rfl (hos rfl)
      | cons o os =>
          exact .many hitem reads_operationTypeDefinition hstart (by decide)
            (List.cons_ne_nil _ _)

/-- The description and the keyword of an extension stand in front. -/
theorem complete_schema {d : SchemaDefinition} (hd : d.Valid) (about : Option StringValue)
    (ha : about.map (·.mapSpans noSpan) = d.description.map (·.mapSpans noSpan)) :
    Complete (schema about d.extend) d.coreSlots (ends d.operations.isEmpty)
      fun build => ∀ s, (build s).mapSpans noSpan = d.mapSpans noSpan := by
  refine .keyword (.bind (complete_directives hd.directives)
    (.of_follow (.group _ (by decide)) fun k hk => hk.avoids (by decide)) fun ds hds =>
      .last (complete_schemaOperations hd.operations) fun os hos s => ?_)
  simp [SchemaDefinition.mapSpans, ha, hds, hos, noSpan]

theorem leads_members {b : TypeBody} (hb : P (.punctuator .braceOpen))
    (he : P (.punctuator .equals)) : Leads b.memberSlots P P := by
  cases b with
  | scalar => exact .nil fun _ hk => hk
  | object is fs => exact .group fs hb
  | interface is fs => exact .group fs hb
  | union ms => exact .introduced ms he
  | enum vs => exact .group vs hb
  | input fs => exact .group fs hb

theorem complete_members {ds : List Directive} {b : TypeBody} (hds : ∀ d ∈ ds, d.Valid true)
    {p : List Directive → Parser β} {R : β → Prop}
    (h : ∀ ds', ds'.map (·.mapSpans noSpan) = ds.map (·.mapSpans noSpan) →
      Complete (p ds') b.memberSlots (ends b.lacksBlock) R) :
    Complete (directives true >>= p) (ds.flatMap Directive.slots ++ b.memberSlots)
      (ends b.lacksBlock) R :=
  .bind (complete_directives hds)
    ((leads_members (by decide) (by decide)).of_follow fun k hk => hk.avoids (by decide)) h

/-- Directives and body of a type are read alike. -/
def SameBody (ds : List Directive) (b : TypeBody) (r : List Directive × TypeBody) : Prop :=
  r.1.map (·.mapSpans noSpan) = ds.map (·.mapSpans noSpan) ∧ r.2.mapSpans noSpan = b.mapSpans noSpan

theorem complete_fieldsBody {ds : List Directive} {is : List Name} {fs : List FieldDefinition}
    {body : List Name → List FieldDefinition → TypeBody}
    (hbody : body = .object ∨ body = .interface) (hds : ∀ d ∈ ds, d.Valid true)
    (hfs : ∀ x ∈ fs, x.Valid) :
    Complete (fieldsBody body)
      (introduced Name.slots (.keyword .implements) .ampersand is ++
        (ds.flatMap Directive.slots ++ group FieldDefinition.slots .braceOpen .braceClose fs))
      (ends fs.isEmpty) (SameBody ds (body is fs)) := by
  have hblock := complete_optionalBlock (fun x hx => complete_fieldDefinition (hfs x hx))
    reads_fieldDefinition (fun x => leads_described (fun _ => avoids.of_isName rfl) (by decide)
      (by decide)) (by decide)
  have hinterfaces := complete_namesAfter (l := .keyword .implements) .ampersand rfl is
  have hbehindNames : Leads (ds.flatMap Directive.slots ++
      group FieldDefinition.slots .braceOpen .braceClose fs) (ends fs.isEmpty)
      (avoids [.keyword .implements, .punctuator .ampersand]) :=
    .append (leads_directives ds (by decide))
      (.of_follow (.group fs (by decide)) fun k hk => hk.avoids (by decide))
  have hbehindDirectives : Leads (group FieldDefinition.slots .braceOpen .braceClose fs)
      (ends fs.isEmpty) (avoids [.punctuator .atSign, .punctuator .parenOpen]) :=
    .of_follow (.group fs (by decide)) fun k hk => hk.avoids (by decide)
  refine .bind hinterfaces hbehindNames fun is' his => ?_
  refine .bind (complete_directives hds) hbehindDirectives fun ds' hds' => ?_
  refine .last (.mono hblock fun k hk => hk.lacksBlock) fun fs' hfs' => ⟨hds', ?_⟩
  rcases hbody with rfl | rfl
  · simp [TypeBody.mapSpans, his, hfs']
  · simp [TypeBody.mapSpans, his, hfs']

theorem complete_typeBody {ds : List Directive} {b : TypeBody} (hds : ∀ d ∈ ds, d.Valid true)
    (hb : b.Valid) :
    Complete (typeBody b.keyword)
      (b.interfaceSlots ++ (ds.flatMap Directive.slots ++ b.memberSlots)) (ends b.lacksBlock)
      (SameBody ds b) := by
  cases b with
  | scalar =>
      exact complete_members (b := .scalar) hds fun ds' hds' => .pure ⟨hds', rfl⟩
  | object is fs => exact complete_fieldsBody (.inl rfl) hds hb
  | interface is fs => exact complete_fieldsBody (.inr rfl) hds hb
  | union ms =>
      have hmembers := complete_namesAfter (l := .punctuator .equals) .pipe rfl ms
      refine complete_members (b := .union ms) hds fun ds' hds' => ?_
      refine .last (.mono hmembers fun k hk => hk.avoids (by decide)) fun ms' hms => ⟨hds', ?_⟩
      simp [TypeBody.mapSpans, hms]
  | enum vs =>
      have hblock := complete_optionalBlock (fun x hx => complete_enumValueDefinition (hb x hx))
        reads_enumValueDefinition (fun x => leads_described (fun _ => avoids.of_isName rfl)
          (by decide) (by decide)) (by decide)
      refine complete_members (b := .enum vs) hds fun ds' hds' => ?_
      refine .last (.mono hblock fun k hk => hk.lacksBlock) fun vs' hvs => ⟨hds', ?_⟩
      simp [TypeBody.mapSpans, hvs]
  | input fs =>
      have hblock := complete_optionalBlock (fun x hx => complete_inputValueDefinition (hb x hx))
        reads_inputValueDefinition (leads_inputValueDefinition (fun _ => avoids.of_isName rfl)
          (by decide) (by decide)) (by decide)
      refine complete_members (b := .input fs) hds fun ds' hds' => ?_
      refine .last (.mono hblock fun k hk => hk.lacksBlock) fun fs' hfs => ⟨hds', ?_⟩
      simp [TypeBody.mapSpans, hfs]

/-- The description and the keyword of an extension stand in front. -/
theorem complete_typeDefinition {d : TypeDefinition} (hd : d.Valid)
    (about : Option StringValue)
    (ha : about.map (·.mapSpans noSpan) = d.description.map (·.mapSpans noSpan)) :
    Complete (typeDefinition about d.extend d.body.keyword) d.coreSlots (ends d.body.lacksBlock)
      fun build => ∀ s, (build s).mapSpans noSpan = d.mapSpans noSpan := by
  refine .keyword (.bind_free (complete_name d.name) fun n hn => ?_)
  rw [← List.append_nil (d.body.interfaceSlots ++ _)]
  refine .bind (complete_typeBody hd.directives hd.body) (.nil fun _ hk => hk) fun r hr => ?_
  obtain ⟨ds, body⟩ := r
  obtain ⟨hds, hbody⟩ := hr
  refine .pure fun s => ?_
  simp [TypeDefinition.mapSpans, ha, hn, hds, hbody, noSpan]

theorem complete_directiveLocation (l : DirectiveLocation) :
    Complete directiveLocation l.slots follow (· = l) := by
  have hname : (Lexeme.word l.word).kind.isName = true := isName_ofName l.word
  have hword : DirectiveLocation.ofWord? (Lexeme.word l.word).text = some l :=
    DirectiveLocation.ofWord?_word l
  refine .current ?_
  rw [if_pos hname, hword]
  exact .expectName (.pure rfl)

/-- The description stands in front. -/
theorem complete_directiveDefinition {d : DirectiveDefinition} (hd : d.Valid)
    {about : Option StringValue}
    (ha : about.map (·.mapSpans noSpan) = d.description.map (·.mapSpans noSpan)) :
    Complete (directiveDefinition about)
      (.keyword .directive :: .mark .atSign :: (d.name.slots ++
        (argumentDefinitionSlots d.arguments ++ (flagSlots .repeatable d.repeatable ++
          .keyword .on :: separated DirectiveLocation.slots .pipe d.locations))))
      (avoids definitionKinds) fun build => ∀ s,
        (build s).mapSpans noSpan = d.mapSpans noSpan := by
  have hlocation : ∀ l ∈ d.locations, Complete directiveLocation l.slots (avoids [])
      fun l' => id l' = id l := fun l _ => complete_directiveLocation l
  have hstart : ∀ l : DirectiveLocation, Leads l.slots anything (· ≠ .punctuator .pipe) :=
    fun l => .word fun k hk heq => by rw [heq] at hk; cases hk
  have hlocations := Complete.separatedBy hlocation reads_directiveLocation hd.locations hstart
    (by decide)
  have hend : ∀ n as, n.mapSpans noSpan = d.name.mapSpans noSpan →
      as.map (·.mapSpans noSpan) = d.arguments.map (·.mapSpans noSpan) →
      Complete (do
          let _ ← expect (.keyword .on)
          let locations ← separatedBy (.punctuator .pipe) directiveLocation
          return fun span => (⟨about, n, as, d.repeatable, locations, span⟩ : DirectiveDefinition))
        (.keyword .on :: separated DirectiveLocation.slots .pipe d.locations)
        (avoids definitionKinds) fun build => ∀ s,
          (build s).mapSpans noSpan = d.mapSpans noSpan := by
    intro n as hn has
    refine .keyword (.last (.mono hlocations (avoids.mono (by decide))) fun ls hls s => ?_)
    rw [List.map_id, List.map_id] at hls
    simp [DirectiveDefinition.mapSpans, ha, hn, has, hls, noSpan]
  have hbehindArguments : Leads (flagSlots .repeatable d.repeatable ++
      .keyword .on :: separated DirectiveLocation.slots .pipe d.locations)
      (avoids definitionKinds) (avoids [.punctuator .parenOpen]) := by
    cases d.repeatable with
    | true => exact .lexeme (by decide)
    | false => exact .lexeme (by decide)
  have harguments := complete_argumentDefinitions hd.arguments
  refine .keyword (.mark (.bind_free (complete_name d.name) fun n hn => ?_))
  refine .bind harguments hbehindArguments fun as has => ?_
  have hend := hend n as hn has
  cases hrep : d.repeatable with
  | true =>
      rw [hrep] at hend
      exact .accept_true rfl hend
  | false =>
      rw [hrep] at hend
      exact .accept_false (.lexeme (by decide)) hend

/-! ### Definitions -/

/-- A definition that a keyword introduces, behind its description. -/
theorem complete_described {allowed : Bool} {d : Definition} {o : Option StringValue}
    {k : Keyword} {ss : List Slot}
    (h : ∀ about, about.map (·.mapSpans noSpan) = o.map (·.mapSpans noSpan) →
      Complete (keywordDefinition allowed about k) (.keyword k :: ss) follow fun build => ∀ s,
        (build s).mapSpans noSpan = d.mapSpans noSpan) :
    Complete (definition allowed) (descriptionSlots o ++ .keyword k :: ss) follow fun d' =>
      d'.mapSpans noSpan = d.mapSpans noSpan := by
  refine .spanned (.sees_false (.append (.optionalSlots (fun _ => .string (by decide) (by decide))
    o) (.lexeme (by simp [Lexeme.keyword]))) (.bind (complete_description o)
      (.lexeme (by simp [avoids, Lexeme.keyword])) fun about ha => .current (h about ha)))

/-- A definition that takes no description. -/
theorem complete_undescribed {allowed : Bool} {d : Definition} {k : Keyword} {ss : List Slot}
    (h : Complete (keywordDefinition allowed none k) (.keyword k :: ss) follow fun build => ∀ s,
      (build s).mapSpans noSpan = d.mapSpans noSpan) :
    Complete (definition allowed) (.keyword k :: ss) follow fun d' =>
      d'.mapSpans noSpan = d.mapSpans noSpan := by
  refine complete_described (o := none) fun about ha => ?_
  obtain rfl : about = none := by simpa using ha
  exact h

theorem complete_operationDefinition {allowed : Bool} {d : OperationDefinition} (hd : d.Valid) :
    Complete (definition allowed) d.slots follow fun d' =>
      d'.mapSpans noSpan = (Definition.operation d).mapSpans noSpan := by
  have hkeyword : Complete (definition allowed)
      (.keyword d.operation.keyword :: (optionalSlots Name.slots d.name ++
        (variableSlots d.variableDefinitions ++
          (d.directives.flatMap Directive.slots ++ d.selectionSet.slots)))) follow fun d' =>
        d'.mapSpans noSpan = (Definition.operation d).mapSpans noSpan := by
    refine complete_undescribed ?_
    have hoperation : Complete _ _ follow _ := complete_operation hd
    revert hoperation
    cases d.operation with
    | query => exact fun h => .last h fun _ h s => congrArg Definition.operation (h s)
    | mutation => exact fun h => .last h fun _ h s => congrArg Definition.operation (h s)
    | subscription => exact fun h => .last h fun _ h s => congrArg Definition.operation (h s)
  unfold OperationDefinition.slots
  split
  · -- A plain query is read alike with its keyword and without.
    rename_i hplain
    refine .optional ?_ (.spanned (.sees_true (leads_selectionSet _)
      (.last (complete_shorthandQuery hd hplain) fun _ h s => congrArg Definition.operation (h s))))
    simp only [OperationDefinition.isPlain, Bool.and_eq_true, beq_iff_eq,
      Option.isNone_iff_eq_none, List.isEmpty_iff] at hplain
    obtain ⟨⟨⟨ho, hn⟩, hvs⟩, hds⟩ := hplain
    rw [ho, hn, hvs, hds] at hkeyword
    exact hkeyword
  · exact hkeyword

theorem isEmptyExtension_mapSpans (f : Option Span → Option Span) (d : Definition) :
    isEmptyExtension (d.mapSpans f) = isEmptyExtension d := by
  cases d with
  | schema d => simp [Definition.mapSpans, SchemaDefinition.mapSpans, isEmptyExtension]
  | type d => simp [Definition.mapSpans, TypeDefinition.mapSpans, isEmptyExtension]
  | _ => rfl

/-- An extension that says something, given what follows its keyword. -/
theorem complete_extension {allowed : Bool} {d : Definition} {ss : List Slot}
    (hne : isEmptyExtension d = false)
    (h : Complete extended ss follow fun build => ∀ s,
      (build s).mapSpans noSpan = d.mapSpans noSpan) :
    Complete (definition allowed) (.keyword .extend :: ss) follow fun d' =>
      d'.mapSpans noSpan = d.mapSpans noSpan := by
  refine complete_undescribed (.keyword ?_)
  rw [← List.append_nil ss]
  refine .bind h (.nil fun _ hk => hk) fun build hbuild => ?_
  -- Whether an extension says nothing does not depend on its spans.
  have hempty : isEmptyExtension (build none) = false := by
    rw [← isEmptyExtension_mapSpans noSpan, hbuild, isEmptyExtension_mapSpans, hne]
  rw [hempty]
  exact .pure hbuild

theorem complete_schemaDefinition {allowed : Bool} {d : SchemaDefinition} (hd : d.Valid) :
    Complete (definition allowed) d.slots (ends d.operations.isEmpty) fun d' =>
      d'.mapSpans noSpan = (Definition.schema d).mapSpans noSpan := by
  cases hext : d.extend with
  | false =>
      rw [SchemaDefinition.slots, hext]
      refine complete_described fun about ha => ?_
      have hschema := complete_schema hd about ha
      rw [hext] at hschema
      cases about with
      | none => exact .last hschema fun _ h s => congrArg Definition.schema (h s)
      | some a => exact .last hschema fun _ h s => congrArg Definition.schema (h s)
  | true =>
      obtain ⟨habout, hne⟩ := hd.extension hext
      have hschema := complete_schema hd none (by rw [habout])
      rw [hext] at hschema
      rw [SchemaDefinition.slots, hext, habout]
      refine complete_extension ?_ (.current (.last hschema fun _ h s =>
        congrArg Definition.schema (h s)))
      exact isEmpty_and_eq_false.2 (by simpa using hne)

theorem complete_typeDefinitionOf {allowed : Bool} {d : TypeDefinition} (hd : d.Valid) :
    Complete (definition allowed) d.slots (ends d.body.lacksBlock) fun d' =>
      d'.mapSpans noSpan = (Definition.type d).mapSpans noSpan := by
  cases hext : d.extend with
  | false =>
      rw [TypeDefinition.slots, hext]
      refine complete_described fun about ha => ?_
      have htype := Complete.last (R := fun build => ∀ s, (build s).mapSpans noSpan = _)
        (g := fun build span => Definition.type (build span)) (complete_typeDefinition hd about ha)
        fun _ h s => congrArg Definition.type (h s)
      rw [hext] at htype
      -- Every type may have a description.
      have hguard : ¬(about.isSome ∧ takesNoDescription d.body.keyword = true) := by
        cases d.body <;> simp [TypeBody.keyword, takesNoDescription]
      unfold keywordDefinition
      rw [if_neg hguard]
      revert htype
      unfold TypeDefinition.coreSlots
      cases d.body with
      | scalar => exact fun h => h
      | object is fs => exact fun h => h
      | interface is fs => exact fun h => h
      | union ms => exact fun h => h
      | enum vs => exact fun h => h
      | input fs => exact fun h => h
  | true =>
      obtain ⟨habout, hne⟩ := hd.extension hext
      have htype := Complete.last (R := fun build => ∀ s, (build s).mapSpans noSpan = _)
        (g := fun build span => Definition.type (build span))
        (complete_typeDefinition hd none (by rw [habout]))
        fun _ h s => congrArg Definition.type (h s)
      rw [hext] at htype
      rw [TypeDefinition.slots, hext, habout]
      refine complete_extension ?_ ?_
      · exact isEmpty_and_eq_false.2 hne
      · show Complete extended d.coreSlots _ _
        revert htype
        unfold TypeDefinition.coreSlots
        cases d.body with
        | scalar => exact fun h => .current h
        | object is fs => exact fun h => .current h
        | interface is fs => exact fun h => .current h
        | union ms => exact fun h => .current h
        | enum vs => exact fun h => .current h
        | input fs => exact fun h => .current h

theorem complete_definition {allowed : Bool} {d : Definition} (hd : d.Valid allowed) :
    Complete (definition allowed) d.slots (ends d.lacksBlock) fun d' => d'.strip = d.strip := by
  cases d with
  | operation d => exact complete_operationDefinition hd
  | fragment d =>
      refine complete_undescribed (.last (complete_fragment hd) fun _ h s => ?_)
      exact congrArg Definition.fragment (h s)
  | schema d => exact complete_schemaDefinition hd
  | type d => exact complete_typeDefinitionOf hd
  | directive d =>
      refine complete_described fun about ha => ?_
      have hdirective := Complete.last (R := fun build => ∀ s, (build s).mapSpans noSpan = _)
        (g := fun build span => Definition.directive (build span))
        (complete_directiveDefinition hd ha) fun _ h s => congrArg Definition.directive (h s)
      refine .mono ?_ fun _ (hk : ends _ _) => hk.1
      cases about with
      | none => exact hdirective
      | some a => exact hdirective

/-- Definitions that have a spelling in common are equal up to spans. -/
theorem strip_eq_of_spells {allowed : Bool} {d e : Definition} {ls : List Lexeme}
    (hvd : d.Valid allowed) (hve : e.Valid allowed) (hd : Spells d.slots ls)
    (he : Spells e.slots ls) : d.strip = e.strip := by
  have hends : ∀ b, ends b (nextKind []) := fun b => ⟨by decide, fun _ => by decide⟩
  obtain ⟨a, ha, hstrip⟩ := complete_definition hvd 0 ls [] hd (hends _)
  obtain ⟨a', ha', hstrip'⟩ := complete_definition hve 0 ls [] he (hends _)
  rw [ha] at ha'
  cases ha'
  rw [← hstrip, hstrip']

/-- No definition starts with a lexeme that would go on with the one before it,
unless it is a block in braces. -/
theorem leads_definition (d : Definition) :
    Leads d.slots follow (avoids (.endOfInput :: definitionKinds)) := by
  have hdescribed : ∀ (o : Option StringValue) (k : Keyword) (ss : List Slot),
      k ≠ .implements → Leads (descriptionSlots o ++ .keyword k :: ss) follow
        (avoids (.endOfInput :: definitionKinds)) := fun o k ss hk =>
    .append (.optionalSlots (fun _ => .string (by decide) (by decide)) o)
      (.lexeme (by simpa [avoids, definitionKinds, Lexeme.keyword] using hk))
  cases d with
  | operation d =>
      show Leads d.slots _ _
      unfold OperationDefinition.slots
      split
      · refine .optional (by decide) ((leads_selectionSet _).imp ?_)
        rintro k rfl
        decide
      · cases d.operation <;> exact .lexeme (by decide)
  | fragment d => exact .lexeme (by decide)
  | schema d =>
      show Leads d.slots _ _
      unfold SchemaDefinition.slots
      cases d.extend with
      | true => exact hdescribed _ .extend _ (by decide)
      | false => exact hdescribed _ .schema _ (by decide)
  | type d =>
      have hkeyword : d.body.keyword ≠ .implements := by cases d.body <;> simp [TypeBody.keyword]
      show Leads d.slots _ _
      unfold TypeDefinition.slots
      cases d.extend with
      | true => exact hdescribed _ .extend _ (by decide)
      | false => exact hdescribed _ _ _ hkeyword
  | directive d => exact hdescribed _ .directive _ (by decide)

/-- Lexemes that spell definitions one after the other. Where a definition could
go on with a block in braces that it does not have, no brace follows it. -/
inductive SpellsDocument : List Definition → List Lexeme → Prop
  | nil : SpellsDocument [] []
  | cons {d ds ls rest} : Spells d.slots ls →
      (d.lacksBlock = true → nextKind rest ≠ .punctuator .braceOpen) →
      SpellsDocument ds rest → SpellsDocument (d :: ds) (ls ++ rest)

theorem SpellsDocument.nextKind {ds : List Definition} {ls : List Lexeme}
    (h : SpellsDocument ds ls) (hne : ds ≠ []) :
    avoids (.endOfInput :: definitionKinds) (nextKind ls) := by
  cases h with
  | nil => exact absurd rfl hne
  | cons hd _ _ => exact (leads_definition _ : Leads _ anything _) _ _ hd trivial

theorem SpellsDocument.ends {ds : List Definition} {ls : List Lexeme} {b : Bool}
    (h : SpellsDocument ds ls) (hb : b = true → Grammar.nextKind ls ≠ .punctuator .braceOpen) :
    ends b (Grammar.nextKind ls) := by
  refine ⟨?_, hb⟩
  cases ds with
  | nil =>
      cases h
      exact (by decide : avoids definitionKinds .endOfInput)
  | cons d ds => exact (h.nextKind (List.cons_ne_nil _ _)).tail

theorem complete_definitions {allowed : Bool} {ds : List Definition} {ls : List Lexeme}
    (h : SpellsDocument ds ls) (hne : ds ≠ []) (hv : ∀ d ∈ ds, d.Valid allowed) (n : Nat) :
    ∃ ds' c, definitions allowed ⟨n, ls⟩ = .ok ((ds', none), c) ∧
      ds'.map Definition.strip = ds.map Definition.strip := by
  induction h generalizing n with
  | nil => exact absurd rfl hne
  | @cons d ds ls rest hd hseam hrest ih =>
      obtain ⟨hvd, hvds⟩ := List.forall_mem_cons.1 hv
      obtain ⟨d', hd', hstrip⟩ := complete_definition hvd n ls rest hd (hrest.ends hseam)
      cases ds with
      | nil =>
          cases hrest
          refine ⟨[d'], _, definitions_of_last hd' rfl, ?_⟩
          rw [List.map_cons, List.map_cons, hstrip]
      | cons e ds =>
          obtain ⟨ds', c, hds', hstrips⟩ := ih (List.cons_ne_nil _ _) hvds (n + ls.length)
          -- What follows starts a definition, so the parser does not take it for the end.
          have hmore : nextKind rest ≠ .endOfInput :=
            (avoids.cons.1 (hrest.nextKind (List.cons_ne_nil _ _))).1
          refine ⟨d' :: ds', c, definitions_of_more hd' hmore hds', ?_⟩
          rw [List.map_cons, List.map_cons (f := Definition.strip) (a := d), hstrip, hstrips]

end GraphQL.Grammar
