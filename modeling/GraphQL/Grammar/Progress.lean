import GraphQL.Grammar.Definition

/-!
How far parsers read. A parser that succeeds leaves a part of what was left and
has counted the lexemes it read. What lists and recursion are made of reads at
least one lexeme; therefore each recursive parser is one that calls itself, and
the bound in `fix` is never met.
-/

namespace GraphQL.Grammar

variable {α β : Type}

/-! ### Steps -/

theorem pure_eq_ok {a : α} {c : Cursor} {r : α × Cursor} :
    (pure a : Parser α) c = .ok r ↔ r = (a, c) :=
  ⟨fun h => (Except.ok.inj h).symm, fun h => h ▸ rfl⟩

theorem bind_eq_ok {p : Parser α} {f : α → Parser β} {c : Cursor} {r : β × Cursor} :
    (p >>= f) c = .ok r ↔ ∃ a d, p c = .ok (a, d) ∧ f a d = .ok r := by
  show (p c >>= fun x => f x.1 x.2) = .ok r ↔ _
  rcases h : p c with e | ⟨a, d⟩
  · simp [bind, Except.bind]
  · constructor
    · exact fun hf => ⟨a, d, rfl, hf⟩
    · rintro ⟨b, e, hbe, hf⟩
      cases hbe
      exact hf

/-- A parser that succeeds has read at least a number of lexemes, and has counted
those it read. -/
def Reads (k : Nat) (p : Parser α) : Prop :=
  ∀ ⦃c : Cursor⦄ ⦃a : α⦄ ⦃d : Cursor⦄, p c = .ok (a, d) →
    ∃ ls : List Lexeme, k ≤ ls.length ∧ c.rest = ls ++ d.rest ∧
      d.position = c.position + ls.length

namespace Reads

variable {j k : Nat} {p q : Parser α} {f : α → Parser β}

theorem length_le (h : Reads k p) {c d : Cursor} {a : α} (hp : p c = .ok (a, d)) :
    d.rest.length + k ≤ c.rest.length := by
  obtain ⟨ls, hk, hr, -⟩ := h hp
  rw [hr, List.length_append]
  omega

theorem mono (h : Reads k p) (hjk : j ≤ k) : Reads j p := by
  intro c a d hp
  obtain ⟨ls, hk, hr⟩ := h hp
  exact ⟨ls, Nat.le_trans hjk hk, hr⟩

theorem zero (h : Reads k p) : Reads 0 p := h.mono (Nat.zero_le k)

theorem pure (a : α) : Reads 0 (pure a : Parser α) := by
  intro c b d h
  obtain ⟨-, rfl⟩ := Prod.mk.inj (pure_eq_ok.1 h)
  exact ⟨[], Nat.le_refl _, rfl, rfl⟩

theorem bind (hp : Reads j p) (hf : ∀ a, Reads k (f a)) : Reads (j + k) (p >>= f) := by
  intro c b d h
  obtain ⟨a, e, ha, hb⟩ := bind_eq_ok.1 h
  obtain ⟨ls, hj, hr, hn⟩ := hp ha
  obtain ⟨ms, hk, hr', hn'⟩ := hf a hb
  refine ⟨ls ++ ms, ?_, ?_, ?_⟩
  · rw [List.length_append]
    omega
  · rw [hr, hr', List.append_assoc]
  · rw [hn', hn, List.length_append]
    omega

/-- What follows may read nothing. -/
theorem bind_left (hp : Reads k p) (hf : ∀ a, Reads 0 (f a)) : Reads k (p >>= f) :=
  hp.bind hf

/-- What comes before may read nothing. -/
theorem bind_right (hp : Reads 0 p) (hf : ∀ a, Reads k (f a)) : Reads k (p >>= f) :=
  (hp.bind hf).mono (Nat.le_of_eq (Nat.zero_add k).symm)

theorem map {g : α → β} (hp : Reads k p) : Reads k (g <$> p) := by
  rw [map_eq_pure_bind]
  exact hp.bind_left fun _ => .pure _

theorem ite {c : Prop} [Decidable c] (hp : Reads k p) (hq : Reads k q) :
    Reads k (if c then p else q) := by
  split
  · exact hp
  · exact hq

end Reads

/-! ### Single lexemes -/

theorem reads_position : Reads 0 position := by
  intro c a d h
  cases h
  exact ⟨[], Nat.le_refl _, rfl, rfl⟩

theorem reads_current : Reads 0 current := by
  intro c a d h
  cases h
  exact ⟨[], Nat.le_refl _, rfl, rfl⟩

/-- A parser that always fails reads as much as one likes. -/
theorem reads_fail (k : Nat) (fault : Lexeme → Fault) : Reads k (fail fault : Parser α) := by
  intro c a d h
  cases h

theorem reads_unexpected (k : Nat) : Reads k (unexpected : Parser α) :=
  reads_fail k _

theorem reads_advance : Reads 0 advance := by
  intro c a d h
  unfold advance at h
  split at h
  · cases h
    exact ⟨[], Nat.le_refl _, rfl, rfl⟩
  · rename_i l rest heq
    cases h
    exact ⟨[_], Nat.zero_le _, heq, rfl⟩

/-- Reading a lexeme that is not the end of the input. -/
theorem advance_of_ne_endOfInput {c d : Cursor} {l : Lexeme} (h : advance c = .ok (l, d))
    (hc : c.current.kind ≠ .endOfInput) :
    ∃ ls : List Lexeme, 1 ≤ ls.length ∧ c.rest = ls ++ d.rest ∧
      d.position = c.position + ls.length := by
  unfold advance at h
  split at h
  · rename_i heq
    simp [Cursor.current, heq, Lexeme.endOfInput] at hc
  · rename_i m rest heq
    cases h
    exact ⟨[_], Nat.le_refl _, heq, rfl⟩

theorem reads_sees (kind : TokenKind) : Reads 0 (sees kind) :=
  reads_current.bind fun _ => .pure _

theorem reads_seesName : Reads 0 seesName :=
  reads_current.bind fun _ => .pure _

theorem reads_accept (kind : TokenKind) : Reads 0 (accept kind) :=
  (reads_sees kind).bind fun _ => .ite (reads_advance.bind fun _ => .pure _) (.pure _)

theorem reads_expect {kind : TokenKind} (hk : kind ≠ .endOfInput) : Reads 1 (expect kind) := by
  intro c l d h
  obtain ⟨b, e, hb, h⟩ := bind_eq_ok.1 h
  obtain ⟨rfl, rfl⟩ := Prod.mk.inj (Except.ok.inj hb)
  split at h
  · rename_i hkind
    refine advance_of_ne_endOfInput h ?_
    rw [beq_iff_eq.1 hkind]
    exact hk
  · cases h

theorem reads_expectName : Reads 1 expectName := by
  intro c l d h
  obtain ⟨b, e, hb, h⟩ := bind_eq_ok.1 h
  obtain ⟨rfl, rfl⟩ := Prod.mk.inj (Except.ok.inj hb)
  split at h
  · rename_i hkind
    refine advance_of_ne_endOfInput h fun heq => ?_
    simp [heq, TokenKind.isName] at hkind
  · cases h

theorem reads_spanned {k : Nat} {p : Parser (Option Span → α)} (hp : Reads k p) :
    Reads k (spanned p) :=
  .bind_right reads_position fun _ => hp.bind_left fun _ => reads_position.bind fun _ => .pure _

theorem reads_attempt {k : Nat} {p : Parser α} (hp : Reads k p) : Reads 0 (attempt p) := by
  intro c a d h
  unfold attempt at h
  split at h
  · rename_i b e heq
    cases h
    exact hp.zero heq
  · cases h
    exact ⟨[], Nat.le_refl _, rfl, rfl⟩

/-! ### Recursion -/

/-- Two parsers answer alike where fewer than a number of lexemes are left. -/
def AgreeBelow (n : Nat) (p q : Parser α) : Prop :=
  ∀ c : Cursor, c.rest.length < n → p c = q c

namespace AgreeBelow

variable {k m n : Nat} {p q : Parser α} {f g : α → Parser β}

theorem refl (n : Nat) (p : Parser α) : AgreeBelow n p p := fun _ _ => rfl

theorem mono (h : AgreeBelow n p q) (hmn : m ≤ n) : AgreeBelow m p q :=
  fun c hc => h c (Nat.lt_of_lt_of_le hc hmn)

theorem bind (hp : Reads 0 p) (hpq : AgreeBelow n p q) (hfg : ∀ a, AgreeBelow n (f a) (g a)) :
    AgreeBelow n (p >>= f) (q >>= g) := by
  intro c hc
  show (p c >>= fun x => f x.1 x.2) = (q c >>= fun x => g x.1 x.2)
  rw [← hpq c hc]
  rcases h : p c with e | ⟨a, d⟩
  · rfl
  · exact hfg a d (by have := hp.length_le h; omega)

/-- What follows a number of lexemes need only agree on a shorter rest. -/
theorem bind_reads (hp : Reads k p) (hfg : ∀ a, AgreeBelow n (f a) (g a)) :
    AgreeBelow (n + k) (p >>= f) (p >>= g) := by
  intro c hc
  show (p c >>= fun x => f x.1 x.2) = (p c >>= fun x => g x.1 x.2)
  rcases h : p c with e | ⟨a, d⟩
  · rfl
  · exact hfg a d (by have := hp.length_le h; omega)

theorem bind_left (hpq : AgreeBelow n p q) : AgreeBelow n (p >>= f) (q >>= f) := by
  intro c hc
  show (p c >>= fun x => f x.1 x.2) = (q c >>= fun x => f x.1 x.2)
  rw [hpq c hc]

theorem bind_right (hp : Reads 0 p) (hfg : ∀ a, AgreeBelow n (f a) (g a)) :
    AgreeBelow n (p >>= f) (p >>= g) :=
  bind hp (refl n p) hfg

theorem ite {p' q' : Parser α} {c : Prop} [Decidable c] (hp : AgreeBelow n p p')
    (hq : AgreeBelow n q q') : AgreeBelow n (if c then p else q) (if c then p' else q') := by
  split
  · exact hp
  · exact hq

theorem map {h : α → β} (hpq : AgreeBelow n p q) : AgreeBelow n (h <$> p) (h <$> q) := by
  rw [map_eq_pure_bind, map_eq_pure_bind]
  exact bind_left hpq

theorem spanned {p q : Parser (Option Span → α)} (hpq : AgreeBelow n p q) :
    AgreeBelow n (Grammar.spanned p) (Grammar.spanned q) :=
  bind_right reads_position fun _ => bind_left hpq

/-- Bodies that keep agreement make agreeing parsers. -/
theorem fix {body body' : Parser α → Parser α}
    (h : ∀ p q, AgreeBelow n p q → AgreeBelow n (body p) (body' q)) :
    AgreeBelow n (fix body) (fix body') := by
  have hunroll : ∀ ls, AgreeBelow n (unroll body ls) (unroll body' ls) := by
    intro ls
    induction ls with
    | nil => exact refl _ _
    | cons l ls ih => exact h _ _ ih
  exact fun c hc => h _ _ (hunroll c.rest) c hc

end AgreeBelow

/-- A parser that reads at least `k` lexemes if it does so wherever it calls
itself, and that calls itself only where fewer lexemes are left. -/
structure Guarded (k : Nat) (body : Parser α → Parser α) : Prop where
  reads : ∀ p, Reads k p → Reads k (body p)
  agree : ∀ n p q, Reads k p → AgreeBelow n p q → AgreeBelow (n + 1) (body p) (body q)

namespace Guarded

variable {k : Nat} {body : Parser α → Parser α}

theorem reads_unroll (h : Guarded k body) (ls : List Lexeme) : Reads k (unroll body ls) := by
  induction ls with
  | nil => exact reads_unexpected k
  | cons l ls ih => exact h.reads _ ih

theorem reads_fix (h : Guarded k body) : Reads k (fix body) :=
  fun c _ _ hc => h.reads _ (h.reads_unroll c.rest) hc

/-- Unrolling more often than there are lexemes left makes no difference. -/
theorem unroll_agree (h : Guarded k body) {n : Nat} {ls ms : List Lexeme}
    (hl : n ≤ ls.length) (hm : n ≤ ms.length) :
    AgreeBelow n (unroll body ls) (unroll body ms) := by
  induction n generalizing ls ms with
  | zero => exact fun c hc => absurd hc (Nat.not_lt_zero _)
  | succ n ih =>
      cases ls with
      | nil => simp at hl
      | cons l ls =>
          cases ms with
          | nil => simp at hm
          | cons m ms =>
              exact h.agree n _ _ (h.reads_unroll ls)
                (ih (Nat.le_of_succ_le_succ hl) (Nat.le_of_succ_le_succ hm))

/-- The parser that `fix` makes calls itself: its bound is never met. -/
theorem fix_eq (h : Guarded k body) : fix body = body (fix body) := by
  have hagree : ∀ ls : List Lexeme, AgreeBelow ls.length (unroll body ls) (fix body) := by
    intro ls c hc
    cases ls with
    | nil => simp at hc
    | cons l ls =>
        have hlen : c.rest.length ≤ ls.length := Nat.le_of_lt_succ hc
        exact h.agree c.rest.length _ _ (h.reads_unroll ls)
          (h.unroll_agree hlen (Nat.le_refl _)) c (Nat.lt_succ_self _)
  funext c
  exact h.agree c.rest.length _ _ (h.reads_unroll c.rest) (hagree c.rest) c
    (Nat.lt_succ_self _)

end Guarded

/-! ### Lists -/

theorem reads_upToBody {close : TokenKind} {item : Parser α} (hi : Reads 0 item)
    {again : Parser (List α)} (ha : Reads 0 again) : Reads 0 (upToBody close item again) :=
  (reads_accept close).bind fun _ =>
    .ite (.pure _) (hi.bind fun _ => ha.bind fun _ => .pure _)

theorem guarded_upTo {close : TokenKind} {item : Parser α} (hi : Reads 1 item) :
    Guarded 0 (upToBody close item) where
  reads _ ha := reads_upToBody hi.zero ha
  agree _ _ _ _ hpq :=
    .bind_right (reads_accept close) fun _ => .ite (.refl _ _)
      (.bind_reads hi fun _ => .bind_left hpq)

theorem reads_upTo {close : TokenKind} {item : Parser α} (hi : Reads 1 item) :
    Reads 0 (upTo close item) :=
  (guarded_upTo hi).reads_fix

theorem agreeBelow_upTo {n : Nat} {close : TokenKind} {p q : Parser α} (hp : Reads 0 p)
    (hpq : AgreeBelow n p q) : AgreeBelow n (upTo close p) (upTo close q) :=
  .fix fun _ _ h => .bind_right (reads_accept close) fun _ => .ite (.refl _ _)
    (.bind hp hpq fun _ => .bind_left h)

theorem reads_many {opening close : TokenKind} {item : Parser α} (ho : opening ≠ .endOfInput)
    (hi : Reads 1 item) : Reads 1 (many opening close item) :=
  (reads_expect ho).bind_left fun _ => hi.zero.bind fun _ =>
    (reads_upTo hi).bind fun _ => .pure _

theorem reads_optionalMany {opening close : TokenKind} {item : Parser α}
    (ho : opening ≠ .endOfInput) (hi : Reads 1 item) :
    Reads 0 (optionalMany opening close item) :=
  (reads_sees opening).bind fun _ => .ite (reads_many ho hi).zero (.pure _)

theorem guarded_whileSees {kind : TokenKind} {item : Parser α} (hi : Reads 1 item) :
    Guarded 0 (whileSeesBody kind item) where
  reads _ ha :=
    (reads_sees kind).bind fun _ => .ite (hi.zero.bind fun _ => ha.bind fun _ => .pure _) (.pure _)
  agree _ _ _ _ hpq :=
    .bind_right (reads_sees kind) fun _ => .ite (.bind_reads hi fun _ => .bind_left hpq)
      (.refl _ _)

theorem reads_whileSees {kind : TokenKind} {item : Parser α} (hi : Reads 1 item) :
    Reads 0 (whileSees kind item) :=
  (guarded_whileSees hi).reads_fix

theorem reads_separatedBy {separator : TokenKind} {item : Parser α}
    (hs : separator ≠ .endOfInput) (hi : Reads 1 item) : Reads 1 (separatedBy separator item) :=
  .bind_right (reads_accept separator) fun _ => hi.bind_left fun _ =>
    (reads_whileSees ((reads_expect hs).bind_left fun _ => hi.zero)).bind fun _ => .pure _

theorem reads_onlyIf {test : Parser Bool} {item : Parser α} (ht : Reads 0 test)
    (hi : Reads 0 item) : Reads 0 (onlyIf test item) :=
  ht.bind fun _ => .ite (hi.bind fun _ => .pure _) (.pure _)

theorem agreeBelow_onlyIf {n : Nat} {test : Parser Bool} {p q : Parser α} (ht : Reads 0 test)
    (hpq : AgreeBelow n p q) : AgreeBelow n (onlyIf test p) (onlyIf test q) :=
  .bind_right ht fun _ => .ite (.bind_left hpq) (.refl _ _)

theorem reads_after {kind : TokenKind} {item : Parser α} (hi : Reads 0 item) :
    Reads 0 (after kind item) :=
  reads_onlyIf (reads_accept kind) hi

/-! ### Values -/

theorem reads_name : Reads 1 name :=
  reads_spanned (reads_expectName.bind_left fun _ => .pure _)

theorem reads_stringValueNode : Reads 1 stringValueNode := by
  refine reads_spanned (.bind_right reads_current fun l => ?_)
  split
  · exact (reads_expect (by decide)).bind_left fun _ => .pure _
  · split
    · exact (reads_expect (by decide)).bind_left fun _ => .pure _
    · exact reads_fail _ _
  · exact reads_unexpected _

theorem reads_seesString : Reads 0 seesString := by
  refine reads_current.bind_left fun l => ?_
  split
  · exact .pure _
  · exact .pure _
  · exact .pure _

theorem reads_description : Reads 0 description :=
  reads_onlyIf reads_seesString reads_stringValueNode.zero

theorem reads_argumentOf {value : Parser Value} (hv : Reads 0 value) :
    Reads 1 (argumentOf value) :=
  reads_spanned (reads_name.bind_left fun _ =>
    (reads_expect (by decide)).zero.bind fun _ => hv.bind fun _ => .pure _)

theorem agreeBelow_argumentOf {n : Nat} {p q : Parser Value} (hpq : AgreeBelow n p q) :
    AgreeBelow (n + 1) (argumentOf p) (argumentOf q) :=
  .spanned (.bind_reads reads_name fun _ =>
    .bind_right (reads_expect (by decide)).zero fun _ => .bind_left hpq)

theorem reads_valueBody {const : Bool} {inner : Parser Value} (hi : Reads 1 inner) :
    Reads 1 (valueBody const inner) := by
  refine .bind_right reads_current fun l => ?_
  split
  · split
    · exact reads_unexpected _
    · exact (reads_expect (by decide)).bind_left fun _ => reads_name.zero.bind fun _ => .pure _
  · exact reads_spanned ((reads_expect (by decide)).bind_left fun _ => .pure _)
  · exact reads_spanned ((reads_expect (by decide)).bind_left fun _ => .pure _)
  · exact reads_stringValueNode.bind_left fun _ => .pure _
  · exact reads_stringValueNode.bind_left fun _ => .pure _
  · exact reads_spanned ((reads_expect (by decide)).bind_left fun _ => .pure _)
  · exact reads_spanned ((reads_expect (by decide)).bind_left fun _ => .pure _)
  · exact reads_spanned ((reads_expect (by decide)).bind_left fun _ => .pure _)
  · exact reads_spanned ((reads_expect (by decide)).bind_left fun _ =>
      (reads_upTo hi).bind fun _ => .pure _)
  · exact reads_spanned ((reads_expect (by decide)).bind_left fun _ =>
      (reads_upTo (reads_argumentOf hi.zero)).bind fun _ => .pure _)
  · exact reads_name.bind_left fun _ => .pure _
  · exact reads_name.bind_left fun _ => .pure _
  · exact reads_unexpected _

theorem guarded_value (const : Bool) : Guarded 1 (valueBody const) where
  reads _ hp := reads_valueBody hp
  agree n p q hp hpq := by
    refine .bind_right reads_current fun l => ?_
    split
    all_goals try exact .refl _ _
    · exact .spanned (.bind_reads (reads_expect (by decide)) fun _ =>
        .bind_left (agreeBelow_upTo hp.zero hpq))
    · exact .spanned (.bind_reads (reads_expect (by decide)) fun _ =>
        .bind_left (agreeBelow_upTo (reads_argumentOf hp.zero).zero
          ((agreeBelow_argumentOf hpq).mono (Nat.le_succ n))))

theorem value_eq (const : Bool) : value const = valueBody const (value const) :=
  (guarded_value const).fix_eq

theorem reads_value (const : Bool) : Reads 1 (value const) :=
  (guarded_value const).reads_fix

theorem reads_arguments (const : Bool) : Reads 0 (arguments const) :=
  reads_optionalMany (by decide) (reads_argumentOf (reads_value const).zero)

theorem reads_directive (const : Bool) : Reads 1 (directive const) :=
  reads_spanned ((reads_expect (by decide)).bind_left fun _ => reads_name.zero.bind fun _ =>
    (reads_arguments const).bind fun _ => .pure _)

theorem reads_directives (const : Bool) : Reads 0 (directives const) :=
  reads_whileSees (reads_directive const)

theorem reads_nullableTypeRef {inner : Parser TypeRef} (hi : Reads 0 inner) :
    Reads 1 (nullableTypeRef inner) :=
  .bind_right (reads_sees _) fun _ => .ite
    (reads_spanned ((reads_expect (by decide)).bind_left fun _ => hi.bind fun _ =>
      (reads_expect (by decide)).zero.bind fun _ => .pure _))
    (reads_name.bind_left fun _ => .pure _)

theorem guarded_typeRef : Guarded 1 typeRefBody where
  reads _ hp :=
    .bind_right reads_position fun _ => (reads_nullableTypeRef hp.zero).bind_left fun _ =>
      (reads_accept _).bind fun _ => .ite (reads_position.bind fun _ => .pure _) (.pure _)
  agree _ _ _ _ hpq :=
    .bind_right reads_position fun _ => .bind_left
      (.bind_right (reads_sees _) fun _ => .ite
        (.spanned (.bind_reads (reads_expect (by decide)) fun _ => .bind_left hpq))
        (.refl _ _))

/-- The span of a type in front of an exclamation mark is that of all that was read. -/
theorem typeRefBody_eq (inner : Parser TypeRef) : typeRefBody inner = spanned (do
    let base ← nullableTypeRef inner
    let bang ← accept (.punctuator .bang)
    return fun span => if bang then .nonNull base span else base) := by
  unfold typeRefBody spanned
  simp only [bind_assoc, pure_bind]
  refine bind_congr fun start => bind_congr fun base => bind_congr fun bang => ?_
  cases bang <;> rfl

theorem typeRef_eq : typeRef = typeRefBody typeRef := guarded_typeRef.fix_eq

theorem reads_typeRef : Reads 1 typeRef := guarded_typeRef.reads_fix

/-! ### Selections -/

theorem reads_field {set : Parser SelectionSet} (hs : Reads 0 set) : Reads 1 (field set) := by
  refine reads_spanned (reads_name.bind_left fun _ =>
    (reads_after reads_name.zero).bind fun second => (reads_arguments false).bind fun _ =>
      (reads_directives false).bind fun _ =>
        (reads_onlyIf (reads_sees _) hs).bind_left fun _ => ?_)
  split
  · exact .pure _
  · exact .pure _

theorem agreeBelow_field {n : Nat} {p q : Parser SelectionSet} (hpq : AgreeBelow n p q) :
    AgreeBelow n (field p) (field q) :=
  .spanned (.bind_right reads_name.zero fun _ =>
    .bind_right (reads_after reads_name.zero) fun _ =>
      .bind_right (reads_arguments false) fun _ => .bind_right (reads_directives false) fun _ =>
        .bind_left (agreeBelow_onlyIf (reads_sees _) hpq))

theorem reads_spread {set : Parser SelectionSet} (hs : Reads 0 set) : Reads 1 (spread set) :=
  (reads_expect (by decide)).bind_left fun _ => reads_current.bind fun _ =>
    .ite (reads_name.zero.bind fun _ => (reads_directives false).bind fun _ => .pure _)
      ((reads_after reads_name.zero).bind fun _ => (reads_directives false).bind fun _ =>
        hs.bind fun _ => .pure _)

theorem agreeBelow_spread {n : Nat} {p q : Parser SelectionSet} (hpq : AgreeBelow n p q) :
    AgreeBelow n (spread p) (spread q) :=
  .bind_right (reads_expect (by decide)).zero fun _ => .bind_right reads_current fun _ =>
    .ite (.refl _ _) (.bind_right (reads_after reads_name.zero) fun _ =>
      .bind_right (reads_directives false) fun _ => .bind_left hpq)

theorem reads_selection {set : Parser SelectionSet} (hs : Reads 0 set) :
    Reads 1 (selection set) :=
  .bind_right (reads_sees _) fun _ => .ite (reads_spanned (reads_spread hs)) (reads_field hs).map

theorem agreeBelow_selection {n : Nat} {p q : Parser SelectionSet} (hpq : AgreeBelow n p q) :
    AgreeBelow n (selection p) (selection q) :=
  .bind_right (reads_sees _) fun _ =>
    .ite (.spanned (agreeBelow_spread hpq)) (.map (agreeBelow_field hpq))

theorem guarded_selectionSet : Guarded 1 selectionSetBody where
  reads _ hp :=
    reads_spanned ((reads_many (by decide) (reads_selection hp.zero)).bind_left fun _ => .pure _)
  agree _ _ _ hp hpq :=
    .spanned (.bind_left (.bind_reads (reads_expect (by decide)) fun _ =>
      .bind (reads_selection hp.zero).zero (agreeBelow_selection hpq) fun _ =>
        .bind_left (agreeBelow_upTo (reads_selection hp.zero).zero (agreeBelow_selection hpq))))

theorem selectionSet_eq : selectionSet = selectionSetBody selectionSet :=
  guarded_selectionSet.fix_eq

theorem reads_selectionSet : Reads 1 selectionSet :=
  guarded_selectionSet.reads_fix

/-! ### What is executed -/

theorem reads_variableDefinition : Reads 1 variableDefinition :=
  reads_spanned ((reads_expect (by decide)).bind_left fun _ => reads_name.zero.bind fun _ =>
    (reads_expect (by decide)).zero.bind fun _ => reads_typeRef.zero.bind fun _ =>
      (reads_after (reads_value true).zero).bind fun _ => (reads_directives true).bind fun _ =>
        .pure _)

theorem reads_variableDefinitions : Reads 0 variableDefinitions :=
  reads_optionalMany (by decide) reads_variableDefinition

theorem reads_operationType : Reads 1 operationType := by
  refine .bind_right reads_current fun l => ?_
  split
  · exact (reads_expect (by decide)).bind_left fun _ => .pure _
  · exact (reads_expect (by decide)).bind_left fun _ => .pure _
  · exact (reads_expect (by decide)).bind_left fun _ => .pure _
  · exact reads_unexpected _

theorem reads_shorthandQuery : Reads 1 shorthandQuery :=
  reads_selectionSet.bind_left fun _ => .pure _

theorem reads_operation : Reads 1 operation :=
  reads_operationType.bind_left fun _ => (reads_onlyIf reads_seesName reads_name.zero).bind
    fun _ => reads_variableDefinitions.bind fun _ => (reads_directives false).bind fun _ =>
      reads_selectionSet.zero.bind fun _ => .pure _

theorem reads_fragmentVariables (allowed : Bool) : Reads 0 (fragmentVariables allowed) :=
  (reads_sees _).bind fun _ =>
    .ite (.ite reads_variableDefinitions.map (reads_fail _ _)) (.pure _)

theorem reads_fragment (allowed : Bool) : Reads 1 (fragment allowed) :=
  (reads_expect (by decide)).bind_left fun _ => (reads_sees _).bind fun _ =>
    .ite (reads_unexpected _) (reads_name.zero.bind fun _ =>
      (reads_fragmentVariables allowed).bind fun _ => (reads_expect (by decide)).zero.bind
        fun _ => reads_name.zero.bind fun _ => (reads_directives false).bind fun _ =>
          reads_selectionSet.zero.bind fun _ => .pure _)

/-! ### The type system -/

theorem reads_inputValueDefinition : Reads 1 inputValueDefinition :=
  reads_spanned (.bind_right reads_description fun _ => reads_name.bind_left fun _ =>
    (reads_expect (by decide)).zero.bind fun _ => reads_typeRef.zero.bind fun _ =>
      (reads_after (reads_value true).zero).bind fun _ => (reads_directives true).bind fun _ =>
        .pure _)

theorem reads_argumentDefinitions : Reads 0 argumentDefinitions :=
  reads_optionalMany (by decide) reads_inputValueDefinition

theorem reads_fieldDefinition : Reads 1 fieldDefinition :=
  reads_spanned (.bind_right reads_description fun _ => reads_name.bind_left fun _ =>
    reads_argumentDefinitions.bind fun _ => (reads_expect (by decide)).zero.bind fun _ =>
      reads_typeRef.zero.bind fun _ => (reads_directives true).bind fun _ => .pure _)

theorem reads_enumValueDefinition : Reads 1 enumValueDefinition :=
  reads_spanned (.bind_right reads_description fun _ => .bind_right reads_current fun _ =>
    .ite (reads_fail _ _) (reads_name.bind_left fun _ => (reads_directives true).bind fun _ =>
      .pure _))

theorem reads_optionalBlock {item : Parser α} (hi : Reads 1 item) :
    Reads 0 (optionalBlock item) :=
  reads_optionalMany (by decide) hi

theorem reads_namesAfter {kind separator : TokenKind} (hs : separator ≠ .endOfInput) :
    Reads 0 (namesAfter kind separator) :=
  (reads_after (reads_separatedBy hs reads_name).zero).bind fun _ => .pure _

theorem reads_interfaces : Reads 0 interfaces := reads_namesAfter (by decide)

theorem reads_operationTypeDefinition : Reads 1 operationTypeDefinition :=
  reads_spanned (reads_operationType.bind_left fun _ => (reads_expect (by decide)).zero.bind
    fun _ => reads_name.zero.bind fun _ => .pure _)

theorem reads_schemaOperations (extend : Bool) : Reads 0 (schemaOperations extend) :=
  .ite (reads_optionalBlock reads_operationTypeDefinition)
    (reads_many (by decide) reads_operationTypeDefinition).zero

theorem reads_schema (about : Option StringValue) (extend : Bool) :
    Reads 1 (schema about extend) :=
  (reads_expect (by decide)).bind_left fun _ => (reads_directives true).bind fun _ =>
    (reads_schemaOperations extend).bind fun _ => .pure _

theorem reads_fieldsBody (body : List Name → List FieldDefinition → TypeBody) :
    Reads 0 (fieldsBody body) :=
  reads_interfaces.bind fun _ => (reads_directives true).bind fun _ =>
    (reads_optionalBlock reads_fieldDefinition).bind fun _ => .pure _

theorem reads_typeBody (k : Keyword) : Reads 0 (typeBody k) := by
  unfold typeBody
  split
  · exact (reads_directives true).bind fun _ => .pure _
  · exact reads_fieldsBody _
  · exact reads_fieldsBody _
  · exact (reads_directives true).bind fun _ =>
      (reads_namesAfter (by decide)).bind fun _ => .pure _
  · exact (reads_directives true).bind fun _ =>
      (reads_optionalBlock reads_enumValueDefinition).bind fun _ => .pure _
  · exact (reads_directives true).bind fun _ =>
      (reads_optionalBlock reads_inputValueDefinition).bind fun _ => .pure _
  · exact reads_unexpected _

theorem reads_typeDefinition (about : Option StringValue) (extend : Bool) (k : Keyword) :
    Reads 1 (typeDefinition about extend k) :=
  (reads_expect (by simp)).bind_left fun _ => reads_name.zero.bind fun _ =>
    (reads_typeBody k).bind fun _ => .pure _

theorem reads_directiveLocation : Reads 1 directiveLocation := by
  refine .bind_right reads_current fun l => .ite ?_ (reads_fail _ _)
  split
  · exact reads_expectName.bind_left fun _ => .pure _
  · exact reads_unexpected _

theorem reads_directiveDefinition (about : Option StringValue) :
    Reads 1 (directiveDefinition about) :=
  (reads_expect (by decide)).bind_left fun _ => (reads_expect (by decide)).zero.bind fun _ =>
    reads_name.zero.bind fun _ => reads_argumentDefinitions.bind fun _ =>
      (reads_accept _).bind fun _ => (reads_expect (by decide)).zero.bind fun _ =>
        (reads_separatedBy (by decide) reads_directiveLocation).zero.bind fun _ => .pure _

/-! ### Definitions -/

theorem reads_extended : Reads 1 extended := by
  refine .bind_right reads_current fun l => ?_
  split
  · exact (reads_schema _ _).bind_left fun _ => .pure _
  · exact .ite ((reads_typeDefinition _ _ _).bind_left fun _ => .pure _) (reads_unexpected _)
  · exact reads_unexpected _

theorem reads_extension : Reads 1 extension :=
  (reads_expect (by decide)).bind_left fun _ => reads_extended.zero.bind fun _ =>
    .ite (reads_unexpected _) (.pure _)

theorem reads_keywordDefinition (allowed : Bool) (about : Option StringValue) (k : Keyword) :
    Reads 1 (keywordDefinition allowed about k) := by
  unfold keywordDefinition
  refine .ite (reads_fail _ _) ?_
  split
  · exact reads_operation.bind_left fun _ => .pure _
  · exact reads_operation.bind_left fun _ => .pure _
  · exact reads_operation.bind_left fun _ => .pure _
  · exact (reads_fragment _).bind_left fun _ => .pure _
  · exact (reads_schema _ _).bind_left fun _ => .pure _
  · exact (reads_directiveDefinition _).bind_left fun _ => .pure _
  · exact reads_extension
  · exact .ite ((reads_typeDefinition _ _ _).bind_left fun _ => .pure _) (reads_unexpected _)

theorem reads_definition (allowed : Bool) : Reads 1 (definition allowed) := by
  refine reads_spanned (.bind_right (reads_sees _) fun _ => .ite
    (reads_shorthandQuery.bind_left fun _ => .pure _)
    (.bind_right reads_description fun _ => .bind_right reads_current fun _ => ?_))
  split
  · exact reads_keywordDefinition _ _ _
  · exact reads_unexpected _

theorem guarded_definitions (allowed : Bool) : Guarded 0 (definitionsBody allowed) where
  reads p hp := by
    refine (reads_attempt (reads_definition allowed)).bind_left fun r => ?_
    split
    · exact .pure _
    · exact (reads_sees _).bind fun _ => .ite (.pure _) (hp.bind fun _ => .pure _)
  agree n p q hp hpq := by
    intro c hc
    show (attempt (definition allowed) c >>= _) = (attempt (definition allowed) c >>= _)
    cases h : definition allowed c with
    | error e => simp [attempt, h, bind, Except.bind]
    | ok r =>
        obtain ⟨d, e⟩ := r
        have hlen := (reads_definition allowed).length_le h
        have hattempt : attempt (definition allowed) c = .ok (.ok d, e) := by
          simp [attempt, h]
        have hagree : AgreeBelow n
            (sees .endOfInput >>= fun b =>
              if b then pure ([d], none) else p >>= fun r => pure (d :: r.1, r.2))
            (sees .endOfInput >>= fun b =>
              if b then pure ([d], none) else q >>= fun r => pure (d :: r.1, r.2)) :=
          .bind_right (reads_sees _) fun _ => .ite (.refl _ _) (.bind_left hpq)
        rw [hattempt]
        exact hagree e (by omega)

theorem definitions_eq (allowed : Bool) :
    definitions allowed = definitionsBody allowed (definitions allowed) :=
  (guarded_definitions allowed).fix_eq

theorem reads_definitions (allowed : Bool) : Reads 0 (definitions allowed) :=
  (guarded_definitions allowed).reads_fix

section
variable {allowed : Bool} {c d : Cursor} {x : Definition}

/-- A fault ends the definitions. -/
theorem definitions_of_error {err : SyntaxError} (h : definition allowed c = .error err) :
    definitions allowed c = .ok (([], some err), c) := by
  have hattempt : attempt (definition allowed) c = .ok (.error err, c) := by
    simp only [attempt, h]
  rw [definitions_eq]
  exact bind_eq_ok.2 ⟨_, _, hattempt, rfl⟩

theorem attempt_definition (h : definition allowed c = .ok (x, d)) :
    attempt (definition allowed) c = .ok (.ok x, d) := by
  simp only [attempt, h]

/-- The end of the input ends the definitions. -/
theorem definitions_of_last (h : definition allowed c = .ok (x, d))
    (hend : d.current.kind = .endOfInput) : definitions allowed c = .ok (([x], none), d) := by
  rw [definitions_eq]
  refine bind_eq_ok.2 ⟨_, _, attempt_definition h, ?_⟩
  change (if (d.current.kind == .endOfInput) = true then _ else _ : Parser _) d = _
  rw [if_pos (beq_iff_eq.2 hend)]
  rfl

/-- Where something is left, more definitions are read. -/
theorem definitions_of_more {e : Cursor} {r : List Definition × Option SyntaxError}
    (h : definition allowed c = .ok (x, d)) (hmore : d.current.kind ≠ .endOfInput)
    (hr : definitions allowed d = .ok (r, e)) :
    definitions allowed c = .ok ((x :: r.1, r.2), e) := by
  rw [definitions_eq]
  refine bind_eq_ok.2 ⟨_, _, attempt_definition h, ?_⟩
  change (if (d.current.kind == .endOfInput) = true then _ else _ : Parser _) d = _
  rw [if_neg (mt beq_iff_eq.1 hmore)]
  exact bind_eq_ok.2 ⟨_, _, hr, rfl⟩

end

end GraphQL.Grammar
