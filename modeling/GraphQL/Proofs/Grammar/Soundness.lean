import GraphQL.Grammar.Progress
import GraphQL.Proofs.Grammar.Spelling
import GraphQL.Proofs.Grammar.Validity
import GraphQL.Proofs.Lexer.Coherence

/-!
What a parser that succeeds has read. The lexemes it took from the front spell
the tree it answers with, each of them exactly once, and the tree meets the
conditions of the grammar. One rule for each way to put parsers together gives
one lemma for each production.
-/

namespace GraphQL

namespace Lexeme

theorem Coherent.eq_punctuator {l : Lexeme} {p : Punctuator} (h : l.Coherent)
    (hk : l.kind = .punctuator p) : l = .punctuator p := by
  obtain ⟨kind, text⟩ := l
  subst hk
  exact congrArg (Lexeme.mk _) h

theorem Coherent.eq_word {l : Lexeme} (h : l.Coherent) (hk : l.kind.isName = true) :
    l = .word l.text := by
  obtain ⟨kind, text⟩ := l
  cases kind with
  | name => exact congrArg (Lexeme.mk · text) h
  | keyword k => exact congrArg (Lexeme.mk · text) h
  | _ => cases hk

theorem Coherent.eq_keyword {l : Lexeme} {k : Keyword} (h : l.Coherent)
    (hk : l.kind = .keyword k) : l = .keyword k := by
  have hword := h.eq_word (by rw [hk]; rfl)
  have hof : TokenKind.ofName l.text = .keyword k := by
    rw [← hk, hword]
    rfl
  have htext : l.text = k.word := by
    unfold TokenKind.ofName at hof
    split at hof
    · rename_i k' h'
      cases hof
      exact (Keyword.word_of_ofWord? h').symm
    · cases hof
  rw [hword, htext, word_keyword]

theorem Coherent.kind_ne_endOfInput {l : Lexeme} (h : l.Coherent) : l.kind ≠ .endOfInput := by
  intro heq
  unfold Coherent at h
  rw [heq] at h
  exact h

/-- A lexeme that a document may hold: its kind is proper, and if it is a string it
has a value. -/
structure Proper (l : Lexeme) : Prop where
  kind : l.kind.isProper = true
  value : l.kind = .string → (stringValue l.text).isOk = true

theorem Proper.of_kind {l : Lexeme} {k : TokenKind} (h : l.kind = k) (hk : k.isProper = true)
    (hs : k ≠ .string) : l.Proper :=
  ⟨h ▸ hk, fun hl => absurd (h.symm.trans hl) hs⟩

theorem Proper.of_isName {l : Lexeme} (h : l.kind.isName = true) : l.Proper := by
  refine .of_kind rfl (TokenKind.isProper_of_isName h) fun hs => ?_
  rw [hs] at h
  cases h

end Lexeme

namespace Grammar

variable {α β : Type}

/-- Where a parser succeeds at a cursor, it has taken proper lexemes from the front
and they fit its answer. -/
def SoundAt (c : Cursor) (p : Parser α) (R : α → List Lexeme → Prop) : Prop :=
  (∀ l ∈ c.rest, l.Coherent) → ∀ a d, p c = .ok (a, d) →
    ∃ ls, c.rest = ls ++ d.rest ∧ (∀ l ∈ ls, l.Proper) ∧ R a ls

/-- The lexemes spell a tree, and the tree is valid. -/
def SpellsValid (slots : α → List Slot) (valid : α → Prop) (a : α) (ls : List Lexeme) : Prop :=
  Spells (slots a) ls ∧ valid a

namespace SoundAt

variable {c : Cursor} {p : Parser α} {f : α → Parser β} {Q : α → List Lexeme → Prop}
  {R : β → List Lexeme → Prop}

/-! ### Steps -/

theorem imp {Q' : α → List Lexeme → Prop} (h : SoundAt c p Q) (hq : ∀ a ls, Q a ls → Q' a ls) :
    SoundAt c p Q' := by
  intro hc a d ha
  obtain ⟨ls, hrest, hproper, hls⟩ := h hc a d ha
  exact ⟨ls, hrest, hproper, hq a ls hls⟩

theorem pure {a : α} (h : Q a []) : SoundAt c (pure a) Q := by
  intro _ b d hb
  obtain ⟨rfl, rfl⟩ := Prod.mk.inj (pure_eq_ok.1 hb)
  exact ⟨[], rfl, List.forall_mem_nil _, h⟩

/-- What is read after a part need fit only behind it. -/
theorem bind (hp : SoundAt c p Q)
    (hf : ∀ a d ls, Q a ls → SoundAt d (f a) fun b ms => R b (ls ++ ms)) :
    SoundAt c (p >>= f) R := by
  intro hc b e h
  obtain ⟨a, d, ha, hb⟩ := bind_eq_ok.1 h
  obtain ⟨ls, hrest, hproper, hls⟩ := hp hc a d ha
  have hd : ∀ l ∈ d.rest, l.Coherent := fun l hl =>
    hc l (hrest ▸ List.mem_append_right ls hl)
  obtain ⟨ms, hrest', hproper', hms⟩ := hf a d ls hls hd b e hb
  exact ⟨ls ++ ms, by rw [hrest, hrest', List.append_assoc],
    List.forall_mem_append.2 ⟨hproper, hproper'⟩, hms⟩

/-- The last part of a sequence. -/
theorem last {g : α → β} (hp : SoundAt c p Q) (hg : ∀ a ls, Q a ls → R (g a) ls) :
    SoundAt c (p >>= fun a => Pure.pure (g a)) R :=
  hp.bind fun a _ ls h => .pure (by rw [List.append_nil]; exact hg a ls h)

theorem map {g : α → β} (hp : SoundAt c p Q) (hg : ∀ a ls, Q a ls → R (g a) ls) :
    SoundAt c (g <$> p) R := by
  rw [map_eq_pure_bind]
  exact hp.last hg

theorem fail (fault : Lexeme → Fault) : SoundAt c (fail fault) Q := by
  intro _ a d h
  cases h

theorem unexpected : SoundAt c unexpected Q := .fail _

theorem ite {t : Prop} [Decidable t] {p q : Parser α} (hp : t → SoundAt c p Q)
    (hq : ¬t → SoundAt c q Q) : SoundAt c (if t then p else q) Q := by
  split
  · exact hp ‹_›
  · exact hq ‹_›

/-- Looking at the next lexeme takes nothing. -/
theorem current {f : Lexeme → Parser β} (h : SoundAt c (f c.current) R) :
    SoundAt c (current >>= f) R := h

theorem position {f : Nat → Parser β} (h : SoundAt c (f c.position) R) :
    SoundAt c (position >>= f) R := h

theorem sees {kind : TokenKind} {f : Bool → Parser β}
    (h : SoundAt c (f (c.current.kind == kind)) R) : SoundAt c (sees kind >>= f) R := h

theorem seesName {f : Bool → Parser β} (h : SoundAt c (f c.current.kind.isName) R) :
    SoundAt c (seesName >>= f) R := h

/-- The span of a node is not spelled. -/
theorem spanned {node : Parser (Option Span → α)}
    (h : SoundAt c node fun build ls => ∀ s, Q (build s) ls) : SoundAt c (spanned node) Q :=
  .position (h.bind fun _ _ _ hb => .position (.pure (by rw [List.append_nil]; exact hb _)))

/-! ### Single lexemes -/

theorem advance (hc : c.current.Proper) :
    SoundAt c advance fun l ls => ls = [l] ∧ l = c.current ∧ l.Coherent := by
  obtain ⟨n, rest⟩ := c
  intro hcoh l d h
  cases rest with
  | nil => cases hc.kind
  | cons m rest =>
      cases h
      exact ⟨[l], rfl, List.forall_mem_singleton.2 hc, rfl, rfl, hcoh l List.mem_cons_self⟩

theorem expect {kind : TokenKind} (hk : c.current.kind = kind → c.current.Proper) :
    SoundAt c (expect kind) fun l ls => ls = [l] ∧ l.kind = kind ∧ l = c.current ∧ l.Coherent := by
  refine .sees (.ite (fun hkind => ?_) fun _ => .fail _)
  have hkind := eq_of_beq hkind
  refine (advance (hk hkind)).imp fun l ls h => ?_
  obtain ⟨hls, hl, hcoh⟩ := h
  exact ⟨hls, hl ▸ hkind, hl, hcoh⟩

theorem expectName : SoundAt c expectName fun l ls =>
    ls = [.word l.text] ∧ l = c.current ∧ c.current.kind = .ofName l.text := by
  refine .seesName (.ite (fun hname => ?_) fun _ => .fail _)
  refine (advance (.of_isName hname)).imp fun l ls h => ?_
  obtain ⟨rfl, rfl, hcoh⟩ := h
  have hword := hcoh.eq_word hname
  exact ⟨congrArg (fun l => [l]) hword, rfl, congrArg Lexeme.kind hword⟩

/-- A punctuator that must stand here, and what follows it. -/
theorem mark {sign : Punctuator} {f : Lexeme → Parser β}
    (h : ∀ l d, SoundAt d (f l) fun b ms => R b (.punctuator sign :: ms)) :
    SoundAt c (Grammar.expect (.punctuator sign) >>= f) R := by
  refine .bind (.expect fun h => .of_kind h rfl nofun) fun l d ls hl => ?_
  obtain ⟨rfl, hkind, -, hcoh⟩ := hl
  rw [hcoh.eq_punctuator hkind]
  exact h _ d

/-- A keyword that must stand here, and what follows it. -/
theorem keyword {k : Keyword} {f : Lexeme → Parser β}
    (h : ∀ l d, SoundAt d (f l) fun b ms => R b (.keyword k :: ms)) :
    SoundAt c (Grammar.expect (.keyword k) >>= f) R := by
  refine .bind (.expect fun h => .of_kind h rfl nofun) fun l d ls hl => ?_
  obtain ⟨rfl, hkind, -, hcoh⟩ := hl
  rw [hcoh.eq_keyword hkind]
  exact h _ d

/-- The slots of a lexeme that was read or not. -/
theorem accept {kind : TokenKind} {l : Lexeme} (hk : c.current.kind = kind → c.current.Proper)
    (hl : ∀ m : Lexeme, m.Coherent → m.kind = kind → m = l) :
    SoundAt c (accept kind) fun b ls => Spells (if b then [.lexeme l] else []) ls := by
  refine .sees (.ite (fun hkind => ?_) fun _ => .pure .nil)
  have hkind := eq_of_beq hkind
  refine (advance (hk hkind)).last fun m ls h => ?_
  obtain ⟨rfl, rfl, hcoh⟩ := h
  rw [hl _ hcoh hkind]
  exact .single l

theorem accept_mark {sign : Punctuator} :
    SoundAt c (Grammar.accept (.punctuator sign)) fun b ls =>
      Spells (if b then [.mark sign] else []) ls :=
  .accept (fun h => .of_kind h rfl nofun) fun _ hcoh hkind => hcoh.eq_punctuator hkind

theorem accept_keyword {k : Keyword} :
    SoundAt c (Grammar.accept (.keyword k)) fun b ls =>
      Spells (if b then [.keyword k] else []) ls :=
  .accept (fun h => .of_kind h rfl nofun) fun _ hcoh hkind => hcoh.eq_keyword hkind

/-! ### Recursion and lists -/

/-- What the body of a recursion passes on holds of the recursion. -/
theorem fix {body : Parser α → Parser α}
    (h : ∀ p, (∀ d, SoundAt d p Q) → ∀ d, SoundAt d (body p) Q) : SoundAt c (fix body) Q := by
  have hunroll : ∀ ls d, SoundAt d (unroll body ls) Q := by
    intro ls
    induction ls with
    | nil => exact fun _ => .unexpected
    | cons l ls ih => exact h _ ih
  exact h _ (hunroll c.rest) c

section
variable {item : Parser α} {slots : α → List Slot} {valid : α → Prop}
  (hi : ∀ d, SoundAt d item (SpellsValid slots valid))
include hi

theorem upTo {close : Punctuator} : SoundAt c (upTo (.punctuator close) item)
    (SpellsValid (fun xs => xs.flatMap slots ++ [.mark close]) fun xs => ∀ x ∈ xs, valid x) := by
  refine .fix fun again hagain d => .bind .accept_mark fun b e ls hls => .ite (fun hb => ?_)
    fun hb => ?_
  · refine .pure ?_
    rw [List.append_nil]
    rw [if_pos hb] at hls
    exact ⟨hls, List.forall_mem_nil _⟩
  · rw [if_neg hb, Spells.nil_iff] at hls
    subst hls
    refine .bind (hi e) fun x e' ls hx => .last (hagain e') fun xs ms hxs => ⟨?_, ?_⟩
    · show Spells ((x :: xs).flatMap slots ++ _) (ls ++ ms)
      rw [List.flatMap_cons, List.append_assoc]
      exact hx.1.append hxs.1
    · exact List.forall_mem_cons.2 ⟨hx.2, hxs.2⟩

theorem many {opening close : Punctuator} :
    SoundAt c (many (.punctuator opening) (.punctuator close) item)
      (SpellsValid (enclosed slots opening close) fun xs => xs ≠ [] ∧ ∀ x ∈ xs, valid x) := by
  refine .mark fun _ d => .bind (hi d) fun x e ls hx => .last (.upTo hi) fun xs ms hxs => ?_
  refine ⟨.lexeme _ ?_, List.cons_ne_nil _ _, List.forall_mem_cons.2 ⟨hx.2, hxs.2⟩⟩
  rw [List.flatMap_cons, List.append_assoc]
  exact hx.1.append hxs.1

theorem optionalMany {opening close : Punctuator} :
    SoundAt c (optionalMany (.punctuator opening) (.punctuator close) item)
      (SpellsValid (group slots opening close) fun xs => ∀ x ∈ xs, valid x) := by
  refine .sees (.ite (fun _ => ?_) fun _ => .pure ⟨.nil, List.forall_mem_nil _⟩)
  refine (many hi).imp fun xs ls h => ?_
  obtain ⟨hls, hne, hvalid⟩ := h
  cases xs with
  | nil => exact absurd rfl hne
  | cons x xs => exact ⟨hls, hvalid⟩

theorem whileSees {kind : TokenKind} : SoundAt c (whileSees kind item)
    (SpellsValid (fun xs => xs.flatMap slots) fun xs => ∀ x ∈ xs, valid x) := by
  refine .fix fun again hagain d => .sees (.ite (fun _ => ?_) fun _ => ?_)
  · refine .bind (hi d) fun x e ls hx => .last (hagain e) fun xs ms hxs => ?_
    exact ⟨hx.1.append hxs.1, List.forall_mem_cons.2 ⟨hx.2, hxs.2⟩⟩
  · exact .pure ⟨.nil, List.forall_mem_nil _⟩

theorem separatedBy {separator : Punctuator} :
    SoundAt c (separatedBy (.punctuator separator) item)
      (SpellsValid (separated slots separator) fun xs => xs ≠ [] ∧ ∀ x ∈ xs, valid x) := by
  have hnext : ∀ d, SoundAt d (do let _ ← Grammar.expect (.punctuator separator); item)
      (SpellsValid (fun x => .mark separator :: slots x) valid) := fun d =>
    .mark fun _ e => (hi e).imp fun x ls hx => ⟨.lexeme _ hx.1, hx.2⟩
  refine .bind .accept_mark fun b d front hfront => .bind (hi d) fun x e ls hx =>
    .last (.whileSees hnext) fun xs ms hxs => ?_
  refine ⟨?_, List.cons_ne_nil _ _, List.forall_mem_cons.2 ⟨hx.2, hxs.2⟩⟩
  cases b with
  | true =>
      obtain ⟨rest, rfl, hrest⟩ := Spells.lexeme_iff.1 hfront
      rw [Spells.nil_iff.1 hrest]
      exact .present _ (hx.1.append hxs.1)
  | false =>
      rw [Spells.nil_iff.1 hfront]
      exact .absent _ (hx.1.append hxs.1)

/-- An item behind a test, with the slots that the test reads in front of it. -/
theorem onlyIf {test : Parser Bool} {front : List Slot}
    (ht : SoundAt c test fun b ls => Spells (if b then front else []) ls) :
    SoundAt c (onlyIf test item)
      (SpellsValid (optionalSlots fun x => front ++ slots x) fun o => ∀ x ∈ o, valid x) := by
  refine .bind ht fun b d ls hls => .ite (fun hb => ?_) fun hb => ?_
  · rw [if_pos hb] at hls
    refine .last (hi d) fun x ms hx => ⟨hls.append hx.1, ?_⟩
    rintro y ⟨⟩
    exact hx.2
  · rw [if_neg hb, Spells.nil_iff] at hls
    subst hls
    exact .pure ⟨.nil, nofun⟩

end

/-- A test that takes nothing. -/
theorem test {k : Lexeme → Bool} :
    SoundAt c (do return k (← Grammar.current)) fun b ls => Spells (if b then [] else []) ls :=
  .current (.pure (by rw [ite_self]; exact .nil))

end SoundAt
/-! ### Values -/

variable {c : Cursor}

/-- A name, which is the next lexeme. -/
theorem sound_name : SoundAt c name fun n ls =>
    Spells n.slots ls ∧ n.value = c.current.text ∧ c.current.kind = .ofName n.value := by
  refine .spanned (.last .expectName fun l ls h s => ?_)
  obtain ⟨rfl, rfl, hkind⟩ := h
  exact ⟨.single _, rfl, hkind⟩

/-- A name of which nothing is asked. -/
theorem sound_anyName : SoundAt c name (SpellsValid Name.slots fun _ => True) :=
  sound_name.imp fun _ _ h => ⟨h.1, trivial⟩

theorem sound_stringValueNode :
    SoundAt c stringValueNode (SpellsValid StringValue.slots fun _ => True) := by
  refine .spanned (.current ?_)
  split
  · refine .last (.expect fun h => .of_kind h rfl nofun) fun l ls h s => ⟨?_, trivial⟩
    obtain ⟨rfl, hkind, rfl, -⟩ := h
    exact .string ⟨hkind, rfl⟩ .nil
  · split
    · rename_i value hvalue
      have hproper : c.current.kind = .string → c.current.Proper := fun h =>
        ⟨by rw [h]; rfl, fun _ => by rw [hvalue]; rfl⟩
      refine .last (.expect hproper) fun l ls h s => ⟨?_, trivial⟩
      obtain ⟨rfl, hkind, rfl, -⟩ := h
      exact .string ⟨hkind, hvalue⟩ .nil
    · exact .fail _
  · exact .unexpected

theorem sound_description : SoundAt c description fun o ls => Spells (descriptionSlots o) ls := by
  have htest : SoundAt c seesString fun b ls => Spells (if b then [] else []) ls := by
    refine .current ?_
    split
    all_goals exact .pure .nil
  exact (SoundAt.onlyIf (fun _ => sound_stringValueNode) htest).imp fun _ _ h => h.1

theorem sound_argumentOf {const : Bool} {value : Parser Value}
    (hv : ∀ d, SoundAt d value (SpellsValid Value.slots (Value.Valid const))) :
    SoundAt c (argumentOf value) (SpellsValid Argument.slots (Argument.Valid const)) := by
  refine .spanned (.bind sound_name fun n d ls hn => .mark fun _ e =>
    .last (hv e) fun v ms hv s => ⟨?_, hv.2⟩)
  exact hn.1.append (.lexeme _ hv.1)

/-- A name that was not taken for a value of another kind. -/
theorem unreserved_of_kind {n : Name} (h : isReserved (.ofName n.value) = false) :
    n.Unreserved := by
  refine ⟨fun heq => ?_, fun heq => ?_, fun heq => ?_⟩
  all_goals
    rw [heq] at h
    revert h
    decide

theorem sound_valueBody {const : Bool} {inner : Parser Value}
    (hi : ∀ d, SoundAt d inner (SpellsValid Value.slots (Value.Valid const))) :
    SoundAt c (valueBody const inner) (SpellsValid Value.slots (Value.Valid const)) := by
  -- One case for each way to start a value, in the order of the grammar.
  refine .current ?_
  split
  · refine .ite (fun _ => .unexpected) fun hconst => .mark fun _ d =>
      .last sound_name fun n ls hn => ⟨.lexeme _ hn.1, .var n (by simpa using hconst)⟩
  · refine .spanned (.last (.expect fun h => .of_kind h rfl nofun) fun l ls h s =>
      ⟨?_, .int _ _⟩)
    obtain ⟨rfl, hkind, -⟩ := h
    exact .of_kind hkind
  · refine .spanned (.last (.expect fun h => .of_kind h rfl nofun) fun l ls h s =>
      ⟨?_, .float _ _⟩)
    obtain ⟨rfl, hkind, -⟩ := h
    exact .of_kind hkind
  · exact .last sound_stringValueNode fun v ls hv => ⟨hv.1, .string v⟩
  · exact .last sound_stringValueNode fun v ls hv => ⟨hv.1, .string v⟩
  · exact .spanned (.keyword fun _ d => .pure fun s => ⟨.single _, .boolean true s⟩)
  · exact .spanned (.keyword fun _ d => .pure fun s => ⟨.single _, .boolean false s⟩)
  · exact .spanned (.keyword fun _ d => .pure fun s => ⟨.single _, .null s⟩)
  · refine .spanned (.mark fun _ d => .last (.upTo hi) fun vs ls hvs s => ⟨?_, .list vs s hvs.2⟩)
    rw [Value.slots_list]
    exact .lexeme _ hvs.1
  · refine .spanned (.mark fun _ d => .last (.upTo fun _ => sound_argumentOf hi)
      fun fs ls hfs s => ⟨?_, .object fs s hfs.2⟩)
    rw [Value.slots_object]
    exact .lexeme _ hfs.1
  · rename_i hkind
    refine .last sound_name fun n ls hn => ⟨hn.1, .enum n (unreserved_of_kind ?_)⟩
    rw [← hn.2.2, hkind]
    rfl
  · rename_i htrue hfalse hnull hkind
    refine .last sound_name fun n ls hn => ⟨hn.1, .enum n (unreserved_of_kind ?_)⟩
    rw [← hn.2.2, hkind]
    simp_all [isReserved]
  · exact .unexpected

theorem sound_value (const : Bool) :
    SoundAt c (value const) (SpellsValid Value.slots (Value.Valid const)) :=
  .fix fun _ hp _ => sound_valueBody hp

theorem sound_arguments (const : Bool) : SoundAt c (arguments const)
    (SpellsValid argumentSlots fun as => ∀ a ∈ as, a.Valid const) :=
  .optionalMany fun _ => sound_argumentOf fun _ => sound_value const

theorem sound_directive (const : Bool) :
    SoundAt c (directive const) (SpellsValid Directive.slots (Directive.Valid const)) := by
  refine .spanned (.mark fun _ d => .bind sound_name fun n e ls hn =>
    .last (sound_arguments const) fun as ms has s => ⟨?_, ⟨has.2⟩⟩)
  exact .lexeme _ (hn.1.append has.1)

theorem sound_directives (const : Bool) : SoundAt c (directives const)
    (SpellsValid (fun ds => ds.flatMap Directive.slots) fun ds => ∀ d ∈ ds, d.Valid const) :=
  .whileSees fun _ => sound_directive const

/-! ### Types -/

theorem sound_nullableTypeRef {inner : Parser TypeRef}
    (hi : ∀ d, SoundAt d inner (SpellsValid TypeRef.slots TypeRef.Valid)) :
    SoundAt c (nullableTypeRef inner)
      (SpellsValid TypeRef.slots fun t => t.isNonNull = false ∧ t.Valid) := by
  refine .sees (.ite (fun _ => ?_) fun _ => ?_)
  · refine .spanned (.mark fun _ d => .bind (hi d) fun t e ls ht => .mark fun _ e' =>
      .pure fun s => ⟨?_, rfl, ht.2⟩)
    exact .lexeme _ (ht.1.append (.single _))
  · exact .last sound_name fun n ls hn => ⟨hn.1, rfl, trivial⟩

theorem sound_typeRef : SoundAt c typeRef (SpellsValid TypeRef.slots TypeRef.Valid) := by
  refine .fix fun inner hi d => .position (.bind (sound_nullableTypeRef hi) fun t e ls ht =>
    .bind .accept_mark fun b e' ms hms => .ite (fun hb => .position (.pure ?_)) fun hb => .pure ?_)
  · rw [if_pos hb] at hms
    rw [List.append_nil]
    exact ⟨ht.1.append hms, ht.2⟩
  · rw [if_neg hb, Spells.nil_iff] at hms
    rw [hms, List.append_nil, List.append_nil]
    exact ⟨ht.1, ht.2.2⟩

/-! ### Selections -/

/-- A selection that is valid itself, with a valid set under it. -/
def SelectionValid (x : Selection) : Prop :=
  x.OwnValid ∧ ∀ set ∈ x.inner?, set.Valid

section
variable {set : Parser SelectionSet}
  (hs : ∀ d, SoundAt d set (SpellsValid SelectionSet.slots SelectionSet.Valid))
include hs

theorem sound_field : SoundAt c (field set)
    (SpellsValid Field.slots fun x => SelectionValid (.field x)) := by
  refine .spanned (.bind sound_anyName fun first d ls hfirst => ?_)
  refine .bind (.onlyIf (fun _ => sound_anyName) .accept_mark) fun second d ms hsecond => ?_
  refine .bind (sound_arguments false) fun as d as' has => ?_
  refine .bind (sound_directives false) fun ds d ds' hds => ?_
  refine .bind (.onlyIf hs .test) fun inner d is his => ?_
  obtain ⟨hsecond, -⟩ := hsecond
  have hvalid : ∀ a n s, SelectionValid (.field ⟨a, n, as, ds, inner, s⟩) := fun _ _ _ =>
    ⟨⟨has.2, hds.2⟩, his.2⟩
  -- A second name makes the first one an alias.
  cases second with
  | some n =>
      refine .pure fun s => ⟨?_, hvalid _ _ s⟩
      obtain ⟨rest, rfl, hrest⟩ := Spells.lexeme_iff.1 hsecond
      rw [Field.slots_eq, List.append_nil, aliasSlots, optionalSlots, List.append_assoc]
      exact hfirst.1.append (.lexeme _ (hrest.append (has.1.append (hds.1.append his.1))))
  | none =>
      refine .pure fun s => ⟨?_, hvalid _ _ s⟩
      rw [Field.slots_eq, List.append_nil, Spells.nil_iff.1 hsecond]
      exact hfirst.1.append (has.1.append (hds.1.append his.1))

theorem sound_spread : SoundAt c (spread set)
    fun build ls => ∀ s, SpellsValid Selection.slots SelectionValid (build s) ls := by
  refine .mark fun _ d => .current (.ite (fun hname => ?_) fun _ => ?_)
  · refine .bind sound_name fun n d ls hn => .last (sound_directives false) fun ds ms hds s => ?_
    have hon : n.value ≠ "on" := by
      intro heq
      refine hname.2 ?_
      rw [hn.2.2, heq]
      rfl
    exact ⟨.lexeme _ (hn.1.append hds.1), ⟨hon, hds.2⟩, nofun⟩
  · refine .bind (.onlyIf (fun _ => sound_anyName) .accept_keyword) fun o d ls ho =>
      .bind (sound_directives false) fun ds d ms hds => .last (hs d) fun inner is hinner s => ?_
    refine ⟨.lexeme _ ?_, hds.2, ?_⟩
    · exact ho.1.append (hds.1.append hinner.1)
    · rintro set ⟨⟩
      exact hinner.2

theorem sound_selection :
    SoundAt c (selection set) (SpellsValid Selection.slots SelectionValid) :=
  .sees (.ite (fun _ => .spanned (sound_spread hs)) fun _ =>
    .map (sound_field hs) fun _ _ h => h)

end

theorem sound_selectionSet :
    SoundAt c selectionSet (SpellsValid SelectionSet.slots SelectionSet.Valid) := by
  refine .fix fun inner hi d => .spanned (.last (.many fun _ => sound_selection hi)
    fun ss ls hss s => ⟨?_, ?_⟩)
  · rw [SelectionSet.slots_eq]
    exact hss.1
  · exact .mk ss s hss.2.1 (fun x hx => (hss.2.2 x hx).1) fun x hx => (hss.2.2 x hx).2

/-! ### What is executed -/

theorem sound_default : SoundAt c (after (.punctuator .equals) (value true))
    (SpellsValid defaultSlots fun o => ∀ v ∈ o, v.Valid true) :=
  .onlyIf (fun _ => sound_value true) .accept_mark

theorem sound_variableDefinition : SoundAt c variableDefinition
    (SpellsValid VariableDefinition.slots VariableDefinition.Valid) := by
  refine .spanned (.mark fun _ d => .bind sound_name fun n d ls hn => .mark fun _ d => ?_)
  refine .bind sound_typeRef fun t d ts ht => ?_
  refine .bind sound_default fun v d vs hv => ?_
  refine .last (sound_directives true) fun ds ms hds s => ⟨?_, ht.2, hv.2, hds.2⟩
  have htyped := ht.1.append (hv.1.append hds.1)
  exact .lexeme _ (hn.1.append (.lexeme _ htyped))

theorem sound_variableDefinitions : SoundAt c variableDefinitions
    (SpellsValid variableSlots fun vs => ∀ v ∈ vs, v.Valid) :=
  .optionalMany fun _ => sound_variableDefinition

theorem sound_operationType : SoundAt c operationType fun t ls => ls = [.keyword t.keyword] := by
  refine .current ?_
  split
  · exact .keyword fun _ _ => .pure rfl
  · exact .keyword fun _ _ => .pure rfl
  · exact .keyword fun _ _ => .pure rfl
  · exact .unexpected

theorem sound_shorthandQuery : SoundAt c shorthandQuery
    fun build ls => ∀ s, SpellsValid OperationDefinition.slots OperationDefinition.Valid
      (build s) ls := by
  refine .last sound_selectionSet fun set ls hset s => ⟨.absent _ hset.1, ?_⟩
  exact ⟨List.forall_mem_nil _, List.forall_mem_nil _, hset.2⟩

theorem sound_operation : SoundAt c operation
    fun build ls => ∀ s, SpellsValid OperationDefinition.slots OperationDefinition.Valid
      (build s) ls := by
  refine .bind sound_operationType fun t d ts ht => ?_
  refine .bind (.onlyIf (fun _ => sound_anyName) .test) fun n d ns hn => ?_
  refine .bind sound_variableDefinitions fun vs d vs' hvs => ?_
  refine .bind (sound_directives false) fun ds d ds' hds => ?_
  refine .last sound_selectionSet fun set ls hset s => ⟨?_, hvs.2, hds.2, hset.2⟩
  subst ht
  unfold OperationDefinition.slots
  split
  · -- A plain query that has its keyword.
    rename_i hplain
    simp only [OperationDefinition.isPlain, Bool.and_eq_true, beq_iff_eq,
      Option.isNone_iff_eq_none, List.isEmpty_iff] at hplain
    obtain ⟨⟨⟨rfl, rfl⟩, rfl⟩, rfl⟩ := hplain
    rw [Spells.nil_iff.1 hn.1, Spells.nil_iff.1 hvs.1, Spells.nil_iff.1 hds.1]
    exact .present _ hset.1
  · exact .lexeme _ (hn.1.append (hvs.1.append (hds.1.append hset.1)))

/-- Where the next lexeme opens a list of variables, there is at least one. -/
theorem sound_fragmentVariables (allowed : Bool) : SoundAt c (fragmentVariables allowed)
    (SpellsValid (optionalSlots variableSlots) fun o =>
      ∀ vs ∈ o, allowed = true ∧ vs ≠ [] ∧ ∀ v ∈ vs, v.Valid) := by
  refine .sees (.ite (fun hopen => .ite (fun hallowed => ?_) fun _ => .fail _) fun _ =>
    .pure ⟨.nil, nofun⟩)
  have hmany : SoundAt c variableDefinitions (SpellsValid variableSlots fun vs =>
      vs ≠ [] ∧ ∀ v ∈ vs, v.Valid) := by
    refine .sees (.ite (fun _ => ?_) fun hclosed => absurd hopen hclosed)
    refine (SoundAt.many fun _ => sound_variableDefinition).imp fun vs ls hvs => ⟨?_, hvs.2⟩
    cases vs with
    | nil => exact absurd rfl hvs.2.1
    | cons v vs => exact hvs.1
  refine .map hmany fun vs ls hvs => ⟨hvs.1, ?_⟩
  rintro ws ⟨⟩
  exact ⟨hallowed, hvs.2⟩

theorem sound_fragment (allowed : Bool) : SoundAt c (fragment allowed)
    fun build ls => ∀ s, SpellsValid FragmentDefinition.slots
      (FragmentDefinition.Valid allowed) (build s) ls := by
  refine .keyword fun _ d => .sees (.ite (fun _ => .unexpected) fun hon => ?_)
  refine .bind sound_name fun n d ls hn => ?_
  refine .bind (sound_fragmentVariables allowed) fun vs d vs' hvs => .keyword fun _ d => ?_
  refine .bind sound_anyName fun t d ts ht => ?_
  refine .bind (sound_directives false) fun ds d ds' hds => ?_
  refine .last sound_selectionSet fun set ms hset s => ⟨?_, ?_, hvs.2, hds.2, hset.2⟩
  · have hcondition := ht.1.append (hds.1.append hset.1)
    exact .lexeme _ (hn.1.append (hvs.1.append (.lexeme _ hcondition)))
  · intro heq
    refine hon (beq_iff_eq.2 ?_)
    rw [hn.2.2, heq]
    rfl

/-! ### The type system -/

theorem sound_inputValueDefinition : SoundAt c inputValueDefinition
    (SpellsValid InputValueDefinition.slots InputValueDefinition.Valid) := by
  refine .spanned (.bind sound_description fun about d ls habout => ?_)
  refine .bind sound_name fun n d ns hn => .mark fun _ d => ?_
  refine .bind sound_typeRef fun t d ts ht => ?_
  refine .bind sound_default fun v d vs hv => ?_
  refine .last (sound_directives true) fun ds ms hds s => ⟨?_, ht.2, hv.2, hds.2⟩
  have htyped := ht.1.append (hv.1.append hds.1)
  exact habout.append (hn.1.append (.lexeme _ htyped))

theorem sound_argumentDefinitions : SoundAt c argumentDefinitions
    (SpellsValid argumentDefinitionSlots fun as => ∀ a ∈ as, a.Valid) :=
  .optionalMany fun _ => sound_inputValueDefinition

theorem sound_fieldDefinition : SoundAt c fieldDefinition
    (SpellsValid FieldDefinition.slots FieldDefinition.Valid) := by
  refine .spanned (.bind sound_description fun about d ls habout => ?_)
  refine .bind sound_name fun n d ns hn => ?_
  refine .bind sound_argumentDefinitions fun as d as' has => .mark fun _ d => ?_
  refine .bind sound_typeRef fun t d ts ht => ?_
  refine .last (sound_directives true) fun ds ms hds s => ⟨?_, has.2, ht.2, hds.2⟩
  have htyped := ht.1.append hds.1
  exact habout.append (hn.1.append (has.1.append (.lexeme _ htyped)))

theorem sound_enumValueDefinition : SoundAt c enumValueDefinition
    (SpellsValid EnumValueDefinition.slots EnumValueDefinition.Valid) := by
  refine .spanned (.bind sound_description fun about d ls habout => ?_)
  refine .current (.ite (fun _ => .fail _) fun hkind => ?_)
  refine .bind sound_name fun n d ns hn => ?_
  refine .last (sound_directives true) fun ds ms hds s => ⟨?_, unreserved_of_kind ?_, hds.2⟩
  · exact habout.append (hn.1.append hds.1)
  · rw [← hn.2.2]
    exact Bool.eq_false_iff.2 hkind

theorem sound_namesAfter {kind : TokenKind} {l : Lexeme} {separator : Punctuator}
    (ht : ∀ d, SoundAt d (accept kind) fun b ls => Spells (if b then [.lexeme l] else []) ls) :
    SoundAt c (namesAfter kind (.punctuator separator)) fun ns ls =>
      Spells (introduced Name.slots l separator ns) ls := by
  refine .last (.onlyIf (fun _ => .separatedBy fun _ => sound_anyName) (ht c)) fun o ls ho => ?_
  obtain ⟨hls, hne⟩ := ho
  cases o with
  | none => exact hls
  | some ns =>
      cases ns with
      | nil => exact absurd rfl (hne [] rfl).1
      | cons n ns => exact hls

theorem sound_interfaces : SoundAt c interfaces fun ns ls =>
    Spells (introduced Name.slots (.keyword .implements) .ampersand ns) ls :=
  sound_namesAfter fun _ => .accept_keyword

theorem sound_operationTypeDefinition : SoundAt c operationTypeDefinition
    (SpellsValid OperationTypeDefinition.slots fun _ => True) := by
  refine .spanned (.bind sound_operationType fun t d ts ht => .mark fun _ d =>
    .last sound_anyName fun n ns hn s => ⟨?_, trivial⟩)
  subst ht
  exact .lexeme _ (.lexeme _ hn.1)

theorem sound_schemaOperations (extend : Bool) : SoundAt c (schemaOperations extend)
    (SpellsValid (group OperationTypeDefinition.slots .braceOpen .braceClose) fun os =>
      extend = false → os ≠ []) := by
  refine .ite (fun hext => ?_) fun _ => ?_
  · refine (SoundAt.optionalMany fun _ => sound_operationTypeDefinition).imp
      fun os ls h => ⟨h.1, ?_⟩
    rw [hext]
    exact nofun
  · refine (SoundAt.many fun _ => sound_operationTypeDefinition).imp fun os ls h => ?_
    cases os with
    | nil => exact absurd rfl h.2.1
    | cons o os => exact ⟨h.1, fun _ => List.cons_ne_nil _ _⟩

/-- The description has been read before, and so has the keyword of an extension. -/
theorem sound_schema (about : Option StringValue) (extend : Bool) :
    SoundAt c (schema about extend) fun build ls => ∃ ds os,
      build = (⟨about, extend, ds, os, ·⟩) ∧ (∀ s, Spells (build s).coreSlots ls) ∧
        (∀ x ∈ ds, x.Valid true) ∧ (extend = false → os ≠ []) := by
  refine .keyword fun _ d => .bind (sound_directives true) fun ds d ls hds =>
    .last (sound_schemaOperations extend) fun os ms hos => ⟨ds, os, rfl, fun s => ?_, hds.2, hos.2⟩
  exact .lexeme _ (hds.1.append hos.1)

/-- What stands behind the name of a type. -/
def BodySpells (k : Keyword) (r : List Directive × TypeBody) (ls : List Lexeme) : Prop :=
  Spells (r.2.interfaceSlots ++ (r.1.flatMap Directive.slots ++ r.2.memberSlots)) ls ∧
    r.2.keyword = k ∧ (∀ x ∈ r.1, x.Valid true) ∧ r.2.Valid

theorem sound_fieldsBody {body : List Name → List FieldDefinition → TypeBody} {k : Keyword}
    (hb : body = .object ∧ k = .type ∨ body = .interface ∧ k = .interface) :
    SoundAt c (fieldsBody body) (BodySpells k) := by
  refine .bind sound_interfaces fun is d ls his => .bind (sound_directives true)
    fun ds d ms hds => .last (.optionalMany fun _ => sound_fieldDefinition) fun fs ns hfs => ?_
  rcases hb with ⟨rfl, rfl⟩ | ⟨rfl, rfl⟩
  · exact ⟨his.append (hds.1.append hfs.1), rfl, hds.2, hfs.2⟩
  · exact ⟨his.append (hds.1.append hfs.1), rfl, hds.2, hfs.2⟩

theorem sound_typeBody (k : Keyword) : SoundAt c (typeBody k) (BodySpells k) := by
  unfold typeBody
  split
  · refine .last (sound_directives true) fun ds ls hds => ⟨?_, rfl, hds.2, trivial⟩
    show Spells ([] ++ (ds.flatMap Directive.slots ++ [])) ls
    rw [List.append_nil]
    exact hds.1
  · exact sound_fieldsBody (.inl ⟨rfl, rfl⟩)
  · exact sound_fieldsBody (.inr ⟨rfl, rfl⟩)
  · exact .bind (sound_directives true) fun ds d ls hds =>
      .last (sound_namesAfter fun _ => .accept_mark) fun ms ns hms =>
        ⟨hds.1.append hms, rfl, hds.2, trivial⟩
  · exact .bind (sound_directives true) fun ds d ls hds =>
      .last (.optionalMany fun _ => sound_enumValueDefinition) fun vs ns hvs =>
        ⟨hds.1.append hvs.1, rfl, hds.2, hvs.2⟩
  · exact .bind (sound_directives true) fun ds d ls hds =>
      .last (.optionalMany fun _ => sound_inputValueDefinition) fun fs ns hfs =>
        ⟨hds.1.append hfs.1, rfl, hds.2, hfs.2⟩
  · exact .unexpected

/-- The description has been read before, and so has the keyword of an extension. -/
theorem sound_typeDefinition (about : Option StringValue) (extend : Bool) (k : Keyword) :
    SoundAt c (typeDefinition about extend k) fun build ls => ∃ n ds body,
      build = (⟨about, extend, n, ds, body, ·⟩) ∧ (∀ s, Spells (build s).coreSlots ls) ∧
        (∀ x ∈ ds, x.Valid true) ∧ body.Valid := by
  refine .keyword fun _ d => .bind sound_name fun n d ns hn =>
    .last (sound_typeBody k) fun r ls hr => ?_
  obtain ⟨ds, body⟩ := r
  obtain ⟨hls, rfl, hds, hbody⟩ := hr
  exact ⟨n, ds, body, rfl, fun s => .lexeme _ (hn.1.append hls), hds, hbody⟩

theorem sound_directiveLocation : SoundAt c directiveLocation
    (SpellsValid DirectiveLocation.slots fun _ => True) := by
  refine .current (.ite (fun _ => ?_) fun _ => .fail _)
  split
  · rename_i location hlocation
    refine .last .expectName fun l ls h => ⟨?_, trivial⟩
    obtain ⟨rfl, rfl, -⟩ := h
    rw [← DirectiveLocation.word_of_ofWord? hlocation]
    exact .single _
  · exact .unexpected

/-- The description has been read before. -/
theorem sound_directiveDefinition {about : Option StringValue} {front : List Lexeme}
    (ha : Spells (descriptionSlots about) front) :
    SoundAt c (directiveDefinition about) fun build ls => ∀ s,
      SpellsValid DirectiveDefinition.slots DirectiveDefinition.Valid (build s)
        (front ++ ls) := by
  refine .keyword fun _ d => .mark fun _ d => .bind sound_name fun n d ns hn =>
    .bind sound_argumentDefinitions fun as d as' has => .bind .accept_keyword
      fun b d bs hb => .keyword fun _ d =>
        .last (.separatedBy fun _ => sound_directiveLocation) fun ls ls' hls s =>
          ⟨?_, has.2, hls.2.1⟩
  refine ha.append (.lexeme _ (.lexeme _ (hn.1.append (has.1.append ?_))))
  cases b with
  | true => exact hb.append (.lexeme _ hls.1)
  | false => exact hb.append (.lexeme _ hls.1)

/-! ### Definitions -/

/-- A definition whose span is still to come. -/
def BuildSpells (allowed : Bool) (front : List Lexeme) (build : Option Span → Definition)
    (ls : List Lexeme) : Prop :=
  ∀ s, SpellsValid Definition.slots (Definition.Valid allowed) (build s) (front ++ ls)

/-- What follows `extend` is valid if it says anything. -/
theorem sound_extended (allowed : Bool) : SoundAt c extended fun build ls =>
    isEmptyExtension (build none) = false →
      BuildSpells allowed [.keyword .extend] build ls := by
  refine .current ?_
  split
  · refine .last (sound_schema none true) fun build ls h hne s => ?_
    obtain ⟨ds, os, rfl, hls, hds, -⟩ := h
    refine ⟨.lexeme _ (hls s), hds, nofun, fun _ => ⟨rfl, ?_⟩⟩
    have hor := isEmpty_and_eq_false.1 hne
    simpa using hor
  · refine .ite (fun _ => ?_) fun _ => .unexpected
    refine .last (sound_typeDefinition none true _) fun build ls h hne s => ?_
    obtain ⟨n, ds, body, rfl, hls, hds, hbody⟩ := h
    exact ⟨.lexeme _ (hls s), hds, hbody, fun _ => ⟨rfl, isEmpty_and_eq_false.1 hne⟩⟩
  · exact .unexpected

theorem sound_extension (allowed : Bool) : SoundAt c extension (BuildSpells allowed []) := by
  refine .keyword fun _ d => .bind (sound_extended allowed) fun build d ls h =>
    .ite (fun _ => .unexpected) fun hne => .pure ?_
  rw [List.append_nil]
  exact h (Bool.eq_false_iff.2 hne)

/-- The description has been read before. -/
theorem sound_keywordDefinition (allowed : Bool) {about : Option StringValue}
    {front : List Lexeme} (ha : Spells (descriptionSlots about) front) (k : Keyword) :
    SoundAt c (keywordDefinition allowed about k) (BuildSpells allowed front) := by
  refine .ite (fun _ => .fail _) fun habout => ?_
  -- Where a description is not allowed, there is none.
  have hnone : takesNoDescription k = true → front = [] := by
    intro hk
    cases about with
    | none => exact Spells.nil_iff.1 ha
    | some a => exact absurd ⟨rfl, hk⟩ habout
  split
  · rw [hnone rfl]
    exact .last sound_operation fun build ls h s => h s
  · rw [hnone rfl]
    exact .last sound_operation fun build ls h s => h s
  · rw [hnone rfl]
    exact .last sound_operation fun build ls h s => h s
  · rw [hnone rfl]
    exact .last (sound_fragment allowed) fun build ls h s => h s
  · refine .last (sound_schema about false) fun build ls h s => ?_
    obtain ⟨ds, os, rfl, hls, hds, hos⟩ := h
    exact ⟨ha.append (hls s), hds, fun _ => hos rfl, nofun⟩
  · exact .last (sound_directiveDefinition ha) fun build ls h s => h s
  · rw [hnone rfl]
    exact sound_extension allowed
  · refine .ite (fun _ => ?_) fun _ => .unexpected
    refine .last (sound_typeDefinition about false _) fun build ls h s => ?_
    obtain ⟨n, ds, body, rfl, hls, hds, hbody⟩ := h
    exact ⟨ha.append (hls s), hds, hbody, nofun⟩

theorem sound_definition (allowed : Bool) : SoundAt c (definition allowed)
    (SpellsValid Definition.slots (Definition.Valid allowed)) := by
  refine .spanned (.sees (.ite (fun _ => ?_) fun _ => ?_))
  · exact .last sound_shorthandQuery fun build ls h s => h s
  · refine .bind sound_description fun about d front ha => .current ?_
    split
    · exact sound_keywordDefinition allowed ha _
    · exact .unexpected

end Grammar
end GraphQL
