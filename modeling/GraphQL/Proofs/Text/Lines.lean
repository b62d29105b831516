import GraphQL.Text.Block
import GraphQL.Text.Separator

/-!
The ends of lines in a block string. They can be written anew, with an indentation behind them:
the lines are the same then, with the indentation in front of all but the first.
-/

namespace GraphQL.Text.Block

/-! ### Line ends -/

/-- A carriage return and a line feed end a line together, and each ends one alone. -/
def lineEnds : List (List Char) := [['\r', '\n'], ['\n'], ['\r']]

/-- Writes something for every end of a line. -/
def mapLineEnds (f : List Char → List Char) : List Char → List Char
  | [] => []
  | '\r' :: '\n' :: cs => f ['\r', '\n'] ++ mapLineEnds f cs
  | c :: cs => if isLineEnd c then f [c] ++ mapLineEnds f cs else c :: mapLineEnds f cs

/-- What is written for an end of a line: the end itself or a line feed, and an indentation
behind it. -/
structure Relays (w : List Char) (f : List Char → List Char) : Prop where
  indent : ∀ c ∈ w, isIndent c = true
  written : (∀ e, f e = e ++ w) ∨ ∀ e, f e = '\n' :: w

section
variable {f : List Char → List Char} {w p cs : List Char} {c : Char}

theorem isLineEnd_of_isIndent (h : isIndent c = true) : isLineEnd c = false := by
  simp only [isIndent, Bool.or_eq_true, beq_iff_eq] at h
  rcases h with rfl | rfl <;> decide

/-- What parts lines and indents them means nothing else to a block string. -/
theorem ne_of_isLineEnd (h : isLineEnd c = true) : c ≠ '"' ∧ c ≠ '\\' := by
  simp only [isLineEnd, Bool.or_eq_true, beq_iff_eq] at h
  rcases h with rfl | rfl <;> decide

theorem ne_of_isIndent (h : isIndent c = true) : c ≠ '"' ∧ c ≠ '\\' := by
  simp only [isIndent, Bool.or_eq_true, beq_iff_eq] at h
  rcases h with rfl | rfl <;> decide

theorem isLineEnd_of_mem_lineEnds {n : List Char} (hn : n ∈ lineEnds) :
    ∀ c ∈ n, isLineEnd c = true := by
  simp only [lineEnds, List.mem_cons, List.not_mem_nil, or_false] at hn
  rcases hn with rfl | rfl | rfl <;> simp [isLineEnd]

theorem isLineEnd_of_mem_pair : ∀ c ∈ ['\r', '\n'], isLineEnd c = true :=
  isLineEnd_of_mem_lineEnds List.mem_cons_self

theorem isLineEnd_of_mem_quotes : ∀ c ∈ ['"', '"', '"'], isLineEnd c = false := by
  simp [isLineEnd]

theorem isLineEnd_of_mem_escape : ∀ c ∈ ['\\', '"', '"', '"'], isLineEnd c = false :=
  List.forall_mem_cons.2 ⟨rfl, isLineEnd_of_mem_quotes⟩

theorem not_pair (h : c ≠ '\r' ∨ ¬['\n'] <+: cs) : ¬['\r', '\n'] <+: c :: cs := by
  rintro hp
  obtain ⟨rfl, hcs⟩ := List.cons_prefix_cons.1 hp
  exact h.elim (· rfl) (· hcs)

theorem mapLineEnds_pair (cs : List Char) :
    mapLineEnds f ('\r' :: '\n' :: cs) = f ['\r', '\n'] ++ mapLineEnds f cs := by
  rw [mapLineEnds]

theorem mapLineEnds_lone (hc : isLineEnd c = true) (h : ¬['\r', '\n'] <+: c :: cs) :
    mapLineEnds f (c :: cs) = f [c] ++ mapLineEnds f cs := by
  rw [mapLineEnds]
  · exact if_pos hc
  · rintro r rfl rfl
    exact h ⟨r, rfl⟩

theorem mapLineEnds_plain (hc : isLineEnd c = false) (cs : List Char) :
    mapLineEnds f (c :: cs) = c :: mapLineEnds f cs := by
  rw [mapLineEnds]
  · exact if_neg (Bool.eq_false_iff.1 hc)
  · rintro r rfl
    cases hc

theorem mapLineEnds_append (hp : ∀ c ∈ p, isLineEnd c = false) (cs : List Char) :
    mapLineEnds f (p ++ cs) = p ++ mapLineEnds f cs := by
  induction p with
  | nil => rfl
  | cons c p ih =>
      obtain ⟨hc, hp⟩ := List.forall_mem_cons.1 hp
      rw [List.cons_append, mapLineEnds_plain hc, ih hp, List.cons_append]

theorem mapLineEnds_concat (hp : ∀ c ∈ p, isLineEnd c = false) (cs : List Char) :
    mapLineEnds f (cs ++ p) = mapLineEnds f cs ++ p := by
  fun_induction mapLineEnds f cs with
  | case1 => simpa [mapLineEnds] using mapLineEnds_append hp []
  | case2 cs ih =>
      rw [List.cons_append, List.cons_append, mapLineEnds_pair, ih, List.append_assoc]
  | case3 c cs hne hc ih =>
      have hpair : ¬['\r', '\n'] <+: c :: (cs ++ p) := by
        intro h
        obtain ⟨rfl, hfeed⟩ := List.cons_prefix_cons.1 h
        cases cs with
        | nil =>
            exact absurd (hp '\n' (hfeed.subset List.mem_cons_self)) (by decide)
        | cons d cs =>
            obtain ⟨rfl, -⟩ := List.cons_prefix_cons.1 hfeed
            exact hne cs rfl rfl
      rw [List.cons_append, mapLineEnds_lone hc hpair, ih, List.append_assoc]
  | case4 c cs _ hc ih =>
      rw [List.cons_append, mapLineEnds_plain (Bool.eq_false_iff.2 hc), ih, List.cons_append]

theorem mapLineEnds_self (h : ∀ e, f e = e) (cs : List Char) : mapLineEnds f cs = cs := by
  fun_induction mapLineEnds f cs with
  | case1 => rfl
  | case2 cs ih => rw [h, ih]; rfl
  | case3 c cs _ _ ih => rw [h, ih]; rfl
  | case4 c cs _ _ ih => rw [ih]

/-- Ends of lines and escaped triple quotes are taken whole. -/
theorem text_induction {motive : List Char → Prop} (nil : motive [])
    (pair : ∀ cs, motive cs → motive ('\r' :: '\n' :: cs))
    (lone : ∀ c cs, isLineEnd c = true → ¬['\r', '\n'] <+: c :: cs → motive cs → motive (c :: cs))
    (escape : ∀ cs, motive cs → motive ('\\' :: '"' :: '"' :: '"' :: cs))
    (plain : ∀ c cs, isLineEnd c = false → ¬['\\', '"', '"', '"'] <+: c :: cs → motive cs →
      motive (c :: cs)) (cs : List Char) : motive cs := by
  -- What is taken can be longer than one character, so the induction is on the length.
  induction hn : cs.length using Nat.strongRecOn generalizing cs with
  | ind n ih =>
      cases cs with
      | nil => exact nil
      | cons c cs =>
          have htail := ih cs.length (by simp [← hn]) cs rfl
          cases hc : isLineEnd c with
          | true =>
              by_cases hpair : ['\r', '\n'] <+: c :: cs
              · obtain ⟨r, hr⟩ := hpair
                rw [← hr] at hn ⊢
                exact pair r (ih r.length (hn ▸ Nat.lt_add_of_pos_right Nat.two_pos) r rfl)
              · exact lone c cs hc hpair htail
          | false =>
              by_cases hescape : ['\\', '"', '"', '"'] <+: c :: cs
              · obtain ⟨r, hr⟩ := hescape
                rw [← hr] at hn ⊢
                exact escape r (ih r.length (by simp [← hn]; omega) r rfl)
              · exact plain c cs hc hescape htail

/-! ### Lines -/

theorem lines_ne_nil (cs : List Char) : lines cs ≠ [] := by
  unfold lines
  split
  · simp
  · simp
  · split
    · simp
    · split <;> simp

theorem lines_pair (cs : List Char) : lines ('\r' :: '\n' :: cs) = [] :: lines cs := by
  rw [lines]

theorem lines_lone (hc : isLineEnd c = true) (h : ¬['\r', '\n'] <+: c :: cs) :
    lines (c :: cs) = [] :: lines cs := by
  simp only [isLineEnd, Bool.or_eq_true, beq_iff_eq] at hc
  rw [lines]
  · exact if_pos hc
  · rintro r rfl rfl
    exact h ⟨r, rfl⟩

theorem lines_plain (hc : isLineEnd c = false) (cs : List Char) :
    lines (c :: cs) = (lines cs).modifyHead (c :: ·) := by
  have hnot : ¬(c = '\n' ∨ c = '\r') := by
    rintro (rfl | rfl) <;> cases hc
  rw [lines, if_neg hnot]
  · cases hlines : lines cs with
    | nil => exact absurd hlines (lines_ne_nil cs)
    | cons l ls => rfl
  · rintro r rfl
    cases hc

theorem lines_append (hp : ∀ c ∈ p, isLineEnd c = false) (cs : List Char) :
    lines (p ++ cs) = (lines cs).modifyHead (p ++ ·) := by
  induction p with
  | nil => cases hlines : lines cs <;> simp [hlines]
  | cons c p ih =>
      obtain ⟨hc, hp⟩ := List.forall_mem_cons.1 hp
      rw [List.cons_append, lines_plain hc, ih hp, List.modifyHead_modifyHead]
      rfl

/-- No line has an end in it. -/
theorem isLineEnd_of_mem_lines (cs : List Char) :
    ∀ l ∈ lines cs, ∀ c ∈ l, isLineEnd c = false := by
  fun_induction lines cs with
  | case1 => simp
  | case2 cs ih => exact List.forall_mem_cons.2 ⟨List.forall_mem_nil _, ih⟩
  | case3 c cs _ _ ih => exact List.forall_mem_cons.2 ⟨List.forall_mem_nil _, ih⟩
  | case4 c cs _ hc hlines => exact absurd hlines (lines_ne_nil cs)
  | case5 c cs _ hc l ls hlines ih =>
      rw [hlines] at ih
      obtain ⟨hl, hls⟩ := List.forall_mem_cons.1 ih
      have hplain : isLineEnd c = false := by simpa [isLineEnd] using hc
      exact List.forall_mem_cons.2 ⟨List.forall_mem_cons.2 ⟨hplain, hl⟩, hls⟩

/-- Without carriage returns lines are what line feeds part. -/
theorem lines_eq_splitOn (h : '\r' ∉ cs) : lines cs = cs.splitOn '\n' := by
  induction cs with
  | nil => rfl
  | cons c cs ih =>
      obtain ⟨hc, hcs⟩ := not_or.1 (mt List.mem_cons.2 h)
      rw [List.splitOn_cons_eq_if_modifyHead, ← ih hcs]
      by_cases hfeed : c = '\n'
      · subst hfeed
        rw [lines_lone rfl (not_pair (.inl (by decide)))]
        rfl
      · have hplain : isLineEnd c = false := by simp [isLineEnd, hfeed, Ne.symm hc]
        rw [lines_plain hplain, if_neg (by simpa using hfeed)]

/-! ### Lines with an indentation -/

/-- Puts an indentation in front of every line but the first. -/
def indentRest (w : List Char) : List (List Char) → List (List Char)
  | [] => []
  | l :: ls => l :: ls.map (w ++ ·)

theorem indentRest_modifyHead (w p : List Char) (ls : List (List Char)) :
    indentRest w (ls.modifyHead (p ++ ·)) = (indentRest w ls).modifyHead (p ++ ·) := by
  cases ls <;> rfl

theorem modifyHead_indentRest (w : List Char) (ls : List (List Char)) :
    (indentRest w ls).modifyHead (w ++ ·) = ls.map (w ++ ·) := by
  cases ls <;> rfl

namespace Relays

theorem isLineEnd_of_mem (h : Relays w f) : ∀ c ∈ w, isLineEnd c = false :=
  fun c hc => isLineEnd_of_isIndent (h.indent c hc)

/-- What is written starts with an end of a line. -/
theorem head_written (h : Relays w f) (hc : isLineEnd c = true) (e : List Char) :
    ∃ n r, f (c :: e) = n :: r ∧ isLineEnd n = true := by
  rcases h.written with hf | hf
  · exact ⟨c, e ++ w, hf _, hc⟩
  · exact ⟨'\n', w, hf _, rfl⟩

theorem ne_of_mem {e : List Char} (h : Relays w f) (he : ∀ c ∈ e, isLineEnd c = true) :
    ∀ c ∈ f e, c ≠ '"' ∧ c ≠ '\\' := by
  intro c hc
  rcases h.written with hf | hf
  · rw [hf] at hc
    rcases List.mem_append.1 hc with hc | hc
    · exact ne_of_isLineEnd (he c hc)
    · exact ne_of_isIndent (h.indent c hc)
  · rw [hf] at hc
    rcases List.mem_cons.1 hc with rfl | hc
    · exact ne_of_isLineEnd rfl
    · exact ne_of_isIndent (h.indent c hc)

/-- No carriage return comes in front of a line feed. -/
theorem not_pair_behind (h : ∀ e, f e = e ++ w) (hw : ∀ c ∈ w, isLineEnd c = false)
    (hpair : ¬['\r', '\n'] <+: c :: cs) : ¬['\r', '\n'] <+: c :: (w ++ mapLineEnds f cs) := by
  rintro hp
  obtain ⟨rfl, hfeed⟩ := List.cons_prefix_cons.1 hp
  cases w with
  | cons d w =>
      obtain ⟨rfl, -⟩ := List.cons_prefix_cons.1 hfeed
      exact absurd (hw _ List.mem_cons_self) (by decide)
  | nil =>
      rw [List.nil_append, mapLineEnds_self (by simpa using h)] at hp
      exact hpair hp

/-- A line that is written ends where it did, and the next one starts with the indentation. -/
theorem lines_mapLineEnds (h : Relays w f) (cs : List Char) :
    lines (mapLineEnds f cs) = indentRest w (lines cs) := by
  have hbehind : ∀ cs, lines (mapLineEnds f cs) = indentRest w (lines cs) →
      lines (w ++ mapLineEnds f cs) = (lines cs).map (w ++ ·) := fun cs ih => by
    rw [lines_append h.isLineEnd_of_mem, ih, modifyHead_indentRest]
  fun_induction mapLineEnds f cs with
  | case1 => rfl
  | case2 cs ih =>
      rw [lines_pair, indentRest, ← hbehind cs ih]
      rcases h.written with hf | hf
      · rw [hf]
        exact lines_pair _
      · rw [hf]
        exact lines_lone rfl (not_pair (.inl (by decide)))
  | case3 c cs hne hc ih =>
      have hpair : ¬['\r', '\n'] <+: c :: cs := by
        rintro ⟨r, hr⟩
        cases hr
        exact hne r rfl rfl
      rw [lines_lone hc hpair, indentRest, ← hbehind cs ih]
      rcases h.written with hf | hf
      · -- It still ends the line by itself: no line feed has come behind it.
        rw [hf]
        exact lines_lone hc (not_pair_behind hf h.isLineEnd_of_mem hpair)
      · rw [hf]
        exact lines_lone rfl (not_pair (.inl (by decide)))
  | case4 c cs _ hc ih =>
      have hplain := Bool.eq_false_iff.2 hc
      rw [lines_plain hplain, ih, lines_plain hplain]
      exact (indentRest_modifyHead w [c] _).symm

end Relays

/-! ### Escaped quotes -/

theorem unescape_escape (cs : List Char) :
    unescape ('\\' :: '"' :: '"' :: '"' :: cs) = '"' :: '"' :: '"' :: unescape cs := by
  rw [unescape]

theorem unescape_plain (h : ¬['\\', '"', '"', '"'] <+: c :: cs) :
    unescape (c :: cs) = c :: unescape cs := by
  rw [unescape]
  rintro r rfl rfl
  exact h ⟨r, rfl⟩

theorem not_escape (h : c ≠ '\\') : ¬['\\', '"', '"', '"'] <+: c :: cs := fun hp =>
  h (List.cons_prefix_cons.1 hp).1.symm

theorem unescape_append (hp : ∀ c ∈ p, c ≠ '\\') (cs : List Char) :
    unescape (p ++ cs) = p ++ unescape cs := by
  induction p with
  | nil => rfl
  | cons c p ih =>
      obtain ⟨hc, hp⟩ := List.forall_mem_cons.1 hp
      rw [List.cons_append, unescape_plain (not_escape hc), ih hp, List.cons_append]

theorem feed_of_unescape (h : ['\n'] <+: unescape cs) : ['\n'] <+: cs := by
  revert h
  fun_cases unescape cs with
  | case1 => exact id
  | case2 cs => simp
  | case3 c cs _ => simp

namespace Relays

theorem eq_nil_of_prefix {e x : List Char} (h : Relays w f) (hc : isLineEnd c = true)
    (hp : ∀ d ∈ p, isLineEnd d = false) (hpre : p <+: f (c :: e) ++ x) : p = [] := by
  obtain ⟨n, r, hf, hn⟩ := h.head_written hc e
  cases p with
  | nil => rfl
  | cons d p =>
      rw [hf] at hpre
      obtain ⟨rfl, -⟩ := List.cons_prefix_cons.1 hpre
      exact absurd hn (Bool.eq_false_iff.1 (hp d List.mem_cons_self))

theorem prefix_of_mapLineEnds (h : Relays w f) (hp : ∀ d ∈ p, isLineEnd d = false)
    (hpre : p <+: mapLineEnds f cs) : p <+: cs := by
  fun_induction mapLineEnds f cs generalizing p with
  | case1 => exact hpre
  | case2 cs ih => exact h.eq_nil_of_prefix rfl hp hpre ▸ List.nil_prefix
  | case3 c cs _ hc ih => exact h.eq_nil_of_prefix hc hp hpre ▸ List.nil_prefix
  | case4 c cs _ _ ih =>
      cases p with
      | nil => exact List.nil_prefix
      | cons d p =>
          obtain ⟨rfl, htail⟩ := List.cons_prefix_cons.1 hpre
          exact List.cons_prefix_cons.2 ⟨rfl, ih (List.forall_mem_cons.1 hp).2 htail⟩

/-- Ends of lines and escaped quotes do not meet. -/
theorem unescape_mapLineEnds (h : Relays w f) (cs : List Char) :
    unescape (mapLineEnds f cs) = mapLineEnds f (unescape cs) := by
  have hbackslash : ∀ {e : List Char}, (∀ c ∈ e, isLineEnd c = true) → ∀ c ∈ f e, c ≠ '\\' :=
    fun he c hc => (h.ne_of_mem he c hc).2
  induction cs using text_induction with
  | nil => rfl
  | pair cs ih =>
      rw [mapLineEnds_pair, unescape_append (hbackslash isLineEnd_of_mem_pair), ih,
        unescape_plain (not_escape (by decide)), unescape_plain (not_escape (by decide)),
        mapLineEnds_pair]
  | lone c cs hc hpair ih =>
      have hlone : ∀ d ∈ [c], isLineEnd d = true := by simpa using hc
      have hne : c ≠ '\\' := by
        rintro rfl
        cases hc
      have hpair' : ¬['\r', '\n'] <+: c :: unescape cs := by
        rintro hp
        obtain ⟨rfl, hfeed⟩ := List.cons_prefix_cons.1 hp
        exact hpair (List.cons_prefix_cons.2 ⟨rfl, feed_of_unescape hfeed⟩)
      rw [mapLineEnds_lone hc hpair, unescape_append (hbackslash hlone), ih,
        unescape_plain (not_escape hne), mapLineEnds_lone hc hpair']
  | escape cs ih =>
      rw [show '\\' :: '"' :: '"' :: '"' :: cs = ['\\', '"', '"', '"'] ++ cs from rfl,
        mapLineEnds_append isLineEnd_of_mem_escape]
      exact (unescape_escape _).trans (ih ▸ (mapLineEnds_append isLineEnd_of_mem_quotes _).symm)
  | plain c cs hc hescape ih =>
      -- An escape has no end of a line in it, so none has come about.
      have hescape' : ¬['\\', '"', '"', '"'] <+: c :: mapLineEnds f cs := by
        rw [← mapLineEnds_plain hc]
        exact fun hp => hescape (h.prefix_of_mapLineEnds isLineEnd_of_mem_escape hp)
      rw [mapLineEnds_plain hc, unescape_plain hescape', ih, unescape_plain hescape,
        mapLineEnds_plain hc]

end Relays

end

end GraphQL.Text.Block
