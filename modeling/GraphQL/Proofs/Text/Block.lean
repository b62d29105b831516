import Mathlib.Data.List.DropRight
import GraphQL.Proofs.Text.Lines

/-!
The values of block strings. Neither the ends of lines nor an indentation that all lines but
the first have in common are part of a value, and blank lines at its ends are not either; a
text that has none of these is the value of block strings of any layout.
-/

namespace GraphQL.Text.Block

/-! ### Indentation -/

section
variable {w : List Char} {ls bs : List (List Char)}

theorem isBlank_append (hw : ∀ c ∈ w, isIndent c = true) (l : List Char) :
    isBlank (w ++ l) = isBlank l := by
  rw [isBlank, List.all_append, List.all_eq_true.2 hw, Bool.true_and, isBlank]

theorem indent_append (hw : ∀ c ∈ w, isIndent c = true) (l : List Char) :
    indent (w ++ l) = w.length + indent l := by
  rw [indent, List.takeWhile_append_of_pos hw, List.length_append, indent]

theorem min?_map_add (k : Nat) (ns : List Nat) : (ns.map (k + ·)).min? = ns.min?.map (k + ·) := by
  cases hmin : ns.min? with
  | none =>
      rw [List.min?_eq_none_iff] at hmin
      rw [hmin]
      rfl
  | some m =>
      obtain ⟨hmem, hle⟩ := List.min?_eq_some_iff.1 hmin
      refine List.min?_eq_some_iff.2 ⟨List.mem_map_of_mem hmem, ?_⟩
      exact List.forall_mem_map.2 fun n hn => Nat.add_le_add_left (hle n hn) k

/-- The indentation that all lines are given is one that they have in common. -/
theorem commonIndent_map (hw : ∀ c ∈ w, isIndent c = true) (h : ∃ l ∈ ls, isBlank l = false) :
    commonIndent (ls.map (w ++ ·)) = w.length + commonIndent ls := by
  obtain ⟨l, hl, hblank⟩ := h
  have hfilter : (ls.map (w ++ ·)).filter (!isBlank ·) =
      (ls.filter (!isBlank ·)).map (w ++ ·) := by
    rw [List.filter_map]
    congr 2
    funext l
    rw [Function.comp_apply, isBlank_append hw]
  have hindent : indent ∘ (w ++ ·) = (w.length + ·) ∘ indent := funext (indent_append hw)
  have hmem : indent l ∈ (ls.filter (!isBlank ·)).map indent :=
    List.mem_map_of_mem (List.mem_filter.2 ⟨hl, by rw [hblank]; rfl⟩)
  rw [commonIndent, hfilter, List.map_map, hindent, ← List.map_map, min?_map_add, commonIndent]
  cases hmin : ((ls.filter (!isBlank ·)).map indent).min? with
  | none => exact absurd (List.min?_eq_none_iff.1 hmin) (List.ne_nil_of_mem hmem)
  | some m => rfl

theorem commonIndent_of_blank (h : ∀ l ∈ ls, isBlank l = true) : commonIndent ls = 0 := by
  have hfilter : ls.filter (!isBlank ·) = [] :=
    List.filter_eq_nil_iff.2 fun l hl => by simp [h l hl]
  rw [commonIndent, hfilter]
  rfl

theorem commonIndent_of_flush
    (h : ∃ l ∈ ls, isBlank l = false ∧ ∀ c ∈ l.head?, isIndent c = false) :
    commonIndent ls = 0 := by
  obtain ⟨l, hl, hblank, hhead⟩ := h
  have hindent : indent l = 0 := by
    cases l with
    | nil => rfl
    | cons c l =>
        rw [indent, List.takeWhile_cons_of_neg (Bool.eq_false_iff.1 (hhead c rfl)), List.length_nil]
  have hmem : 0 ∈ (ls.filter (!isBlank ·)).map indent :=
    List.mem_map.2 ⟨l, List.mem_filter.2 ⟨hl, by rw [hblank]; rfl⟩, hindent⟩
  rw [commonIndent, List.min?_eq_some_iff.2 ⟨hmem, fun _ _ => Nat.zero_le _⟩]
  rfl

theorem dedent_of_commonIndent (l : List Char) (h : commonIndent ls = 0) :
    dedent (l :: ls) = l :: ls := by
  simp only [dedent, h, List.drop_zero, List.map_id']

theorem dedent_of_blank (l : List Char) (h : ∀ k ∈ ls, isBlank k = true) :
    dedent (l :: ls) = l :: ls :=
  dedent_of_commonIndent l (commonIndent_of_blank h)

/-- No line of a dedented text has anything new in it. -/
theorem suffix_of_mem_dedent {l : List Char} (h : l ∈ dedent ls) : ∃ k ∈ ls, l <:+ k := by
  cases ls with
  | nil => cases h
  | cons k ls =>
      rcases List.mem_cons.1 h with rfl | h
      · exact ⟨l, List.mem_cons_self, List.suffix_rfl⟩
      · obtain ⟨m, hm, rfl⟩ := List.mem_map.1 h
        exact ⟨m, List.mem_cons_of_mem _ hm, List.drop_suffix _ _⟩

theorem dedent_indentRest (hw : ∀ c ∈ w, isIndent c = true) (l : List Char)
    (h : ∃ k ∈ ls, isBlank k = false) :
    dedent (l :: ls.map (w ++ ·)) = dedent (l :: ls) := by
  rw [dedent, dedent, commonIndent_map hw h, List.map_map]
  congr 2
  funext k
  exact List.drop_length_add_append _

/-! ### Blank lines at the ends -/

/-- Neither the first nor the last line is blank. -/
structure Trimmed (ls : List (List Char)) : Prop where
  first : ∀ l ∈ ls.head?, isBlank l = false
  last : ∀ l ∈ ls.getLast?, isBlank l = false

theorem trim_eq (ls : List (List Char)) :
    trim ls = (ls.dropWhile isBlank).rdropWhile isBlank := rfl

theorem trim_sublist (ls : List (List Char)) : (trim ls).Sublist ls :=
  (List.rdropWhile_prefix _ _).sublist.trans (List.dropWhile_suffix _).sublist

theorem trimmed_trim (ls : List (List Char)) : Trimmed (trim ls) where
  first := by
    intro l hl
    obtain ⟨back, hback⟩ := List.rdropWhile_prefix isBlank (ls.dropWhile isBlank)
    have hhead : (ls.dropWhile isBlank).head? = some l := by
      rw [← hback, List.head?_append, ← trim_eq, Option.mem_def.1 hl, Option.some_or]
    have hnot := List.head?_dropWhile_not isBlank ls
    rwa [hhead] at hnot
  last := by
    intro l hl
    obtain ⟨hne, rfl⟩ := List.mem_getLast?_eq_getLast hl
    exact Bool.eq_false_iff.2 (List.rdropWhile_last_not isBlank _ hne)

theorem trim_of_trimmed (h : Trimmed ls) : trim ls = ls := by
  have hfirst : ls.dropWhile isBlank = ls := by
    cases ls with
    | nil => rfl
    | cons l ls => exact List.dropWhile_cons_of_neg (Bool.eq_false_iff.1 (h.first l rfl))
  rw [trim_eq, hfirst, List.rdropWhile_eq_self_iff]
  exact fun hne => Bool.eq_false_iff.1 (h.last _ (List.getLast?_eq_some_getLast hne))

theorem trim_append_blank (ls : List (List Char)) (h : ∀ l ∈ bs, isBlank l = true) :
    trim (ls ++ bs) = trim ls := by
  rw [trim, trim, List.dropWhile_append]
  split
  · rename_i hls
    rw [List.isEmpty_iff.1 hls, List.dropWhile_eq_nil_iff.2 h]
  · rw [List.reverse_append, List.dropWhile_append_of_pos (by simpa using h)]

theorem trim_cons_blank {l : List Char} (h : isBlank l = true) (ls : List (List Char)) :
    trim (l :: ls) = trim ls := by
  rw [trim, List.dropWhile_cons_of_pos h, trim]

/-- An indentation is taken off again, unless it only makes blank lines longer. -/
theorem trim_dedent_indentRest (hw : ∀ c ∈ w, isIndent c = true) (ls : List (List Char)) :
    trim (dedent (indentRest w ls)) = trim (dedent ls) := by
  cases ls with
  | nil => rfl
  | cons l ls =>
      rw [indentRest]
      by_cases h : ∃ k ∈ ls, isBlank k = false
      · rw [dedent_indentRest hw l h]
      · -- No line tells how far to dedent; all but the first are dropped.
        have hblank : ∀ k ∈ ls, isBlank k = true := by simpa using h
        have hblank' : ∀ k ∈ ls.map (w ++ ·), isBlank k = true :=
          List.forall_mem_map.2 fun k hk => (isBlank_append hw k).trans (hblank k hk)
        rw [dedent_of_blank l hblank', dedent_of_blank l hblank]
        exact (trim_append_blank [l] hblank').trans (trim_append_blank [l] hblank).symm

end

/-! ### Values -/

/-- Writing the ends of lines anew, with an indentation behind them, keeps the value. -/
theorem Relays.decode_mapLineEnds {w : List Char} {f : List Char → List Char} (h : Relays w f)
    (cs : List Char) : decode (mapLineEnds f cs) = decode cs := by
  rw [decode, h.unescape_mapLineEnds, h.lines_mapLineEnds, trim_dedent_indentRest h.indent, decode]

/-- A text without carriage returns that is empty or has no blank line at its ends. -/
structure Canonical (value : List Char) : Prop where
  feeds : '\r' ∉ value
  trimmed : value = [] ∨ Trimmed (value.splitOn '\n')

theorem mem_intercalate {c s : Char} {ls : List (List Char)} (h : c ∈ [s].intercalate ls) :
    c = s ∨ ∃ l ∈ ls, c ∈ l := by
  induction ls with
  | nil => cases h
  | cons l ls ih =>
      cases ls with
      | nil => exact .inr ⟨l, List.mem_cons_self, by simpa using h⟩
      | cons k ls =>
          rw [List.intercalate_cons_cons, List.mem_append, List.mem_append,
            List.mem_singleton] at h
          rcases h with (h | h) | h
          · exact .inr ⟨l, List.mem_cons_self, h⟩
          · exact .inl h
          · exact (ih h).imp_right fun ⟨m, hm, hc⟩ => ⟨m, List.mem_cons_of_mem _ hm, hc⟩

theorem canonical_decode (cs : List Char) : Canonical (decode cs) := by
  have hplain : ∀ l ∈ trim (dedent (lines (unescape cs))), ∀ c ∈ l, isLineEnd c = false := by
    intro l hl c hc
    obtain ⟨k, hk, hsuffix⟩ := suffix_of_mem_dedent ((trim_sublist _).subset hl)
    exact isLineEnd_of_mem_lines _ k hk c (hsuffix.subset hc)
  constructor
  · intro hreturn
    rcases mem_intercalate hreturn with h | ⟨l, hl, hc⟩
    · exact absurd h (by decide)
    · exact absurd (hplain l hl _ hc) (by decide)
  · by_cases hnil : trim (dedent (lines (unescape cs))) = []
    · exact .inl (by rw [decode, hnil]; rfl)
    · refine .inr ?_
      rw [decode, List.splitOn_intercalate '\n' (fun l hl hc => ?_) hnil]
      · exact trimmed_trim _
      · exact absurd (hplain l hl _ hc) (by decide)

/-! ### Writing -/

/-- Writes a backslash in front of every three quotes, from left to right. -/
def escapeQuotes : List Char → List Char
  | [] => []
  | '"' :: '"' :: '"' :: cs => '\\' :: '"' :: '"' :: '"' :: escapeQuotes cs
  | c :: cs => c :: escapeQuotes cs

/-- Lines, each behind an end of a line and an indentation, and both once more behind them. -/
def layLines (n w : List Char) (ls : List (List Char)) : List Char :=
  ls.flatMap (n ++ w ++ ·) ++ (n ++ w)

/-- A text that does not stand off its margins: the ends of its lines are line feeds, no line
at its ends is blank, and some line has no indentation. -/
structure Flush (v : List Char) : Prop where
  feeds : '\r' ∉ v
  trimmed : Trimmed (v.splitOn '\n')
  margin : ∃ l ∈ v.splitOn '\n', isBlank l = false ∧ ∀ c ∈ l.head?, isIndent c = false

/-- A text between the quotes of a block string. -/
def layOut (n w v : List Char) : List Char :=
  layLines n w ((v.splitOn '\n').map escapeQuotes)

section
variable {n w x cs p : List Char} {ls : List (List Char)} {c : Char}

theorem escapeQuotes_plain (h : ¬['"', '"', '"'] <+: c :: cs) :
    escapeQuotes (c :: cs) = c :: escapeQuotes cs := by
  rw [escapeQuotes]
  rintro r rfl rfl
  exact h ⟨r, rfl⟩

theorem quotes_of_escapeQuotes (hx : ¬['"'] <+: x) (hp : ∀ c ∈ p, c = '"')
    (h : p <+: escapeQuotes cs ++ x) : p <+: cs := by
  induction p generalizing cs with
  | nil => exact List.nil_prefix
  | cons c p ih =>
      obtain ⟨rfl, hquotes⟩ := List.forall_mem_cons.1 hp
      by_cases htriple : ['"', '"', '"'] <+: cs
      · -- A backslash stands in front of them now.
        obtain ⟨r, rfl⟩ := htriple
        cases (List.cons_prefix_cons.1 h).1
      · cases cs with
        | nil => exact absurd (List.IsPrefix.trans ⟨p, rfl⟩ h) hx
        | cons d cs =>
            rw [escapeQuotes_plain htriple] at h
            obtain ⟨rfl, htail⟩ := List.cons_prefix_cons.1 h
            exact List.cons_prefix_cons.2 ⟨rfl, ih hquotes htail⟩

/-- No three quotes are left that are not escaped. -/
theorem not_triple_escapeQuotes (hx : ¬['"'] <+: x) :
    ¬['"', '"', '"'] <+: escapeQuotes cs ++ x := by
  intro h
  obtain ⟨r, rfl⟩ := quotes_of_escapeQuotes hx (by simp) h
  cases (List.cons_prefix_cons.1 h).1

theorem unescape_escapeQuotes (hx : ¬['"'] <+: x) (cs : List Char) :
    unescape (escapeQuotes cs ++ x) = cs ++ unescape x := by
  fun_induction escapeQuotes cs with
  | case1 => rfl
  | case2 cs ih =>
      show unescape ('\\' :: '"' :: '"' :: '"' :: (escapeQuotes cs ++ x)) = _
      rw [unescape_escape, ih]
      rfl
  | case3 c cs _ ih =>
      have hescape : ¬['\\', '"', '"', '"'] <+: c :: (escapeQuotes cs ++ x) := fun hp =>
        not_triple_escapeQuotes hx (List.cons_prefix_cons.1 hp).2
      rw [List.cons_append, unescape_plain hescape, ih, List.cons_append]

theorem layLines_nil (n w : List Char) : layLines n w [] = n ++ w := rfl

theorem layLines_cons (n w l : List Char) (ls : List (List Char)) :
    layLines n w (l :: ls) = n ++ (w ++ (l ++ layLines n w ls)) := by
  simp only [layLines, List.flatMap_cons, List.append_assoc]

theorem exists_layLines (n w : List Char) (ls : List (List Char)) :
    ∃ r, layLines n w ls = n ++ r := by
  cases ls with
  | nil => exact ⟨w, rfl⟩
  | cons l ls => exact ⟨_, layLines_cons n w l ls⟩

/-- What is written for the end of a line is one. -/
theorem lines_lineEnd (hn : n ∈ lineEnds) (hx : n = ['\r'] → ¬['\n'] <+: x) :
    lines (n ++ x) = [] :: lines x := by
  simp only [lineEnds, List.mem_cons, List.not_mem_nil, or_false] at hn
  rcases hn with rfl | rfl | rfl
  · exact lines_pair x
  · exact lines_lone rfl (not_pair (.inl (by decide)))
  · exact lines_lone rfl (not_pair (.inr (hx rfl)))

theorem not_feed_append (hp : ∀ c ∈ p, isLineEnd c = false) (hx : ¬['\n'] <+: x) :
    ¬['\n'] <+: p ++ x := by
  cases p with
  | nil => exact hx
  | cons c p =>
      intro h
      obtain ⟨rfl, -⟩ := List.cons_prefix_cons.1 h
      exact absurd (hp _ List.mem_cons_self) (by decide)

theorem lines_layLines (hn : n ∈ lineEnds) (hw : ∀ c ∈ w, isIndent c = true)
    (hls : ∀ l ∈ ls, ∀ c ∈ l, isLineEnd c = false) :
    lines (layLines n w ls) = indentRest w ([] :: (ls ++ [[]])) := by
  have hplain : ∀ c ∈ w, isLineEnd c = false := fun c hc => isLineEnd_of_isIndent (hw c hc)
  induction ls with
  | nil =>
      have hend : lines (w ++ []) = [w ++ []] := lines_append hplain []
      have hfeed : ¬['\n'] <+: w ++ [] := not_feed_append hplain (by simp)
      rw [List.append_nil] at hend hfeed
      rw [layLines_nil, lines_lineEnd hn fun _ => hfeed, hend]
      simp [indentRest]
  | cons l ls ih =>
      obtain ⟨hl, hrest⟩ := List.forall_mem_cons.1 hls
      have hfeed : n = ['\r'] → ¬['\n'] <+: w ++ (l ++ layLines n w ls) := by
        rintro rfl
        obtain ⟨r, hr⟩ := exists_layLines ['\r'] w ls
        exact not_feed_append hplain (not_feed_append hl (by simp [hr]))
      rw [layLines_cons, lines_lineEnd hn hfeed, lines_append hplain, lines_append hl, ih hrest]
      simp [indentRest]

theorem not_quote_layLines (hn : n ∈ lineEnds) (ls : List (List Char)) (x : List Char) :
    ¬['"'] <+: layLines n w ls ++ x := by
  obtain ⟨r, hr⟩ := exists_layLines n w ls
  simp only [lineEnds, List.mem_cons, List.not_mem_nil, or_false] at hn
  rw [hr]
  rcases hn with rfl | rfl | rfl <;> simp

theorem unescape_layLines (hn : n ∈ lineEnds) (hw : ∀ c ∈ w, isIndent c = true)
    (ls : List (List Char)) :
    unescape (layLines n w (ls.map escapeQuotes)) = layLines n w ls := by
  have hn' : ∀ c ∈ n, c ≠ '\\' := fun c hc =>
    (ne_of_isLineEnd (isLineEnd_of_mem_lineEnds hn c hc)).2
  have hw' : ∀ c ∈ w, c ≠ '\\' := fun c hc => (ne_of_isIndent (hw c hc)).2
  induction ls with
  | nil =>
      rw [List.map_nil, layLines_nil, unescape_append hn', ← List.append_nil w,
        unescape_append hw']
      rfl
  | cons l ls ih =>
      have hquote := not_quote_layLines (w := w) hn (ls.map escapeQuotes) []
      rw [List.append_nil] at hquote
      rw [List.map_cons, layLines_cons, unescape_append hn', unescape_append hw',
        unescape_escapeQuotes hquote, ih, layLines_cons]

/-- Any indentation and any end of a line give the value back. -/
theorem decode_layOut {v : List Char} (hn : n ∈ lineEnds) (hw : ∀ c ∈ w, isIndent c = true)
    (hv : Flush v) : decode (layOut n w v) = v := by
  have hlines := lines_eq_splitOn hv.feeds
  have hplain : ∀ l ∈ v.splitOn '\n', ∀ c ∈ l, isLineEnd c = false :=
    hlines ▸ isLineEnd_of_mem_lines v
  obtain ⟨l, hl, hmargin⟩ := hv.margin
  have hcommon : commonIndent (v.splitOn '\n' ++ [[]]) = 0 :=
    commonIndent_of_flush ⟨l, List.mem_append_left _ hl, hmargin⟩
  rw [decode, layOut, unescape_layLines hn hw, lines_layLines hn hw hplain,
    trim_dedent_indentRest hw, dedent_of_commonIndent [] hcommon, trim_cons_blank rfl,
    trim_append_blank _ (by simp [isBlank]), trim_of_trimmed hv.trimmed, List.intercalate_splitOn]

end

end GraphQL.Text.Block
