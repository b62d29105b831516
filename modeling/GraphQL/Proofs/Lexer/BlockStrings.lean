import GraphQL.Proofs.Lexer.Strings
import GraphQL.Proofs.Text.Block

/-!
Block strings in a source. What the scanner takes for the end of a block string does not
depend on how its lines end and how far they are indented, and neither does its value.
-/

namespace GraphQL

open Text

namespace Lexer

open Block (isIndent lineEnds mapLineEnds Relays escapeQuotes layLines text_induction)

/-- A text is read as a block string up to its end. -/
def Closes (cs : List Char) : Prop := blockString cs = ⟨.blockString, cs, []⟩

theorem closes_quotes : Closes ['"', '"', '"'] := blockString_close []

section
variable {f : List Char → List Char} {w p cs x : List Char} {c : Char}

/-- A text closes where what is left of it does. -/
theorem closes_iff_of_prepend (h : blockString (p ++ cs) = (blockString cs).prepend p) :
    Closes (p ++ cs) ↔ Closes cs := by
  rw [Closes, h]
  constructor
  · intro hclosed
    obtain ⟨back, hback, hcs⟩ := Scan.prepend_eq hclosed
    rwa [← List.append_cancel_left hback] at hcs
  · intro hcs
    rw [hcs]
    rfl

theorem closes_escape_iff : Closes ('\\' :: '"' :: '"' :: '"' :: cs) ↔ Closes cs :=
  closes_iff_of_prepend (p := ['\\', '"', '"', '"']) (blockString_escape cs)

theorem closes_cons_iff (hclose : ¬['"', '"', '"'] <+: c :: cs)
    (hescape : ¬['\\', '"', '"', '"'] <+: c :: cs) : Closes (c :: cs) ↔ Closes cs :=
  closes_iff_of_prepend (p := [c]) (blockString_plain hclose hescape)

theorem closes_append_iff (hp : ∀ c ∈ p, c ≠ '"' ∧ c ≠ '\\') : Closes (p ++ cs) ↔ Closes cs := by
  induction p with
  | nil => rfl
  | cons c p ih =>
      obtain ⟨⟨hquote, hbackslash⟩, hp⟩ := List.forall_mem_cons.1 hp
      have hclose : ¬['"', '"', '"'] <+: c :: (p ++ cs) := fun h =>
        hquote (List.cons_prefix_cons.1 h).1.symm
      rw [List.cons_append, closes_cons_iff hclose (Block.not_escape hbackslash), ih hp]

/-- A block string that ends with its text ends so after its lines are written anew. -/
theorem Closes.mapLineEnds (hf : Relays w f) (h : Closes cs) : Closes (mapLineEnds f cs) := by
  induction cs using text_induction with
  | nil => exact h
  | pair cs ih =>
      have hpair := Block.isLineEnd_of_mem_pair
      have hcs : Closes cs :=
        (closes_append_iff fun c hc => Block.ne_of_isLineEnd (hpair c hc)).1 h
      rw [Block.mapLineEnds_pair]
      exact (closes_append_iff (hf.ne_of_mem hpair)).2 (ih hcs)
  | lone c cs hc hpair ih =>
      have hlone : ∀ d ∈ [c], isLineEnd d = true := by simpa using hc
      have hcs : Closes cs :=
        (closes_append_iff (p := [c]) fun d hd => Block.ne_of_isLineEnd (hlone d hd)).1 h
      rw [Block.mapLineEnds_lone hc hpair]
      exact (closes_append_iff (hf.ne_of_mem hlone)).2 (ih hcs)
  | escape cs ih =>
      rw [show '\\' :: '"' :: '"' :: '"' :: cs = ['\\', '"', '"', '"'] ++ cs from rfl,
        Block.mapLineEnds_append Block.isLineEnd_of_mem_escape]
      exact closes_escape_iff.2 (ih (closes_escape_iff.1 h))
  | plain c cs hc hescape ih =>
      by_cases hclose : ['"', '"', '"'] <+: c :: cs
      · -- Nothing is left behind the quotes that end it.
        obtain ⟨r, hr⟩ := hclose
        rw [← hr] at h ⊢
        obtain rfl : r = [] := congrArg Scan.rest ((blockString_close r).symm.trans h)
        rw [Block.mapLineEnds_append Block.isLineEnd_of_mem_quotes]
        exact closes_quotes
      · have hcs : Closes cs := (closes_cons_iff hclose hescape).1 h
        rw [Block.mapLineEnds_plain hc]
        refine (closes_cons_iff ?_ ?_).2 (ih hcs)
        · rw [← Block.mapLineEnds_plain hc]
          exact fun hp => hclose (hf.prefix_of_mapLineEnds Block.isLineEnd_of_mem_quotes hp)
        · rw [← Block.mapLineEnds_plain hc]
          exact fun hp => hescape (hf.prefix_of_mapLineEnds Block.isLineEnd_of_mem_escape hp)

/-- What is read of a block string ends in three quotes. -/
theorem quotes_of_blockString {x r : List Char} (h : blockString cs = ⟨.blockString, x, r⟩) :
    ∃ inner, x = inner ++ ['"', '"', '"'] := by
  obtain rfl := eq_append_of_blockString h
  induction x, h using blockString_induction with
  | close => exact ⟨[], rfl⟩
  | escape x _ _ ih =>
      obtain ⟨inner, rfl⟩ := ih
      exact ⟨['\\', '"', '"', '"'] ++ inner, rfl⟩
  | plain c x _ _ _ _ ih =>
      obtain ⟨inner, rfl⟩ := ih
      exact ⟨c :: inner, rfl⟩

theorem closes_escapeQuotes (hx : ¬['"'] <+: x) (h : Closes x) (l : List Char) :
    Closes (escapeQuotes l ++ x) := by
  fun_induction escapeQuotes l with
  | case1 => exact h
  | case2 l ih => exact closes_escape_iff.2 ih
  | case3 c l hne ih =>
      have hplain : ¬['"', '"', '"'] <+: c :: l := by
        rintro ⟨r, hr⟩
        cases hr
        exact hne r rfl rfl
      refine (closes_cons_iff ?_ ?_).2 ih
      · have hnot : ¬['"', '"', '"'] <+: escapeQuotes (c :: l) ++ x :=
          Block.not_triple_escapeQuotes hx
        rwa [Block.escapeQuotes_plain hplain] at hnot
      · exact fun hp => Block.not_triple_escapeQuotes hx (List.cons_prefix_cons.1 hp).2

theorem closes_layLines {n : List Char} (hn : n ∈ lineEnds) (hw : ∀ c ∈ w, isIndent c = true)
    (ls : List (List Char)) :
    Closes (layLines n w (ls.map escapeQuotes) ++ ['"', '"', '"']) := by
  have hends : ∀ c ∈ n, c ≠ '"' ∧ c ≠ '\\' := fun c hc =>
    Block.ne_of_isLineEnd (Block.isLineEnd_of_mem_lineEnds hn c hc)
  have hindent : ∀ c ∈ w, c ≠ '"' ∧ c ≠ '\\' := fun c hc => Block.ne_of_isIndent (hw c hc)
  induction ls with
  | nil =>
      rw [List.map_nil, Block.layLines_nil, List.append_assoc, closes_append_iff hends,
        closes_append_iff hindent]
      exact closes_quotes
  | cons l ls ih =>
      rw [List.map_cons, Block.layLines_cons, List.append_assoc, List.append_assoc,
        List.append_assoc, closes_append_iff hends, closes_append_iff hindent]
      exact closes_escapeQuotes (Block.not_quote_layLines hn _ _) ih l

end

end Lexer

open Lexer

/-! ### Texts of one block string -/

/-- A text between two triple quotes. -/
def blockQuoted (inner : List Char) : List Char :=
  '"' :: '"' :: '"' :: (inner ++ ['"', '"', '"'])

/-- The text is one block string, and has the value. -/
structure IsBlock (text value : String) : Prop where
  token : IsToken .blockString text
  value : blockStringValue text = value

theorem blockStringValue_blockQuoted (inner : List Char) :
    blockStringValue (String.ofList (blockQuoted inner)) = String.ofList (Block.decode inner) := by
  rw [blockStringValue, String.toList_ofList, Block.value]
  simp [blockQuoted]

theorem isBlock_blockQuoted {inner : List Char} (h : Closes (inner ++ ['"', '"', '"'])) :
    IsBlock (String.ofList (blockQuoted inner)) (String.ofList (Block.decode inner)) where
  token := by
    refine isToken_of_scan rfl (by decide) ?_
    rw [scan_quote_block, h]
    rfl
  value := blockStringValue_blockQuoted inner

theorem blockQuoted_of_mem_tokenize {source : String} {t : Token} (ht : t ∈ tokenize source)
    (hk : t.kind = .blockString) :
    ∃ inner, Closes (inner ++ ['"', '"', '"']) ∧ t.text = String.ofList (blockQuoted inner) := by
  rcases Reader.mem_tokens [] ht with rfl | ⟨before, c, r, -, rfl⟩
  · cases hk
  · obtain ⟨r', x, rest, hx, htext⟩ := blockString_of_scan hk
    obtain ⟨inner, rfl⟩ := quotes_of_blockString hx
    have hcloses := blockString_append hx []
    rw [List.append_nil] at hcloses
    exact ⟨inner, hcloses, congrArg String.ofList htext⟩

/-- Writes something for every end of a line in a text. -/
def rewriteLineEnds (f : List Char → List Char) (text : String) : String :=
  String.ofList (Block.mapLineEnds f text.toList)

theorem mapLineEnds_blockQuoted (f : List Char → List Char) (inner : List Char) :
    Block.mapLineEnds f (blockQuoted inner) = blockQuoted (Block.mapLineEnds f inner) := by
  have hquotes := Block.isLineEnd_of_mem_quotes
  calc Block.mapLineEnds f (blockQuoted inner)
      = ['"', '"', '"'] ++ Block.mapLineEnds f (inner ++ ['"', '"', '"']) :=
        Block.mapLineEnds_append hquotes _
    _ = blockQuoted (Block.mapLineEnds f inner) := by
        rw [Block.mapLineEnds_concat hquotes]
        rfl

theorem isBlock_rewriteLineEnds {f : List Char → List Char} {w inner : List Char}
    (hf : Block.Relays w f) (h : Closes (inner ++ ['"', '"', '"'])) :
    IsBlock (rewriteLineEnds f (String.ofList (blockQuoted inner)))
      (blockStringValue (String.ofList (blockQuoted inner))) := by
  have hcloses := h.mapLineEnds hf
  rw [Block.mapLineEnds_concat Block.isLineEnd_of_mem_quotes] at hcloses
  rw [rewriteLineEnds, String.toList_ofList, mapLineEnds_blockQuoted,
    blockStringValue_blockQuoted, ← hf.decode_mapLineEnds]
  exact isBlock_blockQuoted hcloses

/-- A text that does not stand off its margins is the value of a block string with any
indentation and any ends of its lines. -/
theorem isBlock_layOut {n w : List Char} {v : String} (hn : n ∈ Block.lineEnds)
    (hw : ∀ c ∈ w, Block.isIndent c = true) (hv : Block.Flush v.toList) :
    IsBlock (String.ofList (blockQuoted (Block.layOut n w v.toList))) v := by
  have hblock := isBlock_blockQuoted (closes_layLines hn hw (v.toList.splitOn '\n'))
  rw [← Block.layOut, Block.decode_layOut hn hw hv, String.ofList_toList] at hblock
  exact hblock

/-- Four quotes, a backslash and a blank line, with two indentations. -/
theorem isBlock_layOut_example :
    let v := "  a\"\"\"\"\n \n\\é"
    (['\r', '\n'] ∈ Block.lineEnds ∧ (∀ c ∈ [' ', '\t'], Block.isIndent c = true) ∧
        Block.Flush v.toList) ∧
      IsBlock "\"\"\"\r\n \t  a\\\"\"\"\"\r\n \t \r\n \t\\é\r\n \t\"\"\"" v := by
  intro v
  have hn : ['\r', '\n'] ∈ Block.lineEnds := by decide
  have hw : ∀ c ∈ [' ', '\t'], Block.isIndent c = true := by simp [Block.isIndent]
  have hv : Block.Flush v.toList :=
    ⟨by decide +kernel, ⟨by decide +kernel, by decide +kernel⟩,
      ['\\', 'é'], by decide +kernel, by decide, by simp [Block.isIndent]⟩
  have htext : String.ofList (blockQuoted (Block.layOut ['\r', '\n'] [' ', '\t'] v.toList)) =
      "\"\"\"\r\n \t  a\\\"\"\"\"\r\n \t \r\n \t\\é\r\n \t\"\"\"" := by
    decide +kernel
  exact ⟨⟨hn, hw, hv⟩, htext ▸ isBlock_layOut hn hw hv⟩

/-- The value of a block string has no blank lines at its ends and no carriage returns, and
does not depend on how its lines end and how far they are indented. -/
theorem blockStringValue_canonical {source : String} {t : Token} (ht : t ∈ tokenize source)
    (hk : t.kind = .blockString) :
    Block.Canonical (blockStringValue t.text).toList ∧
      (∀ w : List Char, (∀ c ∈ w, Block.isIndent c = true) →
        IsBlock (rewriteLineEnds (· ++ w) t.text) (blockStringValue t.text)) ∧
      IsBlock (rewriteLineEnds (fun _ => ['\n']) t.text) (blockStringValue t.text) := by
  obtain ⟨inner, hcloses, htext⟩ := blockQuoted_of_mem_tokenize ht hk
  rw [htext]
  refine ⟨?_, fun w hw => ?_, ?_⟩
  · rw [blockStringValue_blockQuoted, String.toList_ofList]
    exact Block.canonical_decode inner
  · exact isBlock_rewriteLineEnds ⟨hw, .inl fun _ => rfl⟩ hcloses
  · exact isBlock_rewriteLineEnds ⟨List.forall_mem_nil _, .inr fun _ => rfl⟩ hcloses

/-- Three ends of lines behind escaped quotes, the first two next to each other. -/
theorem blockStringValue_canonical_example :
    let t : Token := ⟨⟨.blockString, "\"\"\"x\\\"\"\"\r\r\n  y\n\"\"\""⟩, ⟨2, 20⟩⟩
    (t ∈ tokenize "a \"\"\"x\\\"\"\"\r\r\n  y\n\"\"\"" ∧ t.kind = .blockString) ∧
      Block.Canonical "x\"\"\"\n\ny".toList ∧
      IsBlock "\"\"\"x\\\"\"\"\r\t\r\n\t  y\n\t\"\"\"" "x\"\"\"\n\ny" ∧
      IsBlock "\"\"\"x\\\"\"\"\n\n  y\n\"\"\"" "x\"\"\"\n\ny" := by
  intro t
  have ht : t ∈ tokenize "a \"\"\"x\\\"\"\"\r\r\n  y\n\"\"\"" := by decide +kernel
  have hvalue : blockStringValue t.text = "x\"\"\"\n\ny" := by decide +kernel
  have hindented : rewriteLineEnds (· ++ ['\t']) t.text =
      "\"\"\"x\\\"\"\"\r\t\r\n\t  y\n\t\"\"\"" := by decide +kernel
  have hfeeds : rewriteLineEnds (fun _ => ['\n']) t.text =
      "\"\"\"x\\\"\"\"\n\n  y\n\"\"\"" := by decide +kernel
  obtain ⟨hcanonical, hindent, hfeed⟩ := blockStringValue_canonical ht rfl
  have htab := hindent ['\t'] (by simp [Block.isIndent])
  rw [hvalue, hindented] at htab
  rw [hvalue, hfeeds] at hfeed
  exact ⟨⟨ht, rfl⟩, hvalue ▸ hcanonical, htab, hfeed⟩

end GraphQL
