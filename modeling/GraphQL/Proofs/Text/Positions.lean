import Mathlib.Data.List.Basic
import GraphQL.LineIndex
import GraphQL.Proofs.Text.Utf8

/-!
Positions of offsets. Halving an ascending table ends at the last entry that is not above what
is looked for. The table of line starts ascends and starts with zero, so every offset has a
line, and that is told by the line feeds in front of the offset. Bytes are counted throughout:
the byte of a line feed is a part of no other character.
-/

namespace GraphQL

/-! ### Halving a table -/

namespace Word

section
variable {table : Array UInt32} {word : UInt32}

/-- The entry at an index is not above the word, and all entries behind it are. Nothing is said
of the first entry: halving never looks at it. -/
structure Divides (table : Array UInt32) (word : UInt32) (i : Nat) : Prop where
  lt_size : i < table.size
  le_of_pos : 0 < i → ∀ e ∈ table[i]?, e ≤ word
  lt_of_lt : ∀ j, i < j → ∀ e ∈ table[j]?, word < e

theorem lt_of_ascending (h : table.toList.Pairwise (· < ·)) {i j : Nat} (hij : i < j)
    {a b : UInt32} (ha : a ∈ table[i]?) (hb : b ∈ table[j]?) : a < b := by
  obtain ⟨hi, rfl⟩ := Array.getElem?_eq_some_iff.1 ha
  obtain ⟨hj, rfl⟩ := Array.getElem?_eq_some_iff.1 hb
  exact List.pairwise_iff_getElem.1 h i j hi hj hij

/-- What is halved always holds the last entry that is not above the word. -/
theorem halve_divides (h : table.toList.Pairwise (· < ·)) {base size : Nat} (hsize : 0 < size)
    (hbound : base + size ≤ table.size) (hbase : 0 < base → ∀ e ∈ table[base]?, e ≤ word)
    (habove : ∀ j, base + size ≤ j → ∀ e ∈ table[j]?, word < e) :
    Divides table word (halve table word base size) := by
  fun_induction halve table word base size with
  | case1 base size hle =>
      exact ⟨by omega, hbase, fun j hj => habove j (by omega)⟩
  | case2 base size hle middle above ih =>
      have hmiddle : middle = base + size / 2 := rfl
      obtain ⟨entry, hentry⟩ : ∃ entry, table[middle]? = some entry :=
        ⟨_, Array.getElem?_eq_getElem (by omega)⟩
      have habove_iff : above = true ↔ word < entry := by simp [above, hentry]
      split
      · rename_i hcase
        rw [dif_pos hcase] at ih
        have hlt : word < entry := habove_iff.1 hcase
        refine ih (by omega) (by omega) hbase fun j hj e he => ?_
        rcases Nat.eq_or_lt_of_le (show middle ≤ j by omega) with rfl | hj
        · rwa [← Option.some.inj (hentry.symm.trans he)]
        · exact UInt32.lt_trans hlt (lt_of_ascending h hj hentry he)
      · rename_i hcase
        rw [dif_neg hcase] at ih
        have hle : entry ≤ word := UInt32.not_lt.1 (mt habove_iff.2 hcase)
        refine ih (by omega) (by omega) (fun _ e he => ?_) fun j hj => habove j (by omega)
        rwa [← Option.some.inj (hentry.symm.trans he)]

end
end Word

/-! ### Finding a line -/

namespace LineIndex

variable {index : LineIndex} {offset : UInt32}

/-- A table that ascends from zero has a line for every offset: the last that starts at the
offset or in front of it. -/
theorem line?_eq_some (h : index.starts.toList.Pairwise (· < ·)) (hzero : index.starts[0]? = some 0)
    (offset : UInt32) :
    ∃ line start, index.line? offset = some line ∧ index.starts[line]? = some start ∧
      start ≤ offset ∧ ∀ j, line < j → ∀ e ∈ index.starts[j]?, offset < e := by
  have hsize : 0 < index.starts.size := (Array.getElem?_eq_some_iff.1 hzero).1
  have hdivides : Word.Divides index.starts offset
      (Word.halve index.starts offset 0 index.starts.size) := by
    refine Word.halve_divides h hsize (by omega) (fun hpos => absurd hpos (by omega)) ?_
    intro j hj e he
    have hlt := (Array.getElem?_eq_some_iff.1 he).1
    omega
  generalize hline : Word.halve index.starts offset 0 index.starts.size = line at hdivides
  obtain ⟨start, hentry⟩ : ∃ start, index.starts[line]? = some start :=
    ⟨_, Array.getElem?_eq_getElem hdivides.lt_size⟩
  have hle : start ≤ offset := by
    rcases Nat.eq_zero_or_pos line with rfl | hpos
    · rw [Option.some.inj (hentry.symm.trans hzero)]
      exact UInt32.zero_le
    · exact hdivides.le_of_pos hpos _ hentry
  refine ⟨line, start, ?_, hentry, hle, hdivides.lt_of_lt⟩
  rw [line?, Word.search, hline]
  simp only [hentry]
  by_cases heq : start = offset
  · rw [if_pos heq]
  · rw [if_neg heq, if_pos (UInt32.lt_of_le_of_ne hle heq)]

/-! ### The table of line starts -/

/-- The offsets behind the line feeds of some bytes that stand at an offset. -/
abbrev feedEnds (start : Nat) (bytes : List UInt8) : List Nat :=
  bytes.findIdxs (· == 10) (start + 1)

theorem feedEnds_char (start : Nat) (c : Char) :
    feedEnds start (String.utf8EncodeChar c) = if c = '\n' then [start + c.utf8Size] else [] := by
  split
  · next h =>
    rw [h, Text.utf8EncodeChar_of_lt (by decide)]
    rfl
  · next h =>
    refine List.findIdxs_eq_nil_iff.2 fun b hb => beq_eq_false_iff_ne.2 ?_
    rintro rfl
    rcases Nat.lt_or_ge c.toNat 128 with hc | hc
    · rw [Text.utf8EncodeChar_of_lt hc, List.mem_singleton] at hb
      have hcode := congrArg Char.ofUInt8 hb
      rw [Text.ofUInt8_ofNat hc] at hcode
      exact h hcode.symm
    · exact absurd (Text.le_of_mem_utf8EncodeChar hc hb) (by decide)

/-- Lines start behind the bytes that are line feeds. -/
theorem startsAfter_eq (offset : Nat) (text : List Char) :
    startsAfter offset text = feedEnds offset (Text.utf8 text) := by
  induction text generalizing offset with
  | nil => rfl
  | cons c cs ih =>
      have hnext : startsAfter (offset + c.utf8Size) cs =
          (Text.utf8 cs).findIdxs (· == 10) (offset + 1 + c.utf8Size) := by
        rw [ih, feedEnds, Nat.add_right_comm]
      rw [Text.utf8_cons, feedEnds, List.findIdxs_append, ← feedEnds, feedEnds_char,
        String.length_utf8EncodeChar, ← hnext, startsAfter]
      split <;> rfl

/-- The offsets at which the lines of some bytes start. -/
abbrev lineStarts (bytes : List UInt8) : List Nat := 0 :: feedEnds 0 bytes

/-- The start of the line of an offset is that of the source or a place behind a line feed, and
from there to the offset is no line feed. -/
structure StartsLine (bytes : List UInt8) (offset start : Nat) : Prop where
  le : start ≤ offset
  origin : start = 0 ∨ ∃ i, start = i + 1 ∧ bytes[i]? = some 10
  clear : ∀ i, start ≤ i → i < offset → bytes[i]? ≠ some 10

section
variable {bytes : List UInt8}

theorem mem_feedEnds {start : Nat} : start ∈ feedEnds 0 bytes ↔
    ∃ i, start = i + 1 ∧ bytes[i]? = some 10 := by
  simp only [feedEnds, List.mem_findIdxs_iff_getElem_sub_pos, beq_iff_eq]
  constructor
  · rintro ⟨hle, hlt, hbyte⟩
    exact ⟨start - 1, by omega, List.getElem?_eq_some_iff.2 ⟨hlt, hbyte⟩⟩
  · rintro ⟨i, rfl, hbyte⟩
    exact ⟨by omega, List.getElem?_eq_some_iff.1 hbyte⟩

theorem mem_lineStarts {start : Nat} : start ∈ lineStarts bytes ↔
    start = 0 ∨ ∃ i, start = i + 1 ∧ bytes[i]? = some 10 := by
  rw [List.mem_cons, mem_feedEnds]

theorem le_length_of_mem_lineStarts {start : Nat} (h : start ∈ lineStarts bytes) :
    start ≤ bytes.length := by
  rcases mem_lineStarts.1 h with rfl | ⟨i, rfl, hbyte⟩
  · exact Nat.zero_le _
  · exact (List.getElem?_eq_some_iff.1 hbyte).1

theorem pairwise_lineStarts : (lineStarts bytes).Pairwise (· < ·) :=
  List.pairwise_cons.2 ⟨fun _ h => List.ge_of_mem_findIdxs _ h, List.pairwise_findIdxs⟩

/-- A later line starts behind the offset: in front of it is a line feed. -/
theorem StartsLine.lt_of_mem {offset start later : Nat} (h : StartsLine bytes offset start)
    (hmem : later ∈ lineStarts bytes) (hlt : start < later) : offset < later := by
  rcases mem_lineStarts.1 hmem with rfl | ⟨i, rfl, hbyte⟩
  · exact absurd hlt (Nat.not_lt_zero _)
  · exact Nat.lt_of_not_le fun hle => h.clear i (Nat.le_of_lt_succ hlt) hle hbyte

/-- The line of an offset has as many lines in front of it as there are line feeds in front of
the offset. -/
theorem startsLine_count (bytes : List UInt8) (offset : Nat) :
    ∃ start, StartsLine bytes offset start ∧
      (lineStarts bytes)[(bytes.take offset).count 10]? = some start := by
  generalize hfront : lineStarts (bytes.take offset) = front
  have hlength : front.length = (bytes.take offset).count 10 + 1 := by
    rw [← hfront, List.length_cons, List.length_findIdxs]
    rfl
  have hsplit : lineStarts bytes =
      front ++ (bytes.drop offset).findIdxs (· == 10) (1 + (bytes.take offset).length) := by
    rw [← hfront, List.cons_append, ← List.findIdxs_append, List.take_append_drop]
  obtain ⟨start, hstart⟩ : ∃ start, front[(bytes.take offset).count 10]? = some start :=
    ⟨_, List.getElem?_eq_getElem (by omega)⟩
  have hmem : start ∈ lineStarts (bytes.take offset) := hfront ▸ List.mem_of_getElem? hstart
  refine ⟨start, ⟨?_, ?_, fun i hi hlt hbyte => ?_⟩, ?_⟩
  · exact Nat.le_trans (le_length_of_mem_lineStarts hmem) (List.length_take_le _ _)
  · refine mem_lineStarts.1 ?_
    rw [hsplit, ← hfront]
    exact List.mem_append_left _ hmem
  · -- The line feed would have a line of its own behind the last.
    have hfeed : i + 1 ∈ front := by
      rw [← hfront, mem_lineStarts]
      exact .inr ⟨i, rfl, by rwa [List.getElem?_take_of_lt hlt]⟩
    obtain ⟨j, hj, hentry⟩ := List.getElem_of_mem hfeed
    obtain ⟨hlast, rfl⟩ := List.getElem?_eq_some_iff.1 hstart
    rcases Nat.eq_or_lt_of_le (show j ≤ (bytes.take offset).count 10 by omega) with rfl | hjlt
    · omega
    · have hascends := List.pairwise_iff_getElem.1 (hfront ▸ pairwise_lineStarts) j _ hj hlast hjlt
      omega
  · rw [hsplit, List.getElem?_append_left (by omega), hstart]

end

/-! ### Positions -/

/-- The bytes that a source is stored as. -/
abbrev sourceBytes (source : String) : List UInt8 := source.toByteArray.data.toList

section
variable {source : String} {offset : UInt32}

theorem starts_ofSource (source : String) (j : Nat) :
    (ofSource source).starts[j]? =
      (lineStarts (sourceBytes source))[j]?.map Nat.toUInt32 := by
  rw [ofSource, ofText, List.getElem?_toArray, List.getElem?_map, startsAfter_eq, Text.utf8_toList]

/-- In a table of offsets the words stand for what they were. -/
theorem toNat_start (hsource : source.utf8ByteSize < UInt32.size - 1) {start : Nat}
    (h : start ∈ lineStarts (sourceBytes source)) : start.toUInt32.toNat = start := by
  have hle : start ≤ source.utf8ByteSize := le_length_of_mem_lineStarts h
  exact UInt32.toNat_ofNat_of_lt (by omega)

theorem pairwise_starts (hsource : source.utf8ByteSize < UInt32.size - 1) :
    (ofSource source).starts.toList.Pairwise (· < ·) := by
  rw [ofSource, ofText, startsAfter_eq, Text.utf8_toList, List.pairwise_map]
  refine pairwise_lineStarts.imp_of_mem fun ha hb hlt => UInt32.lt_iff_toNat_lt.2 ?_
  rwa [toNat_start hsource ha, toNat_start hsource hb]

/-- The line that is found is the one in which the offset is. -/
theorem line?_ofSource (hsource : source.utf8ByteSize < UInt32.size - 1) (offset : UInt32) :
    ∃ start, StartsLine (sourceBytes source) offset.toNat start ∧
      start.toUInt32.toNat = start ∧
      (ofSource source).line? offset =
        some (((sourceBytes source).take offset.toNat).count 10) ∧
      (ofSource source).starts[((sourceBytes source).take offset.toNat).count 10]? =
        some start.toUInt32 := by
  obtain ⟨start, hstarts, hentry⟩ := startsLine_count (sourceBytes source) offset.toNat
  generalize hcount : ((sourceBytes source).take offset.toNat).count 10 = count at hentry
  have hword := toNat_start hsource (List.mem_of_getElem? hentry)
  have hcounted : (ofSource source).starts[count]? = some start.toUInt32 := by
    rw [starts_ofSource, hentry]
    rfl
  obtain ⟨line, entry, hline, hfound, hle, habove⟩ := line?_eq_some (pairwise_starts hsource)
    (show (ofSource source).starts[0]? = some 0 from rfl) offset
  refine ⟨start, hstarts, hword, ?_, hcounted⟩
  rw [hline]
  rcases Nat.lt_trichotomy line count with hlt | rfl | hlt
  · have hafter : offset.toNat < start := hword ▸ UInt32.lt_iff_toNat_lt.1 (habove _ hlt _ hcounted)
    exact absurd hstarts.le (Nat.not_le.2 hafter)
  · rfl
  · rw [starts_ofSource] at hfound
    obtain ⟨later, hlater, rfl⟩ := Option.map_eq_some_iff.1 hfound
    have hmem := List.mem_of_getElem? hlater
    obtain ⟨hin, rfl⟩ := List.getElem?_eq_some_iff.1 hentry
    obtain ⟨hin', rfl⟩ := List.getElem?_eq_some_iff.1 hlater
    have hascends := List.pairwise_iff_getElem.1 pairwise_lineStarts _ _ hin hin' hlt
    have hafter := hstarts.lt_of_mem hmem hascends
    rw [← toNat_start hsource hmem, ← UInt32.lt_iff_toNat_lt] at hafter
    exact absurd hle (UInt32.not_le.2 hafter)

/-- No step on the way to a position leaves the words or the table. -/
theorem position?_eq_some {index : LineIndex} {line : Nat} {start : UInt32}
    (hline : index.line? offset = some line) (hentry : index.starts[line]? = some start)
    (hle : start.toNat ≤ offset.toNat) (hoffset : offset.toNat < UInt32.size - 1)
    (hlt : line < UInt32.size - 1) :
    index.position? offset = some ⟨line + 1, offset.toNat - start.toNat + 1⟩ := by
  have hcolumn : (offset - start).toNat = offset.toNat - start.toNat :=
    UInt32.toNat_sub_of_le _ _ (UInt32.le_iff_toNat_le.2 hle)
  have hword : line.toUInt32.toNat = line := UInt32.toNat_ofNat_of_lt (by omega)
  have hsub : Word.sub? offset start = some (offset - start) :=
    if_pos (UInt32.le_iff_toNat_le.2 hle)
  have hadd : ∀ a : UInt32, a.toNat < UInt32.size - 1 → Word.add? a 1 = some (a + 1) ∧
      (a + 1).toNat = a.toNat + 1 := by
    intro a ha
    have hone : (1 : UInt32).toNat = 1 := rfl
    refine ⟨if_pos (by omega), ?_⟩
    rw [UInt32.toNat_add, hone]
    exact Nat.mod_eq_of_lt (show a.toNat + 1 < UInt32.size by omega)
  obtain ⟨hlineAdd, hlineNat⟩ := hadd line.toUInt32 (by omega)
  obtain ⟨hcolumnAdd, hcolumnNat⟩ := hadd (offset - start) (by omega)
  simp only [position?, hline, hentry, hsub, hlineAdd, hcolumnAdd, Option.bind_eq_bind,
    Option.bind_some, hlineNat, hcolumnNat, hword, hcolumn]
  rfl

/-- What a position tells of an offset: the line feeds in front of the offset, how far the offset
is from the start of its line, and so the offset itself. -/
structure Resolves (source : String) (offset : Nat) (p : Position) : Prop where
  line : p.line = 1 + ((sourceBytes source).take offset).count 10
  column : ∃ start, StartsLine (sourceBytes source) offset start ∧
    p.column = 1 + (offset - start)
  inverse : ∃ start, (ofSource source).starts[p.line - 1]? = some start ∧
    start.toNat + p.column - 1 = offset

theorem exists_resolves (hsource : source.utf8ByteSize < UInt32.size - 1)
    (hoffset : offset.toNat < UInt32.size - 1) :
    ∃ p, (ofSource source).position? offset = some p ∧ Resolves source offset.toNat p := by
  obtain ⟨start, hstarts, hword, hline, hentry⟩ := line?_ofSource hsource offset
  have hcount : ((sourceBytes source).take offset.toNat).count 10 < UInt32.size - 1 :=
    Nat.lt_of_le_of_lt
      (Nat.le_trans List.count_le_length (List.length_take_le _ _)) hoffset
  have hle := hstarts.le
  refine ⟨_, position?_eq_some hline hentry (by omega) hoffset hcount, ?_, ?_, ?_⟩
  · exact Nat.add_comm _ _
  · exact ⟨start, hstarts, by rw [hword]; exact Nat.add_comm _ _⟩
  · exact ⟨start.toUInt32, hentry, by simp only [hword]; omega⟩

section
variable {x y : Nat} {p q : Position}

theorem Resolves.line_le (hp : Resolves source x p) (hq : Resolves source y q) (hle : x ≤ y) :
    p.line ≤ q.line := by
  rw [hp.line, hq.line]
  exact Nat.add_le_add_left ((List.take_prefix_take_left hle).sublist.count_le 10) 1

theorem Resolves.lt_iff_of_line_eq (hp : Resolves source x p) (hq : Resolves source y q)
    (hline : p.line = q.line) : x < y ↔ p.column < q.column := by
  obtain ⟨start, hentry, hinverse⟩ := hp.inverse
  obtain ⟨start', hentry', hinverse'⟩ := hq.inverse
  obtain rfl : start = start' := Option.some.inj (hentry.symm.trans (hline ▸ hentry'))
  obtain ⟨_, _, hcolumn⟩ := hp.column
  obtain ⟨_, _, hcolumn'⟩ := hq.column
  omega

theorem Resolves.lt_iff (hp : Resolves source x p) (hq : Resolves source y q) :
    x < y ↔ p.line < q.line ∨ p.line = q.line ∧ p.column < q.column := by
  have hforth : x ≤ y → p.line ≤ q.line := hp.line_le hq
  have hback : y ≤ x → q.line ≤ p.line := hq.line_le hp
  rcases Nat.lt_trichotomy p.line q.line with hlt | heq | hlt
  · omega
  · have hcolumns := hp.lt_iff_of_line_eq hq heq
    omega
  · omega

end
end

/-- Any offset of a source or behind it has a position, and no step on the way to it leaves the
table of line starts or the range of words. Its line is told by the line feeds in front of the
offset and its column by how far the last of them is away, so the offset can be found again, and
offsets are ordered as their positions are. -/
theorem position?_resolves (source : String) (hsource : source.utf8ByteSize < UInt32.size - 1) :
    ∀ offset : UInt32, offset.toNat < UInt32.size - 1 →
      ∃ p, (ofSource source).position? offset = some p ∧
        (ofSource source).position offset.toNat = p ∧ Resolves source offset.toNat p ∧
        ∀ other q, other.toNat < UInt32.size - 1 → (ofSource source).position? other = some q →
          (offset < other ↔ p.line < q.line ∨ p.line = q.line ∧ p.column < q.column) := by
  intro offset hoffset
  obtain ⟨p, hp, hresolves⟩ := exists_resolves hsource hoffset
  refine ⟨p, hp, ?_, hresolves, fun other q hother hq => ?_⟩
  · rw [position, show offset.toNat.toUInt32 = offset from UInt32.ofNat_toNat, hp]
    rfl
  · obtain ⟨q', hq', hresolves'⟩ := exists_resolves hsource hother
    obtain rfl : q' = q := Option.some.inj (hq'.symm.trans hq)
    rw [UInt32.lt_iff_toNat_lt, hresolves.lt_iff hresolves']

/-- The end of a text whose last line feed is not its last byte. -/
theorem position?_resolves_example :
    ∃ p, (ofSource "query \x7b\n  a\n\x7d").position? 12 = some p ∧
      (ofSource "query \x7b\n  a\n\x7d").position 12 = ⟨3, 1⟩ ∧
      Resolves "query \x7b\n  a\n\x7d" 12 p := by
  obtain ⟨p, hp, hrun, hresolves, -⟩ :=
    position?_resolves "query \x7b\n  a\n\x7d" (by decide) 12 (by decide)
  exact ⟨p, hp, by decide +kernel, hresolves⟩

end LineIndex
end GraphQL
