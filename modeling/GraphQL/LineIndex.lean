import GraphQL.Text.Bytes

/-!
Lines and columns. An index holds the offset at which each line starts, as a word of 32 bits;
only a line feed ends a line, and columns count bytes. The line of an offset is found by
halving the table of starts. Whatever would leave the table or the range of words on the way
has no position.
-/

namespace GraphQL

/-- A place in a source, both numbers starting at one. -/
structure Position where
  line : Nat
  column : Nat
  deriving DecidableEq, Repr

/-- The form in which positions are shown. -/
def Position.display (p : Position) : String :=
  s!"{p.line}:{p.column}"

/-! ### Words -/

namespace Word

/-- The sum of two words, unless it is too large for a word. -/
def add? (a b : UInt32) : Option UInt32 :=
  if a.toNat + b.toNat < UInt32.size then some (a + b) else none

/-- The difference of two words, unless it is below zero. -/
def sub? (a b : UInt32) : Option UInt32 :=
  if b ≤ a then some (a - b) else none

/-- Where a word is in an ascending table, or else the index at which it would have to be put
in. -/
inductive Search
  | present (index : Nat)
  | absent (index : Nat)
  deriving DecidableEq, Repr

/-- The entry that is left of `size` entries from `base` on when half of them are dropped time
and again: those behind the middle if the entry there is above the word, and else those in
front of it. -/
def halve (table : Array UInt32) (word : UInt32) (base size : Nat) : Nat :=
  if size ≤ 1 then base
  else
    let middle := base + size / 2
    let above := table[middle]?.any (word < ·)
    halve table word (if above then base else middle) (size - size / 2)
termination_by size

def search (table : Array UInt32) (word : UInt32) : Search :=
  let base := halve table word 0 table.size
  match table[base]? with
  | none => .absent 0
  | some entry =>
      if entry = word then .present base
      else .absent (if entry < word then base + 1 else base)

end Word

/-! ### The index -/

/-- The offsets at which the lines of a source start, in order. The first line
starts at zero. -/
structure LineIndex where
  starts : Array UInt32
  deriving DecidableEq, Repr

namespace LineIndex

/-- The offsets just after each line feed of a text that stands at `offset`. -/
def startsAfter (offset : Nat) : List Char → List Nat
  | [] => []
  | c :: cs =>
      let next := offset + c.utf8Size
      if c = '\n' then next :: startsAfter next cs else startsAfter next cs

def ofText (text : List Char) : LineIndex :=
  ⟨((0 :: startsAfter 0 text).map Nat.toUInt32).toArray⟩

def ofSource (source : String) : LineIndex :=
  ofText source.toList

/-- The line of an offset, counted from zero: it starts there, or else in front of the line at
which the offset would be put in. -/
def line? (index : LineIndex) (offset : UInt32) : Option Nat :=
  match Word.search index.starts offset with
  | .present line => some line
  | .absent 0 => none
  | .absent (line + 1) => some line

/-- The line of an offset, and how far behind its start the offset is. -/
def position? (index : LineIndex) (offset : UInt32) : Option Position := do
  let line ← index.line? offset
  let start ← index.starts[line]?
  let column ← Word.add? (← Word.sub? offset start) 1
  return ⟨(← Word.add? line.toUInt32 1).toNat, column.toNat⟩

/-- The position of an offset. What has none is shown at the start of the source. -/
def position (index : LineIndex) (offset : Nat) : Position :=
  (index.position? offset.toUInt32).getD ⟨1, 1⟩

end LineIndex
end GraphQL
