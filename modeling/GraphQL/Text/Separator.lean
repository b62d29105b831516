/-!
Characters that separate. White space is the Unicode property of that name;
a separator is white space, a comma or a byte order mark. A line ends at a
line feed or a carriage return.
-/

namespace GraphQL.Text

/-- The byte order mark, which the grammar ignores wherever it stands. -/
def byteOrderMark : Char := '\uFEFF'

/-- The code points with the Unicode property `White_Space`. -/
def whiteSpace : List (Nat × Nat) :=
  [(0x09, 0x0D), (0x20, 0x20), (0x85, 0x85), (0xA0, 0xA0), (0x1680, 0x1680),
    (0x2000, 0x200A), (0x2028, 0x2029), (0x202F, 0x202F), (0x205F, 0x205F),
    (0x3000, 0x3000)]

def isWhiteSpace (c : Char) : Bool :=
  whiteSpace.any fun (first, last) => first ≤ c.toNat && c.toNat ≤ last

/-- Characters that never matter to a key except by separating their
neighbours. -/
def isSeparator (c : Char) : Bool :=
  c == ',' || c == byteOrderMark || isWhiteSpace c

def isLineEnd (c : Char) : Bool :=
  c == '\n' || c == '\r'

theorem isSeparator_of_isLineEnd {c : Char} (h : isLineEnd c = true) :
    isSeparator c = true := by
  simp only [isLineEnd, Bool.or_eq_true, beq_iff_eq] at h
  rcases h with rfl | rfl <;> decide

end GraphQL.Text
