/-!
The value of a block string. Only an escaped triple quote is replaced; the
lines after the first lose their common indentation, and blank lines at both
ends are dropped. Every line end becomes a line feed.
-/

namespace GraphQL.Text.Block

/-- Writes every escaped triple quote as a plain one. -/
def unescape : List Char → List Char
  | [] => []
  | '\\' :: '"' :: '"' :: '"' :: cs => '"' :: '"' :: '"' :: unescape cs
  | c :: cs => c :: unescape cs

/-- The lines of a text. A carriage return and a line feed end one line
together, and each ends one alone. -/
def lines : List Char → List (List Char)
  | [] => [[]]
  | '\r' :: '\n' :: cs => [] :: lines cs
  | c :: cs =>
      if c = '\n' ∨ c = '\r' then [] :: lines cs
      else
        match lines cs with
        | [] => [[c]]
        | l :: ls => (c :: l) :: ls

def isIndent (c : Char) : Bool := c == ' ' || c == '\t'

def isBlank (line : List Char) : Bool := line.all isIndent

def indent (line : List Char) : Nat := (line.takeWhile isIndent).length

/-- The least indentation of the lines that are not blank, zero if all are. -/
def commonIndent (ls : List (List Char)) : Nat :=
  ((ls.filter (!isBlank ·)).map indent).min?.getD 0

/-- Takes the common indentation off every line but the first. -/
def dedent : List (List Char) → List (List Char)
  | [] => []
  | l :: ls =>
      let width := commonIndent ls
      l :: ls.map (·.drop width)

/-- Drops the blank lines at both ends. -/
def trim (ls : List (List Char)) : List (List Char) :=
  ((ls.dropWhile isBlank).reverse.dropWhile isBlank).reverse

/-- The value of the text between the quotes. -/
def decode (cs : List Char) : List Char :=
  ['\n'].intercalate (trim (dedent (lines (unescape cs))))

/-- The value of a block string with its quotes. -/
def value (raw : List Char) : List Char :=
  decode ((raw.drop 3).take (raw.length - 6))

end GraphQL.Text.Block

namespace GraphQL

def blockStringValue (raw : String) : String :=
  String.ofList (Text.Block.value raw.toList)

end GraphQL
