import GraphQL.Text.Separator

/-!
Keys. Sources that differ only in formatting share a key: runs of separators
and comments become one space, and a brace outside strings has a space on both
sides. Strings keep everything but the length and kind of the separators in
them.

A key is made in two steps. The source is first read as a list of marks, each a
character to keep or a place where a space may stand; the marks are then
written out with one space for every run of such places between two characters.
-/

namespace GraphQL.Key

open Text

/-- Where in a source the reader stands. -/
inductive Mode
  | code
  | comment
  | string
  | block
  deriving DecidableEq, Repr

/-- A character to keep, or a gap. -/
inductive Mark
  | keep (c : Char)
  | gap
  deriving DecidableEq, Repr

open Mark in
/-- Reads a source as marks. Comments and strings end with their line; a block
string ends with three quotes. -/
def marks : Mode → List Char → List Mark
  | _, [] => []
  | .code, c :: cs =>
      if isSeparator c then gap :: marks .code cs
      else if c = '{' ∨ c = '}' then gap :: keep c :: gap :: marks .code cs
      else if c = '#' then gap :: marks .comment cs
      else if c = '"' then
        match cs with
        | '"' :: '"' :: cs => keep '"' :: keep '"' :: keep '"' :: marks .block cs
        | '"' :: cs => keep '"' :: keep '"' :: marks .code cs
        | cs => keep '"' :: marks .string cs
      else keep c :: marks .code cs
  | .comment, c :: cs =>
      if isLineEnd c then gap :: marks .code cs else marks .comment cs
  | .string, c :: cs =>
      if isLineEnd c then gap :: marks .code cs
      else if isSeparator c then gap :: marks .string cs
      else if c = '"' then keep c :: marks .code cs
      else if c = '\\' then
        match cs with
        | [] => [keep c]
        | e :: cs =>
            if isSeparator e then keep c :: marks .string (e :: cs)
            else keep c :: keep e :: marks .string cs
      else keep c :: marks .string cs
  | .block, c :: cs =>
      if isSeparator c then gap :: marks .block cs
      else if c = '\\' then
        match cs with
        | '"' :: cs => keep c :: keep '"' :: marks .block cs
        | cs => keep c :: marks .block cs
      else if c = '"' then
        match cs with
        | '"' :: '"' :: cs => keep '"' :: keep '"' :: keep '"' :: marks .code cs
        | '"' :: cs => keep '"' :: keep '"' :: marks .block cs
        | cs => keep c :: marks .block cs
      else keep c :: marks .block cs

theorem marks_nil (mode : Mode) : marks mode [] = [] := by
  rw [marks.eq_def]

/-- Writes marks after some text, with a space due if `pending`. -/
def writeAfter (pending : Bool) : List Mark → List Char
  | [] => []
  | .gap :: ms => writeAfter true ms
  | .keep c :: ms => if pending then ' ' :: c :: writeAfter false ms else c :: writeAfter false ms

/-- Writes marks, with no space at either end. -/
def write : List Mark → List Char
  | [] => []
  | .gap :: ms => write ms
  | .keep c :: ms => c :: writeAfter false ms

/-- The key of a text. -/
def ofText (text : List Char) : List Char :=
  write (marks .code text)

/-- The key of a source. -/
def ofSource (source : String) : String :=
  String.ofList (ofText source.toList)

end GraphQL.Key
