import GraphQL.Json
import GraphQL.Text.Printable

/-!
Outlines: trees of named records and choices, in which a document can be shown
in full. An outline is written either in its own indented form, with a trailing
comma after every item, or as JSON.
-/

namespace GraphQL

inductive Outline
  /-- A word that stands for itself. -/
  | word (text : String)
  | flag (value : Bool)
  | number (value : Nat)
  | text (value : String)
  | absent
  | present (value : Outline)
  | list (items : List Outline)
  /-- A choice between kinds, and what the chosen kind holds. -/
  | choice (name : String) (parts : List Outline)
  | record (name : String) (fields : List (String × Outline))

namespace Outline

/-! ### The indented form -/

def indentation (depth : Nat) : String :=
  String.ofList (List.replicate (4 * depth) ' ')

/-- Brackets around items that each end their line. -/
def enclose (depth : Nat) (opening items close : String) : String :=
  opening ++ "\n" ++ items ++ indentation depth ++ close

mutual

/-- The indented text of an outline that stands `depth` levels deep. -/
def pretty (depth : Nat) : Outline → String
  | word w => w
  | flag b => if b then "true" else "false"
  | number n => toString n
  | text s => Text.quoteVisibly s
  | absent => "None"
  | present o =>
      enclose depth "Some("
        (indentation (depth + 1) ++ pretty (depth + 1) o ++ ",\n") ")"
  | list [] => "[]"
  | list items => enclose depth "[" (prettyItems (depth + 1) items) "]"
  | choice name parts => enclose depth (name ++ "(") (prettyItems (depth + 1) parts) ")"
  | record name fields =>
      enclose depth (name ++ " \x7b") (prettyFields (depth + 1) fields) "\x7d"

def prettyItems (depth : Nat) : List Outline → String
  | [] => ""
  | o :: os => indentation depth ++ pretty depth o ++ ",\n" ++ prettyItems depth os

def prettyFields (depth : Nat) : List (String × Outline) → String
  | [] => ""
  | (k, o) :: fs =>
      indentation depth ++ k ++ ": " ++ pretty depth o ++ ",\n" ++ prettyFields depth fs

end

/-! ### JSON -/

mutual

/-- A record is an object. A choice is an object with one member, whose value is
an array unless the choice has a single part. -/
def toJson : Outline → Json
  | word w => .string w
  | flag b => .bool b
  | number n => .number n
  | text s => .string s
  | absent => .null
  | present o => o.toJson
  | list items => .array (toJsonItems items)
  | choice name [part] => .object [(name, part.toJson)]
  | choice name parts => .object [(name, .array (toJsonItems parts))]
  | record _ fields => .object (toJsonFields fields)

def toJsonItems : List Outline → List Json
  | [] => []
  | o :: os => o.toJson :: toJsonItems os

def toJsonFields : List (String × Outline) → List (String × Json)
  | [] => []
  | (k, o) :: fs => (k, o.toJson) :: toJsonFields fs

end

/-- The outline of something that may be absent. -/
def optional {α : Type} (outline : α → Outline) : Option α → Outline
  | none => absent
  | some a => present (outline a)

def listOf {α : Type} (outline : α → Outline) (items : List α) : Outline :=
  list (items.map outline)

end Outline
end GraphQL
