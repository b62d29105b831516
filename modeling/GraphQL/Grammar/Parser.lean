import GraphQL.Document
import GraphQL.Grammar.Fault

/-!
Parsers over lexemes. A parser knows nothing of offsets: it counts the lexemes
it has read, and spans are intervals of that count. So what it answers depends
on the kinds and texts of the lexemes alone.

Recursion is in one place: `fix` ties the knot for a parser that calls itself, as
deep as there are lexemes left. That is enough for one that reads a lexeme
before it calls itself.
-/

namespace GraphQL.Grammar

/-- How many lexemes have been read, and those that are left. -/
structure Cursor where
  position : Nat
  rest : List Lexeme
  deriving DecidableEq, Repr

/-- The next lexeme, which is the end of the input when none is left. -/
def Cursor.current (c : Cursor) : Lexeme :=
  c.rest.headD .endOfInput

abbrev Parser := StateT Cursor (Except SyntaxError)

variable {α : Type}

/-! ### Single lexemes -/

def position : Parser Nat := fun c => .ok (c.position, c)

def current : Parser Lexeme := fun c => .ok (c.current, c)

/-- Stops with a fault that may mention the next lexeme. -/
def fail (fault : Lexeme → Fault) : Parser α := fun c =>
  .error ⟨c.position, fault c.current⟩

def unexpected : Parser α := fail .unexpected

/-- Reads the next lexeme, if there is one. -/
def advance : Parser Lexeme := fun c =>
  match c.rest with
  | [] => .ok (.endOfInput, c)
  | l :: rest => .ok (l, ⟨c.position + 1, rest⟩)

def sees (kind : TokenKind) : Parser Bool := do
  return (← current).kind == kind

def seesName : Parser Bool := do
  return (← current).kind.isName

/-- Reads the next lexeme if it has a kind, and tells whether it had. -/
def accept (kind : TokenKind) : Parser Bool := do
  if ← sees kind then
    let _ ← advance
    return true
  else return false

/-- Reads a lexeme that must have a kind. -/
def expect (kind : TokenKind) : Parser Lexeme := do
  if ← sees kind then advance else fail (.expected kind)

/-- Reads a lexeme that must have the form of a name. -/
def expectName : Parser Lexeme := do
  if ← seesName then advance else fail (.expected .name)

/-- Gives a node the span of the lexemes read for it. -/
def spanned (node : Parser (Option Span → α)) : Parser α := do
  let start ← position
  let build ← node
  let stop ← position
  return build (some ⟨start, stop⟩)

/-- Hands on the error of a parser as an answer, with the cursor where it was. -/
def attempt (p : Parser α) : Parser (Except SyntaxError α) := fun c =>
  match p c with
  | .ok (a, c) => .ok (.ok a, c)
  | .error e => .ok (.error e, c)

/-! ### Recursion -/

/-- A parser put into itself once for every lexeme of a list. -/
def unroll (body : Parser α → Parser α) : List Lexeme → Parser α
  | [] => unexpected
  | _ :: ls => body (unroll body ls)

/-- The parser that calls itself as `body` says. -/
def fix (body : Parser α → Parser α) : Parser α := fun c =>
  body (unroll body c.rest) c

/-! ### Lists -/

/-- Items up to and including a closing lexeme, given the parser for the items
after the first. -/
def upToBody (close : TokenKind) (item : Parser α) (again : Parser (List α)) :
    Parser (List α) := do
  if ← accept close then return []
  else
    let x ← item
    return x :: (← again)

/-- Items up to and including a closing lexeme. -/
def upTo (close : TokenKind) (item : Parser α) : Parser (List α) :=
  fix (upToBody close item)

/-- One or more items between two lexemes. -/
def many (opening close : TokenKind) (item : Parser α) : Parser (List α) := do
  let _ ← expect opening
  let x ← item
  return x :: (← upTo close item)

/-- One or more items between two lexemes, or nothing at all. -/
def optionalMany (opening close : TokenKind) (item : Parser α) : Parser (List α) := do
  if ← sees opening then many opening close item else return []

/-- Items as long as the next lexeme has a kind, given the parser for the items
after the first. -/
def whileSeesBody (kind : TokenKind) (item : Parser α) (again : Parser (List α)) :
    Parser (List α) := do
  if ← sees kind then
    let x ← item
    return x :: (← again)
  else return []

/-- Items as long as the next lexeme has a kind. -/
def whileSees (kind : TokenKind) (item : Parser α) : Parser (List α) :=
  fix (whileSeesBody kind item)

/-- One or more items with a lexeme between any two, and perhaps one in front. -/
def separatedBy (separator : TokenKind) (item : Parser α) : Parser (List α) := do
  let _ ← accept separator
  let x ← item
  return x :: (← whileSees separator do
    let _ ← expect separator
    item)

/-- An item if a test succeeds, or nothing at all. -/
def onlyIf (test : Parser Bool) (item : Parser α) : Parser (Option α) := do
  if ← test then return some (← item) else return none

/-- An item after a lexeme, or nothing at all. -/
def after (kind : TokenKind) (item : Parser α) : Parser (Option α) :=
  onlyIf (accept kind) item

end GraphQL.Grammar
