import GraphQL.Span

/-!
Tokens. A lexeme is a kind and a text; a token is a lexeme placed in a source.
Keywords are names with a kind of their own, and no keyword is reserved: each
can stand wherever a name can.
-/

namespace GraphQL

inductive Keyword
  | query
  | mutation
  | subscription
  | fragment
  | on
  | schema
  | scalar
  | type
  | interface
  | union
  | enum
  | input
  | directive
  | extend
  | implements
  | repeatable
  | trueWord
  | falseWord
  | nullWord
  deriving DecidableEq, Repr

namespace Keyword

def word : Keyword → String
  | query => "query"
  | mutation => "mutation"
  | subscription => "subscription"
  | fragment => "fragment"
  | on => "on"
  | schema => "schema"
  | scalar => "scalar"
  | type => "type"
  | interface => "interface"
  | union => "union"
  | enum => "enum"
  | input => "input"
  | directive => "directive"
  | extend => "extend"
  | implements => "implements"
  | repeatable => "repeatable"
  | trueWord => "true"
  | falseWord => "false"
  | nullWord => "null"

def all : List Keyword :=
  [query, mutation, subscription, fragment, on, schema, scalar, type, interface, union,
    enum, input, directive, extend, implements, repeatable, trueWord, falseWord, nullWord]

def ofWord? (w : String) : Option Keyword :=
  all.find? (·.word == w)

theorem mem_all (k : Keyword) : k ∈ all := by
  cases k <;> decide

theorem ofWord?_word (k : Keyword) : ofWord? k.word = some k := by
  cases k <;> decide

theorem word_of_ofWord? {w : String} {k : Keyword} (h : ofWord? w = some k) : k.word = w :=
  by simpa using List.find?_some h

end Keyword

inductive Punctuator
  | braceOpen
  | braceClose
  | parenOpen
  | parenClose
  | bracketOpen
  | bracketClose
  | colon
  | spread
  | equals
  | pipe
  | ampersand
  | atSign
  | bang
  | dollar
  deriving DecidableEq, Repr

namespace Punctuator

def word : Punctuator → String
  | braceOpen => "\x7b"
  | braceClose => "\x7d"
  | parenOpen => "("
  | parenClose => ")"
  | bracketOpen => "["
  | bracketClose => "]"
  | colon => ":"
  | spread => "..."
  | equals => "="
  | pipe => "|"
  | ampersand => "&"
  | atSign => "@"
  | bang => "!"
  | dollar => "$"

/-- The punctuators of one character: all but the spread. -/
def ofChar? : Char → Option Punctuator
  | '{' => some braceOpen
  | '}' => some braceClose
  | '(' => some parenOpen
  | ')' => some parenClose
  | '[' => some bracketOpen
  | ']' => some bracketClose
  | ':' => some colon
  | '=' => some equals
  | '|' => some pipe
  | '&' => some ampersand
  | '@' => some atSign
  | '!' => some bang
  | '$' => some dollar
  | _ => none

end Punctuator

inductive TokenKind
  /-- The end of the source, an empty token. -/
  | endOfInput
  /-- A malformed number or a character that starts no token. -/
  | invalid
  /-- A string without its closing quotes. -/
  | unterminated
  | name
  | int
  | float
  | string
  | blockString
  | keyword (k : Keyword)
  | punctuator (p : Punctuator)
  deriving DecidableEq, Repr

namespace TokenKind

/-- What a kind is called in messages: the word itself where the kind fixes it. -/
def label : TokenKind → String
  | endOfInput => "<EOF>"
  | invalid => "<error>"
  | unterminated => "<unterminated string>"
  | name => "Name"
  | int => "Int"
  | float => "Float"
  | string => "String"
  | blockString => "BlockString"
  | keyword k => k.word
  | punctuator p => p.word

def isKeyword : TokenKind → Bool
  | keyword _ => true
  | _ => false

/-- Kinds that can stand where a name can. -/
def isName : TokenKind → Bool
  | name => true
  | keyword _ => true
  | _ => false

/-- The kind of a text with the form of a name. -/
def ofName (w : String) : TokenKind :=
  match Keyword.ofWord? w with
  | some k => keyword k
  | none => name

end TokenKind

structure Lexeme where
  kind : TokenKind
  text : String
  deriving DecidableEq, Repr

/-- The lexeme found when nothing is left. -/
def Lexeme.endOfInput : Lexeme := ⟨.endOfInput, ""⟩

/-- A lexeme and the bytes of the source that it covers. -/
structure Token extends Lexeme where
  span : Span
  deriving DecidableEq, Repr

end GraphQL
