/-!
The value of a quoted string. Between the quotes every character stands for
itself, except that a backslash starts an escape.
-/

namespace GraphQL.Text.Quoted

/-- The escapes of one character after the backslash. -/
def escape? : Char → Option Char
  | '"' => some '"'
  | '\\' => some '\\'
  | '/' => some '/'
  | 'b' => some '\x08'
  | 'f' => some '\x0c'
  | 'n' => some '\n'
  | 'r' => some '\r'
  | 't' => some '\t'
  | _ => none

def hexDigit? (c : Char) : Option Nat :=
  if c.isDigit then some (c.toNat - '0'.toNat)
  else if 'a' ≤ c ∧ c ≤ 'f' then some (c.toNat - 'a'.toNat + 10)
  else if 'A' ≤ c ∧ c ≤ 'F' then some (c.toNat - 'A'.toNat + 10)
  else none

/-- The number that a run of hexadecimal digits spells after a leading value. -/
def hexFrom? (value : Nat) : List Char → Option Nat
  | [] => some value
  | c :: cs => do hexFrom? (value * 16 + (← hexDigit? c)) cs

/-- The number spelled by hexadecimal digits. A plus sign in front of at least
one digit is allowed. -/
def hex? : List Char → Option Nat
  | [] => none
  | ['+'] => none
  | '+' :: cs => hexFrom? 0 cs
  | cs => hexFrom? 0 cs

/-- The character with a code point. A surrogate stands for none. -/
def charOf? (code : Nat) : Option Char :=
  if h : code.isValidChar then some (Char.ofNatAux code h) else none

/-- The character that four characters after `\u` stand for. -/
def codePoint? (cs : List Char) : Option Char := do
  charOf? (← hex? cs)

/-- The value of the text between the quotes, or the first escape that stands
for nothing. -/
def decode : List Char → Except (List Char) (List Char)
  | [] => .ok []
  | '\\' :: 'u' :: a :: b :: c :: d :: cs =>
      match codePoint? [a, b, c, d] with
      | some x => (decode cs).map (x :: ·)
      | none => .error ['\\', 'u', a, b, c, d]
  | '\\' :: 'u' :: cs => .error ('\\' :: 'u' :: cs)
  | '\\' :: e :: cs =>
      match escape? e with
      | some x => (decode cs).map (x :: ·)
      | none => .error ['\\', e]
  | ['\\'] => .error ['\\']
  | c :: cs => (decode cs).map (c :: ·)

/-- The value of a string with its quotes. -/
def value (raw : List Char) : Except (List Char) (List Char) :=
  decode (raw.drop 1).dropLast

end GraphQL.Text.Quoted

namespace GraphQL

/-- The value of a quoted string, or the escape that has none. -/
def stringValue (raw : String) : Except String String :=
  match Text.Quoted.value raw.toList with
  | .ok cs => .ok (String.ofList cs)
  | .error e => .error (String.ofList e)

end GraphQL
