import GraphQL.Document

/-!
Templates: literals with a value between any two of them. A document that is
spliced into a template stands for the source it was read from.
-/

namespace GraphQL

/-- A value between two literals. -/
inductive Splice
  | text (text : String)
  | document (document : Document)

/-- What a value contributes to the text. -/
def Splice.text? : Splice → Option String
  | text t => some t
  | document d => d.source?

inductive TemplateError
  /-- There must be one literal more than there are values. -/
  | arity (literals values : Nat)
  /-- The document at an index among the values has no source. -/
  | missingSource (index : Nat)
  deriving DecidableEq, Repr

namespace TemplateError

def message : TemplateError → String
  | arity literals values =>
      "template has " ++ toString literals ++ " literal segment(s) and " ++ toString values ++
        " value(s); expected exactly one more segment than values"
  | missingSource index =>
      "interpolated document at position " ++ toString index ++
        " has no retained source text"

/-- The name under which an error is reported. -/
def diagnosticCode : TemplateError → String
  | arity .. => "gqltag::template_arity"
  | missingSource _ => "gqltag::missing_source"

end TemplateError

/-- The texts of values and the literals after them, the first value at `index`. -/
def interleave (index : Nat) : List (Splice × String) → Except TemplateError String
  | [] => .ok ""
  | (v, literal) :: rest =>
      match v.text? with
      | none => .error (.missingSource index)
      | some t => (interleave (index + 1) rest).map (t ++ literal ++ ·)

/-- The text of a template. -/
def assemble (literals : List String) (values : List Splice) : Except TemplateError String :=
  match literals with
  | [] => .error (.arity 0 values.length)
  | first :: rest =>
      if rest.length = values.length then
        (interleave 0 (values.zip rest)).map (first ++ ·)
      else .error (.arity literals.length values.length)

end GraphQL
