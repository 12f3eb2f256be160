import EcmaPhp.Output.Points

/-! What the header of a function says about the outer variables that its body reads. -/
namespace EcmaPhp

/-- How a function gets at the outer variables that it reads. -/
inductive FunctionForm where
  /-- As a closure, by a `use` clause. -/
  | closure
  /-- By `global` statements. -/
  | global
  deriving DecidableEq, Repr

namespace FunctionForm

/-- How one name is listed. -/
def listing (form : FunctionForm) (name : String) : String :=
  match form with
  | .closure => "&$" ++ name
  | .global => "global $" ++ name ++ ";"

/-- What stands before the brace: the `use` clause of a closure. -/
def clause (form : FunctionForm) (names : List String) : List Char :=
  match form, names with
  | .global, _ | _, [] => []
  | .closure, names => ("use (" ++ ", ".intercalate (names.map (listing .closure)) ++ ") ").toList

/-- What stands behind the brace: `global` statements, each after a gap. -/
def statements (form : FunctionForm) (gap : List Char) (names : List String) : List Char :=
  match form with
  | .closure => []
  | .global => names.flatMap fun name => gap ++ (listing .global name).toList

end FunctionForm

/-- The end of a function's signature, up to its opening brace. -/
structure Signature where
  text : String
  closes : ") ".toList <:+ text.toList

namespace Signature

/-- The end of a parameter list. -/
def parameters : Signature := ⟨") ", by decide⟩

/-- The function that reads any property. -/
def getter : Signature := ⟨"public function __get($_property) ", by decide⟩

/-- The function that writes any property. -/
def setter : Signature := ⟨"public function __set($_property, $value) ", by decide⟩

end Signature

/-- What a function looks like around its body; if `padded`, a body on one line has spaces inside
its braces. -/
structure FunctionShape where
  form : FunctionForm
  signature : Signature := .parameters
  padded : Bool := false

namespace Output

/-- The end of a line with the indentation of the next, or a space. -/
def gap (o : Output) (multiline : Bool) : List Char :=
  if multiline then '\n' :: o.indentation else [' ']

/-- Puts what a function reads from outside on both sides of its brace. -/
def insertCaptures (o : Output) (form : FunctionForm) (names : List String) (multiline : Bool) :
    Output :=
  (o.insertAt 1 (form.clause names)).insertAt 0 (form.statements (o.gap multiline) names)

/-- Opens the braces of a function, with an insertion point on each side of the brace. -/
def openBraces (o : Output) (shape : FunctionShape) : Output :=
  let o := ((o.emit shape.signature.text).pushPoint.openBlock "\x7b").pushPoint
  if shape.padded then o.emit " " else o

/-- Closes the braces of a function that were opened on `firstLine`. -/
def closeBraces (o : Output) (shape : FunctionShape) (names : List String) (firstLine : Int) :
    Output :=
  let o := (o.insertCaptures shape.form names (o.line != firstLine)).popPoint.popPoint
  o.closeInline firstLine (if shape.padded then " \x7d" else "\x7d") "\x7d"

end Output
end EcmaPhp
