import EcmaPhp.Emit.Call
import EcmaPhp.Emit.Declaration

/-! Operators and assignments. -/
namespace EcmaPhp

/-- The unsigned shift has no counterpart but the signed one. -/
def phpOperator : String → String
  | ">>>" => ">>"
  | ">>>=" => ">>="
  | operator => operator

/-- The operators that bind tighter than the joining of strings. -/
def bindsTighterThanJoin (operator : String) : Bool :=
  ["+", "-", "*", "/", "%", "**", "<<", ">>"].contains operator

/-- Whether a sign would run together with the operand that follows it. -/
def wouldFuse (operator : String) (argument : Node) : Bool :=
  (operator = "-" || operator = "+") &&
    match argument.kind with
    | .unaryExpression => argument.operator = operator
    | .updateExpression => operator.toList.isPrefixOf argument.text.toList
    | _ => false

namespace Emit

open EmitM

def binary (n : Node) (visit : Visit n) (context : Context) : EmitM Unit := do
  let left ← need n .left
  let right ← need n .right
  if n.operator = "in" then phpCall visit context.place "isset" [.element right left]
  else
    let scopes ← getScopes
    let joins :=
      n.operator = "+" && scopes.isStringTyped left.node && scopes.isStringTyped right.node
    let operator := if joins then "." else phpOperator n.operator
    let parens (p : Part n) : Parens :=
      if bindsTighterThanJoin operator && p.node.kind = .binaryExpression &&
        scopes.isStringTyped p.node
      then .forced else .asSource
    visit left { parens := parens left }
    emit s!" {operator} "
    indented (visit right { parens := parens right, bare := n.operator = "instanceof" })

/-- Declares what an assignment writes, unless it is known already. -/
def registerTarget (target : Node) : EmitM Unit := do
  if target.kind.isPattern then register target
  else
    match target.bindingKey? with
    | none => pure ()
    | some name =>
      if "this.".toList.isPrefixOf name.toList || ((← getScopes).resolve? target).isNone then
        register target

def assignment (n : Node) (visit : Visit n) : EmitM Unit := do
  let left ← need n .left
  let right ← need n .right
  registerTarget left.node
  visit left { place := .target }
  emit " = "
  visit right { place := .boundTo (variableName? left.node) }

def augmentedAssignment (n : Node) (visit : Visit n) : EmitM Unit := do
  if n.operator = "&&=" || n.operator = "||=" then unsupported n "logical assignment"
  let left ← need n .left
  let right ← need n .right
  let scopes ← getScopes
  let joins :=
    n.operator = "+=" && scopes.isStringTyped left.node && scopes.isStringTyped right.node
  let operator := if joins then ".=" else phpOperator n.operator
  visit left { place := .target }
  emit s!" {operator} "
  visit right {}

/-- A branch of a conditional. A conditional as a branch has to be in parentheses. -/
def branch {n : Node} (visit : Visit n) (b : Part n) : EmitM Unit := do
  let bare := b.node.kind = .ternaryExpression && !(← getTokens).isParenthesized b.node.location
  if bare then emit "("
  visit b {}
  if bare then emit ")"

def conditional (n : Node) (visit : Visit n) : EmitM Unit := do
  let test ← need n .condition
  emit "("
  visit test { parens := .omitted }
  emit ") ? "
  branch visit (← need n .consequence)
  emit " : "
  branch visit (← need n .alternative)

def unary (n : Node) (visit : Visit n) (context : Context) : EmitM Unit := do
  let argument ← need n .argument
  match n.operator with
  | "typeof" => phpCall visit context.place "gettype" [.source argument false]
  | "delete" => phpCall visit context.place "unset" [.source argument false]
  | "void" =>
    if argument.node.isPure then emit "null"
    else
      emit "("
      visit argument {}
      emit " ? null : null)"
  | operator =>
    emit operator
    if wouldFuse operator argument.node then emit " "
    visit argument {}

def update (n : Node) (visit : Visit n) : EmitM Unit := do
  let argument ← need n .argument
  if n.start < argument.node.start then
    emit n.operator
    visit argument { place := .target }
  else
    visit argument { place := .target }
    emit n.operator

/-- PHP evaluates the operand of `yield` or `await` in place. -/
def suspension (n : Node) (keyword : String) (body : EmitM Unit) : EmitM Unit := do
  note (.suspensionIgnored keyword n.location)
  emit s!"/* {keyword} */ "
  body

def yielded (n : Node) (visit : Visit n) : EmitM Unit :=
  suspension n "yield" <|
    match n.parts with
    | value :: _ => visit value {}
    | [] => emit "null"

def awaited (n : Node) (visit : Visit n) : EmitM Unit :=
  suspension n "await" do visit (← needFirst n) {}

end Emit
end EcmaPhp
