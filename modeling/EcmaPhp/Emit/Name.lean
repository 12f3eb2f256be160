import EcmaPhp.Builtin.Replacement
import EcmaPhp.Emit.Layout
import EcmaPhp.Text.Uppercase

/-! Names: variables, properties and references to classes. -/
namespace EcmaPhp

/-- A reference to a class: a capitalized name that is no variable, or a path of such names. -/
def Scopes.isClassRef (scopes : Scopes) (n : Node) : Bool :=
  match n.kind with
  | .identifier =>
    Text.isCapitalized n.text && (scopes.resolve? n).all fun d => !d.kind.bindsVariable
  | .memberExpression =>
    match n.part? .object, n.child? .property with
    | some object, some property =>
      !n.isOptionalChain && Text.isCapitalized property.text && scopes.isClassRef object.node
    | _, _ => false
  | _ => false
termination_by n.weight
decreasing_by exact object.smaller

namespace Emit

open EmitM

def identifier (n : Node) (context : Context) : EmitM Unit := do
  let name := n.text
  if context.bare || context.callee then emit name
  else if name = "undefined" then emit "null"
  else
    match Builtin.constant? (← getScopes) n with
    | some constant => emit constant
    | none =>
      match ← resolve n with
      | none => emit (if name = "arguments" then "func_get_args()" else "$" ++ name)
      | some definition =>
        if definition.kind.isFunctionDeclaration then emit s!"'{name}'"
        else if definition.kind = .classDeclaration then emit (name ++ "::class")
        else emit ("$" ++ name)

def propertyName (n : Node) : EmitM Unit := emit n.publicName

/-- A property that takes its name and its value from a variable. -/
def shorthandProperty (n : Node) : EmitM Unit := do
  let _ ← resolve n
  emit s!"\"{n.text}\" => ${n.text}"

def computedName (n : Node) (visit : Visit n) : EmitM Unit := do
  visit (← needFirst n) {}

/-- The key of a pair. A plain name becomes a string. -/
def key {n : Node} (visit : Visit n) (k : Part n) : EmitM Unit :=
  if k.node.kind = .propertyIdentifier || k.node.kind = .privatePropertyIdentifier then
    around k.node .asSource (emit s!"\"{k.node.publicName}\"")
  else visit k {}

end Emit
end EcmaPhp
