import EcmaPhp.Emit.Literal

/-! Calls, constructions and member accesses. -/
namespace EcmaPhp.Emit

open EmitM

variable {n : Node}

def argumentList (arguments : EmitM Unit) : EmitM Unit := do
  emit "("
  indented arguments
  emit ")"

/-- The parentheses of a call are those of a lone argument. -/
def argumentParens (alone : Bool) : Parens := if alone then .omitted else .asSource

def arguments (n : Node) (visit : Visit n) : EmitM Unit :=
  argumentList (commaSeparated visit { parens := argumentParens (n.children.length = 1) } n.parts)

def subscript (visit : Visit n) (object index : Part n) : EmitM Unit := do
  visit object {}
  block "[" (visit index {}) "]"

/-- An operand of a PHP call; `alone` if the call has no other. -/
def operand (visit : Visit n) (alone : Bool) : Operand n → EmitM Unit
  | .source part wasAlone => visit part { parens := argumentParens (alone || wasAlone) }
  | .literal .string text => stringText n text
  | .literal _ text => emit text
  | .emptyArray => arrayBlock (pure ())
  | .method object name => arrayBlock do
    visit object {}
    emit ", "
    stringText n ("'" ++ name ++ "'")
  | .element container index => subscript visit container index

/-- A PHP call. Appending one value, as a statement, is an assignment. -/
def phpCall (visit : Visit n) (place : Place) (function : String) (operands : List (Operand n)) :
    EmitM Unit := do
  let emitted := operands.map (operand visit (operands.length = 1))
  match function = Builtin.append && place = .statement, emitted with
  | true, [list, value] =>
    list
    emit "[] = "
    value
  | _, _ =>
    emit function
    argumentList (separated ", " emitted)

def replacement (visit : Visit n) (place : Place) : Replacement n → EmitM Unit
  | .call function operands => phpCall visit place function operands
  | .constant name => emit name

/-- A function called where it is written: through the variable that it is bound to, or else
through PHP's general call. -/
def inlineCall (n : Node) (visit : Visit n) (place : Place) (callee : Part n) : EmitM Unit := do
  match place with
  | .boundTo (some name) =>
    visit callee { place := .callee, parens := .omitted }
    emit ";"
    edit .breakLine
    emit s!"${name} = ${name}"
    visit (← need n .arguments) {}
  | _ =>
    let args := ((n.part? .arguments).map Part.parts).getD []
    emit (Builtin.invoke ++ "(")
    visit callee { place := .callee, parens := .omitted }
    args.forM fun a => do
      emit ", "
      visit a { parens := argumentParens (args.length = 1) }
    emit ")"

/-- A call of what the source names, with no replacement for it. -/
def plainCall (n : Node) (visit : Visit n) (place : Place) (callee : Part n) : EmitM Unit := do
  let isFunction := ((← getScopes).resolve? callee.node).all fun d => !d.kind.bindsVariable
  let args := n.part? .arguments
  let appends :=
    callee.node.kind = .identifier && callee.node.text = Builtin.append && place = .statement
  match appends, (args.map Part.parts).getD [] with
  | true, [list, value] =>
    visit list {}
    emit "[] = "
    visit value {}
  | _, _ =>
    if callee.node.kind = .superValue then
      around callee.node .asSource (emit "parent::__construct")
    else visit callee { place := .callee, callee := isFunction }
    match args with
    | some args => visit args {}
    | none => emit "()"

/-- Refuses a template in place of arguments. -/
def refuseTemplate (n : Node) : EmitM Unit :=
  if (n.child? .arguments).any (·.kind = .templateString) then unsupported n "tagged template"
  else pure ()

def call (n : Node) (visit : Visit n) (context : Context) : EmitM Unit := do
  refuseTemplate n
  let callee ← need n .function
  if callee.node.kind.isFunctionExpression then inlineCall n visit context.place callee
  else
    match Builtin.replacement? (← getScopes) context.place n with
    | some (r, event) =>
      event.forM note
      replacement visit context.place r
    | none => plainCall n visit context.place callee

/-- A construction is a call of the constructor, for which nothing else stands. -/
def construction (n : Node) (visit : Visit n) (context : Context) : EmitM Unit := do
  let callee ← need n .constructor
  emit "new "
  refuseTemplate { n with kind := .callExpression }
  plainCall n visit context.place callee

/-- What stands between an object and its property. -/
def accessor (n object : Node) (name : String) (context : Context) : EmitM String := do
  let objectIsClass := (← getScopes).isClassRef object
  let propertyIsClass := Text.isCapitalized name
  if n.isOptionalChain then return "?->"
  else if objectIsClass && propertyIsClass then return "\\"
  else if object.kind = .superValue || propertyIsClass then return "::"
  else if objectIsClass then return (if context.callee then "::" else "::$")
  else return "->"

def member (n : Node) (visit : Visit n) (context : Context) : EmitM Unit := do
  match Builtin.replacement? (← getScopes) context.place n with
  | some (r, event) =>
    event.forM note
    replacement visit context.place r
  | none =>
    let object ← need n .object
    let property ← need n .property
    let between ← accessor n object.node property.node.publicName context
    let isClass := (← getScopes).isClassRef object.node
    visit object { bare := object.node.kind = .identifier && isClass }
    emit between
    visit property { bare := true }

def subscriptExpression (n : Node) (visit : Visit n) : EmitM Unit := do
  let object ← need n .object
  subscript visit object (← need n .index)

end EcmaPhp.Emit
