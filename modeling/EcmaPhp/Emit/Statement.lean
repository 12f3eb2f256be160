import EcmaPhp.Emit.Layout

/-! Statements and control flow. -/
namespace EcmaPhp

/-- A directive that asks for the strict mode, which PHP does not have. -/
def Node.isStrictDirective (statement : Node) : Bool :=
  statement.expression?.any fun e =>
    e.kind = .string && (e.text = "\"use strict\"" || e.text = "'use strict'")

/-- The expression or declaration of a clause in a `for` head. -/
def Part.forClause? {n : Node} (clause : Part n) : Option (Part n) :=
  match clause.node.kind with
  | .emptyStatement => none
  | .expressionStatement => clause.parts.head?
  | _ => some clause

namespace Emit

open EmitM

def statementBlock (n : Node) (visit : Visit n) : EmitM Unit := statements visit n.parts

def expressionStatement (n : Node) (visit : Visit n) : EmitM Unit :=
  match n.parts with
  | [] => pure ()
  | expression :: _ =>
    if n.isStrictDirective then pure ()
    else do
      visit expression { place := .statement }
      ensureTerminator

def returnStatement (n : Node) (visit : Visit n) : EmitM Unit := do
  emit "return"
  match n.parts with
  | value :: _ =>
    emit " "
    visit value {}
  | [] => pure ()
  ensureTerminator

def ifStatement (n : Node) (visit : Visit n) : EmitM Unit := do
  emit "if "
  condition visit (← need n .condition)
  emit " "
  bracedBody visit (← need n .consequence)
  match n.part? .alternative with
  | some alternative =>
    emit " "
    visit alternative {}
  | none => pure ()

def elseClause (n : Node) (visit : Visit n) : EmitM Unit := do
  emit "else "
  let branch ← needFirst n
  if branch.node.kind = .ifStatement then visit branch {} else bracedBody visit branch

def whileStatement (n : Node) (visit : Visit n) : EmitM Unit := do
  emit "while "
  condition visit (← need n .condition)
  emit " "
  bracedBody visit (← need n .body)

def doStatement (n : Node) (visit : Visit n) : EmitM Unit := do
  emit "do "
  bracedBody visit (← need n .body)
  emit " while "
  condition visit (← need n .condition)
  ensureTerminator

/-- A declaration in a `for` head: a list of assignments. -/
def forDeclaration {n : Node} (visit : Visit n) (d : Part n) : Script true Unit :=
  around d.node .asSource do
    match d.partsOf .variableDeclarator with
    | [] => pure ()
    | first :: rest =>
      visit first { place := .declarator true }
      rest.forM fun p => do
        separate
        visit p { place := .declarator true }

/-- A clause of a `for` head with its terminator. -/
def forClause {n : Node} (visit : Visit n) (clause? : Option (Part n)) : EmitM Unit := do
  match clause?.bind Part.forClause? with
  | some clause =>
    visit clause {}
    ensureTerminator
  | none => emit ";"
  emit " "

def forHead (n : Node) (visit : Visit n) : Script true Unit := do
  match (n.part? .initializer).filter (·.node.kind.isDeclaration) with
  | some d =>
    forDeclaration visit d
    ensureTerminator
    emit " "
  | none => forClause visit (n.part? .initializer)
  forClause visit (n.part? .condition)
  commaSeparated visit {} (n.partsIn .increment)

def forStatement (n : Node) (visit : Visit n) : EmitM Unit := do
  emit "for "
  inHead (forHead n visit)
  emit " "
  bracedBody visit (← need n .body)

/-- Whether a loop runs over the values of its subject, not over the keys. -/
def loopsOverValues (n : Node) : Bool :=
  if n.operator = "" then n.hasToken "of" else n.operator = "of"

def forInStatement (n : Node) (visit : Visit n) : EmitM Unit := do
  let left ← need n .left
  let right ← need n .right
  register left.node
  emit "foreach "
  let head : EmitM Unit := do
    visit right {}
    emit " as "
    if loopsOverValues n then
      emit "$___ => "
      visit left {}
    else
      visit left {}
      emit " => $___"
  block "(" head ")"
  emit " "
  bracedBody visit (← need n .body)

def switchStatement (n : Node) (visit : Visit n) : EmitM Unit := do
  emit "switch "
  condition visit (← need n .value)
  emit " "
  visit (← need n .body) {}

def switchBody (n : Node) (visit : Visit n) : EmitM Unit :=
  block "\x7b" (statements visit n.parts) "\x7d"

def switchCase (n : Node) (visit : Visit n) : EmitM Unit := do
  match n.part? .value with
  | some value =>
    emit "case "
    visit value {}
    emit ":"
  | none => emit "default:"
  indented do
    match n.partsIn .body with
    | [] => pure ()
    | body =>
      emit " "
      statements visit body

def jump (n : Node) (keyword : String) : EmitM Unit := do
  emit keyword
  match n.child? .label with
  | some label =>
    note (.labelDropped label.text n.location keyword)
    emit s!" /* {label.text} */"
  | none => pure ()
  emit ";"

def labeledStatement (n : Node) (visit : Visit n) : EmitM Unit := do
  visit (← need n .body) {}

def tryStatement (n : Node) (visit : Visit n) : EmitM Unit := do
  emit "try "
  bracedBody visit (← need n .body)
  [n.part? .handler, n.part? .finalizer].forM fun clause =>
    match clause with
    | some clause => do
      emit " "
      visit clause {}
    | none => pure ()

def catchParameter {n : Node} (visit : Visit n) (param : Part n) : EmitM Unit := do
  if param.node.kind != .identifier then unsupported param.node "destructured catch binding"
  register param.node
  emit " "
  visit param { parens := .omitted }

def catchClause (n : Node) (visit : Visit n) : EmitM Unit := do
  inScope .catchClause do
    let exception := if (← getOptions).namespace?.isSome then "\\Exception" else "Exception"
    emit ("catch (" ++ exception)
    match n.part? .parameter with
    | some param => catchParameter visit param
    | none => pure ()
    emit ") "
    bracedBody visit (← need n .body)

def finallyClause (n : Node) (visit : Visit n) : EmitM Unit := do
  emit "finally "
  bracedBody visit (← need n .body)

def throwStatement (n : Node) (visit : Visit n) : EmitM Unit := do
  emit "throw "
  visit (← needFirst n) {}
  ensureTerminator

end Emit
end EcmaPhp
