import EcmaPhp.Emit.Name

/-! Variable declarations and patterns. -/
namespace EcmaPhp.Emit

open EmitM

/-- A declaration: a statement for each declarator. -/
def declaration (n : Node) (visit : Visit n) : EmitM Unit :=
  separated " " ((n.partsOf .variableDeclarator).map fun p =>
    visit p { place := .declarator false })

/-- The name that a target binds, if it is a plain variable. -/
def variableName? (target : Node) : Option String :=
  if target.kind = .identifier then some target.text else none

def declarator (n : Node) (visit : Visit n) (context : Context) : EmitM Unit := do
  register n
  let name ← need n .name
  visit name {}
  match n.part? .value with
  | some value =>
    emit " = "
    visit value { place := .boundTo (variableName? name.node) }
  | none => if context.place = .declarator true then pure () else emit " = null"
  ensureTerminator

def objectPattern (n : Node) (visit : Visit n) : EmitM Unit :=
  padded "[" (commaSeparated visit { place := .objectPattern } n.parts) "]"

/-- The elements of an array pattern without the holes at its end. -/
def patternElements (n : Node) : List (Part n) :=
  (n.parts.reverse.dropWhile (·.node.kind = .elision)).reverse

def arrayPattern (n : Node) (visit : Visit n) : EmitM Unit :=
  block "[" (commaSeparated visit { place := .arrayPattern } (patternElements n)) "]"

def pairPattern (n : Node) (visit : Visit n) : EmitM Unit := do
  let value ← need n .value
  key visit (← need n .key)
  emit " => "
  visit value {}

/-- A default value; only parameters can have one. -/
def defaultValue (n : Node) (visit : Visit n) (context : Context) : EmitM Unit := do
  if context.place = .parameter then
    visit (← need n .left) {}
    emit " = "
    visit (← need n .right) {}
  else unsupported n "destructuring default"

def spread (n : Node) (visit : Visit n) (context : Context) : EmitM Unit := do
  if n.kind = .restPattern && context.place = .objectPattern then unsupported n "object rest"
  else
    emit "..."
    visit (← needFirst n) {}

end EcmaPhp.Emit
