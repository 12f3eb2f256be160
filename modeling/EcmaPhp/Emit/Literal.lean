import EcmaPhp.Emit.Name
import EcmaPhp.Literal.DoubleQuoted
import EcmaPhp.Literal.Regex

/-! Literals: strings, templates, numbers, regular expressions, arrays and objects. -/
namespace EcmaPhp

/-- Whether a template may hold an expression as it stands, with the events of finding out. -/
def Scopes.interpolation (scopes : Scopes) (n : Node) : Bool × List Event :=
  match n.kind with
  | .thisValue => (true, [])
  | .identifier =>
    let isVariable := n.text != "undefined" && n.text != "arguments" &&
      (Builtin.constant? scopes n).isNone &&
      (scopes.resolve? n).all fun d =>
        !d.kind.isFunctionDeclaration && d.kind != .classDeclaration
    (isVariable, [])
  | .memberExpression =>
    match n.part? .object, n.child? .property with
    | some object, some property =>
      if n.isOptionalChain || Text.isCapitalized property.text then (false, [])
      else
        match Builtin.replacement? scopes .other n with
        | some (_, event) => (false, event.toList)
        | none =>
          let (holds, events) := scopes.interpolation object.node
          (holds && !scopes.isClassRef object.node, events)
    | _, _ => (false, [])
  | .subscriptExpression =>
    match n.part? .object, n.child? .index with
    | some object, some index =>
      if index.kind = .identifier || index.kind = .number || index.kind = .string then
        scopes.interpolation object.node
      else (false, [])
    | _, _ => (false, [])
  | _ => (false, [])
termination_by n.weight
decreasing_by
  · exact object.smaller
  · exact object.smaller

namespace Emit

open EmitM

/-- A string literal by its text with quotes. -/
def stringText (n : Node) (text : String) : EmitM Unit :=
  match text.toList with
  | [] => fail (.missingChild n)
  | quote :: rest => emitChars (Literal.string quote rest.dropLast)

def stringLiteral (n : Node) : EmitM Unit := stringText n n.text

def numberLiteral (n : Node) : EmitM Unit := emitChars (Literal.number n.text.toList)

def regexLiteral (n : Node) : EmitM Unit := do
  let pattern ← need n .pattern
  let flags := ((n.child? .flags).map (·.text.toList)).getD []
  emitChars (Literal.regex pattern.node.text.toList flags)

/-- The text of a template between two offsets into the source. -/
def templateText (n : Node) (start stop : Nat) : List Char :=
  let bytes := Text.Utf8.encode n.text.toList
  Text.Utf8.decodeLossy (Concrete.slice bytes (start - n.start) (stop - n.start))

def templateChunk (n : Node) (start stop : Nat) : EmitM Unit :=
  edit (.verbatim (Literal.doubleQuotedBody (templateText n start stop)))

/-- An expression inside a template: between braces, or else outside the quotes. -/
def substitution {n : Node} (visit : Visit n) (expression : Part n) : EmitM Unit := do
  let (holds, events) := (← getScopes).interpolation expression.node
  events.forM note
  let (before, after) := if holds then ("\x7b", "\x7d") else ("\" . (", ") . \"")
  emit before
  visit expression { parens := .omitted }
  emit after

def templateBody (n : Node) (visit : Visit n) (start : Nat) : List (Part n) → EmitM Unit
  | [] => templateChunk n start (n.stop - 1)
  | s :: rest => do
    templateChunk n start s.node.start
    match s.parts with
    | expression :: _ => substitution visit expression
    | [] => fail (.missingChild s.node)
    templateBody n visit s.node.stop rest

def template (n : Node) (visit : Visit n) : EmitM Unit := do
  emit "\""
  templateBody n visit (n.start + 1) (n.partsOf .templateSubstitution)
  emit "\""

/-- A list between the delimiters of arrays. -/
def arrayBlock (body : EmitM Unit) : EmitM Unit := do
  let options ← getOptions
  block options.arrayOpen body options.arrayClose

def arrayLiteral (n : Node) (visit : Visit n) : EmitM Unit :=
  arrayBlock (commaSeparated visit {} n.parts)

/-- A hole is null in an array and nothing in a pattern. -/
def hole (context : Context) : EmitM Unit :=
  if context.place = .arrayPattern then pure () else emit "null"

def objectLiteral (n : Node) (visit : Visit n) : EmitM Unit := do
  let options ← getOptions
  if n.hasContent then
    padded options.arrayOpen (commaSeparated visit { place := .objectMember } n.parts)
      options.arrayClose
  else emit (options.arrayOpen ++ options.arrayClose)

def pair (n : Node) (visit : Visit n) : EmitM Unit := do
  key visit (← need n .key)
  emit " => "
  visit (← need n .value) {}

end Emit
end EcmaPhp
