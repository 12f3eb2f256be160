import EcmaPhp.Emit.Monad

/-! Blocks, lists and statement sequences. -/
namespace EcmaPhp.Emit

open EmitM

/-- Runs the steps with a separator between them. -/
def separated (separator : String) : List (EmitM Unit) → EmitM Unit
  | [] => pure ()
  | [last] => last
  | step :: rest => do
    step
    emit separator
    separated separator rest

def indented (body : EmitM Unit) : EmitM Unit := within .indent body

/-- An indented block. If it spans lines, the closing text begins a line. -/
def block (opening : String) (body : EmitM Unit) (closing : String) : EmitM Unit :=
  within (.block opening closing closing) body

/-- A block that has spaces inside its delimiters if it stays on one line. -/
def padded (opening : String) (body : EmitM Unit) (closing : String) : EmitM Unit :=
  within (.block opening (" " ++ closing) closing) do
    emit " "
    body

variable {n : Node}

/-- Emits parts in the same context, separated by commas. -/
def commaSeparated (visit : Visit n) (context : Context) (parts : List (Part n)) : EmitM Unit :=
  separated ", " (parts.map fun p => visit p context)

/-- The body of a statement, always in braces. -/
def bracedBody (visit : Visit n) (body : Part n) : EmitM Unit :=
  if body.node.kind = .statementBlock && !body.node.hasContent then
    block "\x7b" (visit body {}) "\x7d"
  else padded "\x7b" (visit body {}) "\x7d"

/-- The condition of a statement; its parentheses are those of the statement. -/
def condition (visit : Visit n) (test : Part n) : EmitM Unit :=
  block "(" (visit test { parens := .omitted }) ")"

/-- Declares the functions that a statement declares, as functions at the level of the program and
as variables elsewhere. -/
def hoist (statement : Node) : EmitM Unit := do
  let declaration? :=
    if statement.kind = .exportStatement then statement.child? .declaration else some statement
  match declaration? with
  | some declaration =>
    if declaration.kind.isFunctionDeclaration then
      if ← inProgramScope then register declaration
      else match declaration.child? .name with
        | some name => register name
        | none => fail (.missingField declaration .name)
  | none => pure ()

/-- Statements in order, after all their functions are declared. -/
def statements (visit : Visit n) (parts : List (Part n)) : EmitM Unit := do
  parts.forM fun p => hoist p.node
  parts.forM fun p => visit p {}

end EcmaPhp.Emit
