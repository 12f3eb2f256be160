import EcmaPhp.Emit.Layout

/-! Functions. What a body reads from outside is known once the body is emitted, so the header gets
its captures afterwards. -/
namespace EcmaPhp.Emit

open EmitM

def registerParameter (param : Node) : EmitM Unit := do
  let target? := if param.kind = .assignmentPattern then param.child? .left else some param
  if target?.any (·.kind.isPattern) then unsupported param "destructured parameter"
  else register param

def parameters {n : Node} (visit : Visit n) : Option (Part n) → EmitM Unit
  | none => pure ()
  | some params =>
    if params.node.kind = .identifier then do
      register params.node
      visit params {}
    else do
      let parts := params.parts
      parts.forM fun p => registerParameter p.node
      commaSeparated visit
        { place := if params.node.kind = .formalParameters then .parameter else .other
          parens := if parts.length = 1 then .omitted else .asSource } parts

/-- A function with its header up to the parameters; gives its scope. An expression for a body is
returned. -/
def function {n : Node} (visit : Visit n) (header : String) (form : FunctionForm)
    (params : Option (Part n)) (body : Part n) : EmitM Scope :=
  let isExpression := body.node.kind != .statementBlock
  inFunction { form, padded := isExpression || body.node.hasContent }
    (do
      emit (header ++ "(")
      indented (parameters visit params))
    (do
      visit body {}
      if isExpression then
        edit (.insert " return".toList)
        emit ";")

/-- The parameters of a function, or its single parameter without parentheses. -/
def parametersOf (n : Node) : Option (Part n) := (n.part? .parameters).or (n.part? .parameter)

/-- A function node with everything but its name. -/
def functionNode (n : Node) (visit : Visit n) (header : String) (form : FunctionForm) :
    EmitM Unit := do
  let body ← need n .body
  let _ ← function visit header form (parametersOf n) body

def functionDeclaration (n : Node) (visit : Visit n) : EmitM Unit := do
  let name := (← need n .name).node.text
  if ← inProgramScope then functionNode n visit ("function " ++ name) .global
  else
    emit s!"${name} = "
    functionNode n visit "function " .closure
    emit ";"

def functionExpression (n : Node) (visit : Visit n) : EmitM Unit :=
  functionNode n visit "function " .closure

end EcmaPhp.Emit
