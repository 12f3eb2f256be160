import EcmaPhp.Emit.Script

/-! The steps of which the rules of emission are made. -/
namespace EcmaPhp

abbrev EmitM := Script false

/-- How the rule for `n` emits the parts of `n`. -/
abbrev Visit (n : Node) := Part n → Context → EmitM Unit

namespace EmitM

section

variable {α : Type} {h : Bool}

def act (a : Action) : Script h Unit := .act a (pure ())

def edit (e : Edit) : Script h Unit := act (.edit e)

def ask (q : Query α) : Script h α := .ask q pure

def within (f : Frame) (body : Script h α) : Script h α := .within f body pure

/-- Runs a step as the head of a loop. -/
def inHead (body : Script true α) : Script h α := .head body pure

/-- Makes the terminator at the end of the output a separator. -/
def separate : Script true Unit := .separate (pure ())

def getTokens : Script h TokenIndex := ask .tokens

def emitChars (text : List Char) : Script h Unit := edit (.text text)

def emit (text : String) : Script h Unit := emitChars text.toList

def ensureTerminator : Script h Unit := edit .terminator

/-- Emits a node with its comments, lines and parentheses around `body`. -/
def around (n : Node) (parens : Parens) (body : Script h Unit) : Script h Unit := do
  let tokens ← getTokens
  within (.node n (parens.wraps tokens n)) body

end

def fail {α : Type} (failure : Failure) : EmitM α := Script.fail failure

def getScopes : EmitM Scopes := ask .scopes

def getOptions : EmitM Options := ask .options

/-- Puts an event into the log. -/
def note (e : Event) : EmitM Unit := act (.note e)

def unsupported {α : Type} (n : Node) (reason : String) : EmitM α :=
  fail (.unsupported n (some reason))

/-- The part in a field that the rule for `n` needs. -/
def need (n : Node) (f : Field) : EmitM (Part n) :=
  match n.part? f with
  | some p => pure p
  | none => fail (.missingField n f)

/-- The part of a part in a field that the rule needs. -/
def needOf {n : Node} (p : Part n) (f : Field) : EmitM (Part n) :=
  match p.part? f with
  | some q => pure q
  | none => fail (.missingField p.node f)

/-- The first part, which the rule for `n` needs. -/
def needFirst (n : Node) : EmitM (Part n) :=
  match n.parts with
  | p :: _ => pure p
  | [] => fail (.missingChild n)

def register (n : Node) : EmitM Unit := act (.register n)

/-- Finds the definition that a node refers to. An outer variable is captured on the way. -/
def resolve (n : Node) : EmitM (Option Node) := do
  let scopes ← getScopes
  act (.refer n)
  return scopes.resolve? n

def inScope (kind : ScopeKind) (body : EmitM Unit) : EmitM Unit := within (.scope kind) body

/-- Runs the parameters and the body of a function and gives its scope. -/
def inFunction (shape : FunctionShape) (params body : EmitM Unit) : EmitM Scope :=
  .function shape params body pure

def inProgramScope : EmitM Bool := do
  return (← getScopes).head?.any (·.kind = .program)

end EmitM
end EcmaPhp
