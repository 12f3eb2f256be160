import EcmaPhp.Emit.Capture
import EcmaPhp.Emit.State
import EcmaPhp.Failure
import EcmaPhp.Output.Boundary
import EcmaPhp.Output.Terminator

/-! Scripts: emissions as data, made of questions, actions and frames, and how they run.

Whatever a script opens, it opens by a frame, which closes it again: a block with its indentation, a
scope, the fields of a class, an insertion point. -/
namespace EcmaPhp

/-- What a script may ask, by the type of the answer. -/
inductive Query : Type → Type where
  | options : Query Options
  | tokens : Query TokenIndex
  | scopes : Query Scopes
  /-- The fields known of the innermost class. -/
  | fields : Query (List String)
  | output : Query Output

def Query.answer {α : Type} (q : Query α) (env : EmitEnv) (s : EmitState) : α :=
  match q with
  | .options => env.options
  | .tokens => env.tokens
  | .scopes => s.scopes
  | .fields => s.declared.head?.getD []
  | .output => s.output

/-- What a script may do to the output. -/
inductive Edit where
  | text (cs : List Char)
  /-- Text of the source, which may hold line ends. -/
  | verbatim (cs : List Char)
  | newline
  | ensureNewline
  | breakLine
  | realign (sourceLine : Int)
  | terminator
  | comments (cs : List Comment)
  /-- Comments count as written from now on. -/
  | mark (cs : List Comment)
  /-- Text for the newest insertion point. -/
  | insert (cs : List Char)

def Edit.apply (e : Edit) (o : Output) : Output :=
  match e with
  | .text cs => o.emitChars cs
  | .verbatim cs => o.emitVerbatim cs
  | .newline => o.newline
  | .ensureNewline => o.ensureNewline
  | .breakLine => o.breakLine
  | .realign sourceLine => o.realign sourceLine
  | .terminator => o.ensureTerminator
  | .comments cs => o.emitComments cs
  | .mark cs => cs.foldl Output.markWritten o
  | .insert cs => o.insertAt 0 cs

/-- What a script may do. -/
inductive Action where
  | edit (e : Edit)
  | register (n : Node)
  | refer (n : Node)
  | learnField (key : String)
  | note (e : Event)

def Action.apply (a : Action) (s : EmitState) : EmitState :=
  match a with
  | .edit e => s.onOutput e.apply
  | .register n => { s with scopes := s.scopes.register n }
  | .refer n => s.refer n
  | .learnField key => s.learnField key
  | .note e => { s with log := s.log ++ [e] }

/-- What a script may stand in. -/
inductive Frame where
  /-- A node with its comments, its lines and, if `wrapped`, its parentheses. -/
  | node (n : Node) (wrapped : Bool)
  | indent
  /-- A block between delimiters; `inline` closes it on the line where it was opened. -/
  | block (opening inline closing : String)
  | point
  | scope (kind : ScopeKind)
  | fields (keys : List String)
  /-- Lines that have no source. -/
  | unsourced

namespace Frame

def enter (f : Frame) (s : EmitState) : EmitState :=
  match f with
  | .node n wrapped => s.onOutput (·.beginNode wrapped n)
  | .indent => s.onOutput Output.increaseIndent
  | .block opening _ _ => s.onOutput (·.openBlock opening)
  | .point => s.onOutput Output.pushPoint
  | .scope kind => s.enterScope kind
  | .fields keys => { s with declared := keys :: s.declared }
  | .unsourced => s

/-- Leaves a frame that was entered in the state `start`. -/
def exit (f : Frame) (start s : EmitState) : EmitState :=
  match f with
  | .node n wrapped => s.onOutput (·.endNode wrapped n)
  | .indent => s.onOutput Output.decreaseIndent
  | .block _ inline closing => s.onOutput (·.closeInline start.output.line inline closing)
  | .point => s.onOutput Output.popPoint
  | .scope _ => s.leaveScope
  | .fields _ => { s with declared := s.declared.drop 1 }
  | .unsourced => s.onOutput (·.endUnsourced start.output)

/-- The parentheses of a loop's head. -/
def head : Frame := .block "(" ")" ")"

end Frame

namespace FunctionShape

/-- From the end of a function's parameters to the start of its body. -/
def enter (shape : FunctionShape) (s : EmitState) : EmitState := s.onOutput (·.openBraces shape)

/-- Leaves the braces that were opened in the state `start`; the innermost scope is that of the
function. -/
def exit (shape : FunctionShape) (start s : EmitState) : EmitState :=
  s.onOutput (·.closeBraces shape s.captures start.output.line)

end FunctionShape

/-- A script that gives an `α`. If `inHead`, it is for the head of a loop, the one place where a
terminator may become a separator. -/
inductive Script : (inHead : Bool) → Type → Type 1 where
  | pure {h : Bool} {α : Type} (a : α) : Script h α
  | fail {h : Bool} {α : Type} (failure : Failure) : Script h α
  | ask {h : Bool} {α β : Type} (q : Query β) (next : β → Script h α) : Script h α
  | act {h : Bool} {α : Type} (a : Action) (next : Script h α) : Script h α
  | separate {α : Type} (next : Script true α) : Script true α
  | within {h : Bool} {α β : Type} (f : Frame) (body : Script h β) (next : β → Script h α) :
    Script h α
  | head {h : Bool} {α β : Type} (body : Script true β) (next : β → Script h α) : Script h α
  /-- A function in a scope of its own, which `next` gets. -/
  | function {h : Bool} {α : Type} (shape : FunctionShape) (params body : Script h Unit)
      (next : Scope → Script h α) : Script h α

namespace Script

def bind {h : Bool} {α β : Type} : Script h α → (α → Script h β) → Script h β
  | .pure a, f => f a
  | .fail failure, _ => .fail failure
  | .ask q next, f => .ask q fun b => (next b).bind f
  | .act a next, f => .act a (next.bind f)
  | .separate next, f => .separate (next.bind f)
  | .within frame body next, f => .within frame body fun b => (next b).bind f
  | .head body next, f => .head body fun b => (next b).bind f
  | .function shape params body next, f => .function shape params body fun b => (next b).bind f

instance {h : Bool} : Monad (Script h) where
  pure := .pure
  bind := bind

/-- The same script in the head of a loop. -/
def inHead {h : Bool} {α : Type} : Script h α → Script true α
  | .pure a => .pure a
  | .fail failure => .fail failure
  | .ask q next => .ask q fun b => (next b).inHead
  | .act a next => .act a next.inHead
  | .separate next => .separate next
  | .within frame body next => .within frame body.inHead fun b => (next b).inHead
  | .head body next => .head body fun b => (next b).inHead
  | .function shape params body next =>
    .function shape params.inHead body.inHead fun b => (next b).inHead

instance : MonadLift (Script false) (Script true) := ⟨inHead⟩

abbrev Result (α : Type) := EStateM.Result Failure EmitState α

def run {h : Bool} {α : Type} : Script h α → EmitEnv → EmitState → Result α
  | .pure a, _, s => .ok a s
  | .fail failure, _, s => .error failure s
  | .ask q next, env, s => (next (q.answer env s)).run env s
  | .act a next, env, s => next.run env (a.apply s)
  | .separate next, env, s => next.run env (s.onOutput Output.terminatorToSeparator)
  | .within f body next, env, s =>
    match body.run env (f.enter s) with
    | .ok b t => (next b).run env (f.exit s t)
    | .error failure t => .error failure t
  | .head body next, env, s =>
    match body.run env (Frame.head.enter s) with
    | .ok b t => (next b).run env (Frame.head.exit s t)
    | .error failure t => .error failure t
  | .function shape params body next, env, s =>
    match params.run env (s.enterScope .function) with
    | .error failure t => .error failure t
    | .ok _ u =>
      match body.run env (shape.enter u) with
      | .error failure t => .error failure t
      | .ok _ t => (next t.innermost).run env (shape.exit u t).leaveScope

end Script
end EcmaPhp
