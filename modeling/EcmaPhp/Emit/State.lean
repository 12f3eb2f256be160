import EcmaPhp.Event
import EcmaPhp.Options
import EcmaPhp.Output.Basic
import EcmaPhp.Scope.Chain
import EcmaPhp.Source.Tokens
import EcmaPhp.Tree.Place

/-! What an emission knows and what it changes. -/
namespace EcmaPhp

structure EmitEnv where
  options : Options
  tokens : TokenIndex

/-- The state of an emission. `declared` has the fields of each class around the current place, the
innermost first. -/
structure EmitState where
  output : Output := {}
  scopes : Scopes := []
  declared : List (List String) := []
  log : List Event := []

namespace EmitState

def onOutput (s : EmitState) (f : Output → Output) : EmitState := { s with output := f s.output }

def enterScope (s : EmitState) (kind : ScopeKind) : EmitState :=
  { s with scopes := s.scopes.enter kind }

def leaveScope (s : EmitState) : EmitState := { s with scopes := s.scopes.drop 1 }

def innermost (s : EmitState) : Scope := s.scopes.head?.getD { kind := .program }

/-- The outer names that the innermost scope has read so far. -/
def captures (s : EmitState) : List String := s.innermost.captures

/-- A reference by a node: an outer variable is captured, and the log says where that is news. -/
def refer (s : EmitState) (n : Node) : EmitState :=
  let events := match s.scopes.captured? n with
    | some name => (s.scopes.newUsers name).map (Event.captured · name)
    | none => []
  { s with scopes := s.scopes.refer n, log := s.log ++ events }

/-- A field that is known of the innermost class from now on. -/
def learnField (s : EmitState) (key : String) : EmitState :=
  match s.declared with
  | [] => s
  | known :: outer => { s with declared := (key :: known) :: outer }

end EmitState

/-- Whether a node stands in parentheses. -/
inductive Parens where
  /-- As in the source. -/
  | asSource
  | omitted
  | forced
  deriving DecidableEq, Repr

def Parens.wraps (parens : Parens) (tokens : TokenIndex) (n : Node) : Bool :=
  match parens with
  | .asSource => tokens.isParenthesized n.location
  | .omitted => false
  | .forced => true

/-- How a node is to be emitted. A `callee` names what is called, a `bare` name stands for itself
and is no variable. -/
structure Context where
  place : Place := .other
  parens : Parens := .asSource
  callee : Bool := false
  bare : Bool := false
  deriving DecidableEq, Repr

end EcmaPhp
