import EcmaPhp.Tree.Node

/-! Scopes: the names that a stretch of the program binds and the outer names that it reads. -/
namespace EcmaPhp

inductive ScopeKind where
  | program | function | classBody | catchClause
  deriving DecidableEq, Repr

def ScopeKind.name : ScopeKind → String
  | .program => "program"
  | .function => "function"
  | .classBody => "class"
  | .catchClause => "catch"

/-- Whether a method reads or writes a property. -/
inductive Accessor where
  | getter | setter
  deriving DecidableEq, Repr

/-- A scope with its definitions in order, and the names that it reads from outside in the order of
first use. -/
structure Scope where
  kind : ScopeKind
  definitions : List (String × Node) := []
  uses : List String := []
  getters : List Node := []
  setters : List Node := []

namespace Scope

def definition? (s : Scope) (name : String) : Option Node := s.definitions.lookup name

def defines (s : Scope) (name : String) : Bool := (s.definition? name).isSome

/-- The first definition of a name stays. -/
def define (s : Scope) (name : String) (n : Node) : Scope :=
  if s.defines name then s else { s with definitions := s.definitions ++ [(name, n)] }

def defineAll (s : Scope) (bindings : List (String × Node)) : Scope :=
  bindings.foldl (fun s b => s.define b.1 b.2) s

/-- Notes a name that is read from outside, once. -/
def use (s : Scope) (name : String) : Scope :=
  if s.uses.contains name then s else { s with uses := s.uses ++ [name] }

/-- The outer names that the scope reads and never binds itself. -/
def captures (s : Scope) : List String := s.uses.filter fun name => !s.defines name

def addAccessor (s : Scope) (n : Node) : Accessor → Scope
  | .getter => { s with getters := s.getters ++ [n] }
  | .setter => { s with setters := s.setters ++ [n] }

end Scope

/-- The scopes around a place, the innermost first. -/
abbrev Scopes := List Scope

end EcmaPhp
