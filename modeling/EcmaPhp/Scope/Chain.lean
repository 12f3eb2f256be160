import EcmaPhp.Scope.Bindings

/-! The chain of scopes: entering and leaving, declaring names, finding and capturing them. -/
namespace EcmaPhp.Scopes

def enter (scopes : Scopes) (kind : ScopeKind) : Scopes := { kind } :: scopes

/-- Changes the innermost scope. -/
def modifyCurrent (scopes : Scopes) (f : Scope → Scope) : Scopes :=
  match scopes with
  | [] => []
  | s :: outer => f s :: outer

/-- The innermost scope of a kind. -/
def nearest? (scopes : Scopes) (kind : ScopeKind) : Option Scope := scopes.find? (·.kind = kind)

/-- Changes the innermost scope of a kind. -/
def modifyNearest (kind : ScopeKind) (f : Scope → Scope) : Scopes → Scopes
  | [] => []
  | s :: outer => if s.kind = kind then f s :: outer else s :: modifyNearest kind f outer

/-- An accessor belongs to the class around it, or else to the innermost scope. -/
def addAccessor (scopes : Scopes) (n : Node) (a : Accessor) : Scopes :=
  if (scopes.nearest? .classBody).isSome then
    modifyNearest .classBody (·.addAccessor n a) scopes
  else scopes.modifyCurrent (·.addAccessor n a)

/-- Declares in the innermost scope what a node binds. -/
def register (scopes : Scopes) (n : Node) : Scopes :=
  match n.accessor? with
  | some a => scopes.addAccessor n a
  | none => scopes.modifyCurrent (·.defineAll n.bindings)

/-- Whether what a node binds can be declared: it has all its names, and a scope to hold them. -/
def accepts (scopes : Scopes) (n : Node) : Bool :=
  n.hasNames && (!scopes.isEmpty || (n.bindings.isEmpty && n.accessor?.isNone))

/-- The definition of a name in the innermost scope that has one. -/
def lookup? (scopes : Scopes) (name : String) : Option Node := scopes.findSome? (·.definition? name)

/-- The definition that a node refers to. -/
def resolve? (scopes : Scopes) (n : Node) : Option Node := n.bindingKey?.bind scopes.lookup?

/-- The scopes from the innermost one up to the one that defines a name, that one left out. -/
def within (scopes : Scopes) (name : String) : Scopes := scopes.takeWhile fun s => !s.defines name

/-- Notes a use of a name in every scope within the one that defines it. -/
def capture (scopes : Scopes) (name : String) : Scopes :=
  (scopes.within name).map (·.use name) ++ scopes.dropWhile fun s => !s.defines name

/-- The scopes in which capturing a name is news. -/
def newUsers (scopes : Scopes) (name : String) : List ScopeKind :=
  ((scopes.within name).filter fun s => !s.uses.contains name).map (·.kind)

/-- The name that a reference captures: one that an outer scope binds as a variable. -/
def captured? (scopes : Scopes) (n : Node) : Option String :=
  match n.bindingKey?, scopes.resolve? n with
  | some name, some definition => if definition.kind.bindsVariable then some name else none
  | _, _ => none

/-- The scopes after a reference by a node. -/
def refer (scopes : Scopes) (n : Node) : Scopes :=
  match scopes.captured? n with
  | some name => scopes.capture name
  | none => scopes

end EcmaPhp.Scopes
