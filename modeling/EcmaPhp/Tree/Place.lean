import EcmaPhp.Tree.Node

/-! The places at which a node can stand, as far as its rule depends on them. -/
namespace EcmaPhp

inductive Place where
  /-- What a call calls or a `new` constructs. -/
  | callee
  /-- What an assignment or an update writes. -/
  | target
  /-- A value for a variable, with the variable's name if it is a plain one. -/
  | boundTo (name : Option String)
  /-- The expression of an expression statement. -/
  | statement
  /-- A declarator, with the place of its declaration in a `for` head told apart. -/
  | declarator (inForHead : Bool)
  | parameter
  | objectMember
  | objectPattern
  | arrayPattern
  | other
  deriving DecidableEq, Repr

namespace Place

/-- Whether a node with this field under this kind of parent is called, written, or neither. -/
def ofField (parent : Kind) (field : Option Field) : Place :=
  match parent, field with
  | .callExpression, some .function | .callExpression, some .constructor
  | .newExpression, some .function | .newExpression, some .constructor => .callee
  | .assignmentExpression, some .left | .augmentedAssignment, some .left => .target
  | .updateExpression, _ => .target
  | _, _ => .other

end Place

namespace Node

mutual
/-- All nodes, each before its children, with the places that the tree gives them. -/
def placed (place : Place) : Node → List (Place × Node)
  | ⟨kind, location, start, stop, text, field, tokens, attrs, leading, trailing, inner, skipped,
      children⟩ =>
    (place, ⟨kind, location, start, stop, text, field, tokens, attrs, leading, trailing, inner,
      skipped, children⟩) :: placedAll kind children
def placedAll (parent : Kind) : List Node → List (Place × Node)
  | [] => []
  | n :: rest => placed (.ofField parent n.field) n ++ placedAll parent rest
end

end Node
end EcmaPhp
