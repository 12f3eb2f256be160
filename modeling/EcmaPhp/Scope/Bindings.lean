import EcmaPhp.Scope.Basic

/-! The names that a node binds. -/
namespace EcmaPhp.Node

/-- The name under which a node is known: its text for a name, `this.x` for a member of `this`. -/
def bindingKey? (n : Node) : Option String :=
  match n.kind with
  | .identifier | .shorthandProperty | .shorthandPattern => some n.text
  | .memberExpression =>
    match n.child? .object, n.child? .property with
    | some object, some property =>
      if object.kind = .thisValue then some ("this." ++ property.publicName) else none
    | _, _ => none
  | _ => none

/-- The accessor that a method definition is, if any. -/
def accessor? (n : Node) : Option Accessor :=
  if n.kind != .methodDefinition then none
  else if n.hasToken "get" then some .getter
  else if n.hasToken "set" then some .setter
  else none

/-- The names that a node binds in the scope where it stands, each with its definition. -/
def bindings (n : Node) : List (String × Node) :=
  match n.bindingKey? with
  | some key => [(key, n)]
  | none =>
    match n.kind with
    | .variableDeclarator =>
      match n.part? .name with
      | some name =>
        if name.node.kind = .identifier then [(name.node.text, n)] else name.node.bindings
      | none => []
    | .objectPattern | .arrayPattern => n.parts.flatMap fun p => p.node.bindings
    | .pairPattern =>
      match n.part? .value with
      | some value => value.node.bindings
      | none => []
    | .assignmentPattern | .objectAssignmentPattern =>
      match n.part? .left with
      | some left => left.node.bindings
      | none => []
    | .restPattern =>
      match n.parts with
      | rest :: _ => rest.node.bindings
      | [] => []
    | .methodDefinition =>
      match n.child? .name with
      | some name => if n.accessor?.isSome then [] else [(name.publicName, n)]
      | none => []
    | .fieldDefinition =>
      match n.child? .property with
      | some property => [("this." ++ property.publicName, n)]
      | none => []
    | .classDeclaration | .functionDeclaration | .generatorDeclaration =>
      match n.child? .name with
      | some name => [(name.text, n)]
      | none => []
    | _ => []
termination_by n.weight
decreasing_by
  · exact name.smaller
  · exact p.smaller
  · exact value.smaller
  · exact left.smaller
  · exact rest.smaller

/-- Whether a node has all the parts that its names come from. -/
def hasNames (n : Node) : Bool :=
  n.bindingKey?.isSome ||
    match n.kind with
    | .variableDeclarator =>
      match n.part? .name with
      | some name => name.node.hasNames
      | none => false
    | .objectPattern | .arrayPattern => n.parts.all fun p => p.node.hasNames
    | .pairPattern =>
      match n.part? .value with
      | some value => value.node.hasNames
      | none => false
    | .assignmentPattern | .objectAssignmentPattern =>
      match n.part? .left with
      | some left => left.node.hasNames
      | none => false
    | .restPattern =>
      match n.parts with
      | rest :: _ => rest.node.hasNames
      | [] => true
    | .methodDefinition => n.accessor?.isSome || (n.child? .name).isSome
    | .fieldDefinition => (n.child? .property).isSome
    | .classDeclaration | .functionDeclaration | .generatorDeclaration => (n.child? .name).isSome
    | _ => true
termination_by n.weight
decreasing_by
  · exact name.smaller
  · exact p.smaller
  · exact value.smaller
  · exact left.smaller
  · exact rest.smaller

end EcmaPhp.Node
