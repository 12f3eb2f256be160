import EcmaPhp.Scope.Chain

/-! What an expression is known to be before it runs. -/
namespace EcmaPhp

/-- A name that no scope binds. -/
def Scopes.isUnbound (scopes : Scopes) (n : Node) : Bool :=
  n.kind = .identifier && (scopes.resolve? n).isNone

/-- Whether an expression is sure to be a string: a literal, a variable declared with one, or a sum
of such. -/
def Scopes.isStringTyped (scopes : Scopes) (n : Node) : Bool :=
  n.isStringLiteral ||
    match n.kind with
    | .identifier =>
      match scopes.resolve? n with
      | some definition =>
        definition.kind = .variableDeclarator && (definition.child? .value).any Node.isStringLiteral
      | none => false
    | .binaryExpression =>
      match n.part? .left, n.part? .right with
      | some left, some right =>
        n.operator = "+" && scopes.isStringTyped left.node && scopes.isStringTyped right.node
      | _, _ => false
    | _ => false
termination_by n.weight
decreasing_by
  · exact left.smaller
  · exact right.smaller

/-- Whether evaluating an expression has no effect. -/
def Node.isPure (n : Node) : Bool :=
  match n.kind with
  | .identifier | .number | .string | .trueValue | .falseValue | .nullValue | .undefinedValue
  | .thisValue | .regex => true
  | .function | .functionExpression | .generatorFunction | .arrowFunction => true
  | .templateString => (n.childrenOf .templateSubstitution).isEmpty
  | .memberExpression =>
    match n.part? .object with
    | some object => object.node.isPure
    | none => false
  | .unaryExpression =>
    match n.part? .argument with
    | some argument => ["-", "+", "!"].contains n.operator && argument.node.isPure
    | none => false
  | _ => false
termination_by n.weight
decreasing_by
  · exact object.smaller
  · exact argument.smaller

end EcmaPhp
