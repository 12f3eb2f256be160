import EcmaPhp.Emit.Class
import EcmaPhp.Emit.Declaration
import EcmaPhp.Emit.Module
import EcmaPhp.Emit.Operator

/-! The rule for each kind of node, and emission of a whole tree. -/
namespace EcmaPhp

/-- How a node is emitted, given how to emit its parts. -/
abbrev Rule := (n : Node) → Visit n → Context → EmitM Unit

open EmitM Emit

def rule? : Kind → Option Rule
  | .program => some fun n visit _ => program n visit
  | .statementBlock => some fun n visit _ => statementBlock n visit
  | .expressionStatement => some fun n visit _ => expressionStatement n visit
  | .emptyStatement => some fun _ _ _ => pure ()
  | .lexicalDeclaration | .variableDeclaration => some fun n visit _ => declaration n visit
  | .variableDeclarator => some declarator
  | .objectPattern => some fun n visit _ => objectPattern n visit
  | .arrayPattern => some fun n visit _ => arrayPattern n visit
  | .pairPattern => some fun n visit _ => pairPattern n visit
  | .shorthandPattern | .shorthandProperty => some fun n _ _ => shorthandProperty n
  | .objectAssignmentPattern => some fun n _ _ => unsupported n "destructuring default"
  | .assignmentPattern => some defaultValue
  | .restPattern | .spreadElement => some spread
  | .identifier => some fun n _ context => identifier n context
  | .propertyIdentifier | .privatePropertyIdentifier => some fun n _ _ => propertyName n
  | .computedPropertyName => some fun n visit _ => computedName n visit
  | .thisValue => some fun _ _ _ => emit "$this"
  | .superValue => some fun _ _ _ => emit "parent"
  | .trueValue | .falseValue | .nullValue => some fun n _ _ => emit n.text
  | .undefinedValue => some fun _ _ _ => emit "null"
  | .number => some fun n _ _ => numberLiteral n
  | .string => some fun n _ _ => stringLiteral n
  | .regex => some fun n _ _ => regexLiteral n
  | .templateString => some fun n visit _ => template n visit
  | .binaryExpression => some binary
  | .assignmentExpression => some fun n visit _ => assignment n visit
  | .augmentedAssignment => some fun n visit _ => augmentedAssignment n visit
  | .ternaryExpression => some fun n visit _ => conditional n visit
  | .unaryExpression => some unary
  | .updateExpression => some fun n visit _ => update n visit
  | .sequenceExpression => some fun n visit _ => commaSeparated visit {} n.parts
  | .yieldExpression => some fun n visit _ => yielded n visit
  | .awaitExpression => some fun n visit _ => awaited n visit
  | .callExpression => some call
  | .newExpression => some construction
  | .arguments => some fun n visit _ => arguments n visit
  | .memberExpression => some member
  | .subscriptExpression => some fun n visit _ => subscriptExpression n visit
  | .functionDeclaration | .generatorDeclaration =>
    some fun n visit _ => functionDeclaration n visit
  | .function | .functionExpression | .generatorFunction | .arrowFunction =>
    some fun n visit _ => functionExpression n visit
  | .classDeclaration => some fun n visit _ => classDeclaration n visit
  | .classBody => some fun n visit _ => classBody n visit
  | .methodDefinition => some method
  | .fieldDefinition => some fun n visit _ => fieldDefinition n visit
  | .object => some fun n visit _ => objectLiteral n visit
  | .pair => some fun n visit _ => pair n visit
  | .array => some fun n visit _ => arrayLiteral n visit
  | .elision => some fun _ _ context => hole context
  | .returnStatement => some fun n visit _ => returnStatement n visit
  | .ifStatement => some fun n visit _ => ifStatement n visit
  | .elseClause => some fun n visit _ => elseClause n visit
  | .whileStatement => some fun n visit _ => whileStatement n visit
  | .doStatement => some fun n visit _ => doStatement n visit
  | .forStatement => some fun n visit _ => forStatement n visit
  | .forInStatement => some fun n visit _ => forInStatement n visit
  | .switchStatement => some fun n visit _ => switchStatement n visit
  | .switchBody => some fun n visit _ => switchBody n visit
  | .switchCase | .switchDefault => some fun n visit _ => switchCase n visit
  | .breakStatement => some fun n _ _ => jump n "break"
  | .continueStatement => some fun n _ _ => jump n "continue"
  | .labeledStatement => some fun n visit _ => labeledStatement n visit
  | .tryStatement => some fun n visit _ => tryStatement n visit
  | .catchClause => some fun n visit _ => catchClause n visit
  | .finallyClause => some fun n visit _ => finallyClause n visit
  | .throwStatement => some fun n visit _ => throwStatement n visit
  | .importStatement => some fun n _ _ => importStatement n
  | .exportStatement => some fun n visit _ => exportStatement n visit
  | .hashBangLine | .templateSubstitution | .formalParameters | .classHeritage | .importClause
  | .namespaceImport | .namedImports | .importSpecifier | .parenthesized | .other _ => none

/-- Emits a node by the rule for its kind. -/
def emitNode (n : Node) (context : Context) : EmitM Unit :=
  match rule? n.kind with
  | none => fail (.unsupported n none)
  | some rule => around n context.parens (rule n (fun p c => emitNode p.node c) context)
termination_by n.weight
decreasing_by exact p.smaller

/-- Emits a whole program after the opening tag and the watermark. -/
def emitProgram (root : Node) : EmitM Unit := do
  emit "<?php\n"
  match (← getOptions).watermark? with
  | some text => emit s!"/* {text} */\n"
  | none => pure ()
  emitNode root {}

end EcmaPhp
