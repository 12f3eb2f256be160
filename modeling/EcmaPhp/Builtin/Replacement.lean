import EcmaPhp.Builtin.Classify
import EcmaPhp.Builtin.Table
import EcmaPhp.Event
import EcmaPhp.Tree.Place

/-! What stands for a built-in function or constant: a PHP call around parts of the node, or a PHP
constant. An argument moves ahead of its receiver only if evaluating it has no effect. -/
namespace EcmaPhp

/-- An argument of a PHP call that stands for the node `n`. -/
inductive Operand (n : Node) where
  /-- A part of the node; it was `alone` if it was the only argument of its call. -/
  | source (part : Part n) (alone : Bool)
  | literal (kind : Kind) (text : String)
  | emptyArray
  /-- A method of an object as a callable. -/
  | method (object : Part n) (name : String)
  /-- An element of a container. -/
  | element (container index : Part n)

inductive Replacement (n : Node) where
  | call (function : String) (operands : List (Operand n))
  | constant (name : String)

namespace Builtin

variable {n : Node}

/-- The arguments of a call as parts of it; a template is no list of arguments. -/
def argumentParts? (call : Node) : Option (List (Part call)) :=
  match call.part? .arguments with
  | none => some []
  | some arguments => if arguments.node.kind = .arguments then some arguments.parts else none

def operands (args : List (Part n)) : List (Operand n) :=
  args.map fun a => .source a (args.length = 1)

/-- The function of a call `f.call(...)` or `f.apply(...)` as an operand. -/
def callable (target : Part n) : Operand n :=
  match target.node.kind, target.part? .object, target.node.child? .property with
  | .memberExpression, some object, some property =>
    if target.node.isOptionalChain then .source target false else .method object property.publicName
  | _, _, _ => .source target false

/-- A call through `call` or `apply`. The receiver that it sets is lost, so evaluating it must have
no effect. -/
def indirect? (target : Part n) (method : String) (args : List (Part n)) :
    Option (Replacement n × Event) :=
  let rest := args.drop 1
  if !(args.take 1).all (·.node.isPure) then none
  else if method = "apply" then
    match rest with
    | [] => some (invoked invokeWithList [.emptyArray])
    | [list] => some (invoked invokeWithList [.source list false])
    | _ => none
  else some (invoked invoke (rest.map fun a => .source a false))
where
  invoked (function : String) (rest : List (Operand n)) : Replacement n × Event :=
    (.call function (callable target :: rest), .calledIndirectly n.location function)

/-- A method whose receiver goes last: the function and the arguments before and after it. -/
def receiverLast? (method : String) (args : List (Part n)) :
    Option (String × List (Operand n) × List (Operand n)) :=
  match receiverLast.lookup method with
  | none => none
  | some function =>
    if !args.all (·.node.isPure) then none
    else if method = "join" && args.isEmpty then some (function, [.literal .string "','"], [])
    else if method = "replace" then
      match args with
      | [pattern, _] =>
        some (if pattern.node.kind = .regex then "preg_replace" else function, operands args, [])
      | _ => none
    else if args.length != 1 then none
    else some (function, operands args,
      if method = "includes" then [.literal .trueValue "true"] else [])

/-- A call with its event in the log. -/
def made (what function : String) (args : List (Operand n)) : Replacement n × Event :=
  (.call function args, .replaced what n.location Kind.callExpression.name)

/-- A call of a method. -/
def method? (scopes : Scopes) (receiver : Part n) (method : String) (args : List (Part n)) :
    Option (Replacement n × Event) :=
  let static :=
    if scopes.isUnbound receiver.node then staticCalls.lookup (receiver.node.text, method) else none
  let onString :=
    if scopes.isStringTyped receiver.node then stringReceiverFirst.lookup method else none
  match static with
  | some function => some (made (receiver.node.text ++ "." ++ method) function (operands args))
  | none =>
    if method = "call" || method = "apply" then indirect? receiver method args
    else if method = "slice" && 1 < args.length then none
    else
      match onString.or (receiverFirst.lookup method) with
      | some function => some (made method function (.source receiver false :: operands args))
      | none =>
        (receiverLast? method args).map fun (function, before, after) =>
          made method function (before ++ .source receiver false :: after)

def call? (scopes : Scopes) (n : Node) : Option (Replacement n × Event) :=
  match n.part? .function, argumentParts? n with
  | some callee, some args =>
    match callee.node.kind with
    | .identifier =>
      if scopes.isUnbound callee.node then
        (globalCalls.lookup callee.node.text).map fun function =>
          made callee.node.text function (operands args)
      else none
    | .memberExpression =>
      match callee.part? .object, callee.node.child? .property with
      | some receiver, some property =>
        if callee.node.isOptionalChain then none else method? scopes receiver property.text args
      | _, _ => none
    | _ => none
  | _, _ => none

/-- A member that is neither called nor written. -/
def member? (scopes : Scopes) (n : Node) : Option (Replacement n × Event) :=
  match n.part? .object, n.child? .property with
  | some receiver, some property =>
    let static :=
      if scopes.isUnbound receiver.node then
        staticMembers.lookup (receiver.node.text, property.text)
      else none
    match static with
    | some name =>
      some (.constant name, .replaced (receiver.node.text ++ "." ++ property.text) n.location name)
    | none =>
      if property.text = "length" && !n.isOptionalChain then
        let function := if scopes.isStringTyped receiver.node then "strlen" else "count"
        some (made "length" function [.source receiver false])
      else none
  | _, _ => none

/-- The constant that stands for a global name. -/
def constant? (scopes : Scopes) (n : Node) : Option String :=
  if scopes.isUnbound n then globalConstants.lookup n.text else none

/-- What stands for a node at its place, with the event that a replacement puts into the log. -/
def replacement? (scopes : Scopes) (place : Place) (n : Node) :
    Option (Replacement n × Option Event) :=
  match n.kind with
  | .callExpression => (call? scopes n).map fun (r, e) => (r, some e)
  | .memberExpression =>
    if place = .callee || place = .target then none
    else (member? scopes n).map fun (r, e) => (r, some e)
  | .identifier => (constant? scopes n).map fun name => (.constant name, none)
  | _ => none

end Builtin
end EcmaPhp
