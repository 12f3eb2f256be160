import EcmaPhp.Emit.Statement
import EcmaPhp.Literal.ClassName

/-! Modules: the head of a program, and what it takes from and gives to others. -/
namespace EcmaPhp

/-- The path of the module that a call loads. -/
def Node.requiredPath? (call : Node) : Option String :=
  match call.kind, call.child? .function, call.child? .arguments with
  | .callExpression, some callee, some args =>
    match args.children with
    | [path] =>
      if callee.kind = .identifier && callee.text = "require" && path.kind = .string then
        some path.stringValue
      else none
    | _ => none
  | _, _, _ => none

/-- A declaration whose variables are all modules. -/
def Node.declaresModules (statement : Node) : Bool :=
  let declarators := statement.childrenOf .variableDeclarator
  statement.kind.isDeclaration && !declarators.isEmpty &&
    declarators.all fun d => ((d.child? .value).bind Node.requiredPath?).isSome

namespace Emit

open EmitM

/-- Lines of `use` statements, which have no lines in the source. -/
def useLines : List String → EmitM Unit
  | [] => pure ()
  | first :: rest => do
    emit first
    rest.forM fun line => do
      edit .breakLine
      emit line

/-- The `use` line for a property taken from a module. -/
def patternLine (property : Node) : EmitM String := do
  let options ← getOptions
  let line (key name : String) : String :=
    "use " ++ options.qualify (Literal.className key) ++
      (if key = name then ";" else " as " ++ Literal.className name ++ ";")
  match property.kind, property.child? .key, property.child? .value with
  | .shorthandPattern, _, _ => return line property.text property.text
  | .pairPattern, _, none => fail (.missingField property .value)
  | .pairPattern, key?, some value =>
    if value.kind != .identifier then unsupported property "module require binding"
    else
      match key? with
      | some key => return line key.text value.text
      | none => fail (.missingField property .key)
  | _, _, _ => unsupported property "module require binding"

/-- The `use` lines for a variable that holds a module. -/
def moduleLines (declarator : Node) : EmitM (List String) := do
  match declarator.child? .name with
  | none => fail (.missingField declarator .name)
  | some name =>
    if name.kind = .identifier then return ["use " ++ (← getOptions).qualify name.text ++ ";"]
    else if name.kind = .objectPattern then name.children.mapM patternLine
    else unsupported name "module require binding"

def moduleDeclaration (statement : Node) : EmitM Unit :=
  around statement .asSource do
    let lines ← (statement.childrenOf .variableDeclarator).mapM moduleLines
    useLines lines.flatten

/-- Passes over the directives and module declarations at the head of a program and gives what
remains. -/
def moduleHead {n : Node} : List (Part n) → EmitM (List (Part n))
  | [] => return []
  | p :: rest => do
    let statement := p.node
    if statement.isStrictDirective || (statement.expression?.bind Node.requiredPath?).isSome then
      edit (.comments (statement.leading ++ statement.trailing))
      moduleHead rest
    else if statement.declaresModules then
      moduleDeclaration statement
      moduleHead rest
    else return p :: rest

def program (n : Node) (visit : Visit n) : EmitM Unit := do
  inScope .program do
    match (← getOptions).namespace? with
    | some name =>
      emit s!"namespace {name};"
      edit .breakLine
    | none => pure ()
    let rest ← moduleHead (n.parts.filter (·.node.kind != .hashBangLine))
    statements visit rest

def specifierLine (module : String) (specifier : Node) : EmitM String := do
  match specifier.child? .name with
  | none => fail (.missingField specifier .name)
  | some name =>
    let asName := ((specifier.child? .alias).map (" as " ++ ·.text)).getD ""
    return "use " ++ module ++ "\\" ++ name.text ++ asName ++ ";"

/-- The `use` lines for a part of an import clause. -/
def importLines (module : String) (part : Node) : EmitM (List String) := do
  match part.kind with
  | .identifier => return [s!"use {module} as {part.text};"]
  | .namespaceImport =>
    match part.children with
    | name :: _ => return [s!"use {module} as {name.text};"]
    | [] => fail (.missingChild part)
  | .namedImports => (part.childrenOf .importSpecifier).mapM (specifierLine module)
  | _ => return []

def importStatement (n : Node) : EmitM Unit := do
  match n.childrenOf .importClause with
  | [] => pure ()
  | clause :: _ =>
    let source ← need n .source
    let module := (← getOptions).qualify (Literal.className source.node.stringValue)
    let lines ← clause.children.mapM (importLines module)
    useLines lines.flatten

def exportStatement (n : Node) (visit : Visit n) : EmitM Unit := do
  match n.part? .declaration, n.part? .value with
  | some declaration, _ => visit declaration {}
  | none, some value =>
    emit "return "
    visit value {}
    ensureTerminator
  | none, none => pure ()

end Emit
end EcmaPhp
