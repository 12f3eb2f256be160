import EcmaPhp.Emit.FieldComments
import EcmaPhp.Emit.Function

/-! Classes. Accessors become one function that reads and one that writes any property, and fields
that a constructor sets are declared before it. -/
namespace EcmaPhp.Emit

open EmitM

/-- The fields known of the innermost class. -/
def knownFields : EmitM (List String) := ask .fields

def superclass (heritage : Node) : EmitM Unit :=
  match heritage.children with
  | base :: _ =>
    if base.kind = .identifier || base.kind = .memberExpression then
      let name := base.text.toList.map fun c => if c = '.' then '\\' else c
      emit ("extends " ++ String.ofList name ++ " ")
    else unsupported heritage "computed superclass"
  | [] => unsupported heritage "computed superclass"

/-- The key of a field that a class declares, as `this.x`. -/
def fieldKey (field : Node) : EmitM String :=
  match field.child? .property with
  | some property => return "this." ++ property.publicName
  | none => fail (.missingField field .property)

def classDeclaration (n : Node) (visit : Visit n) : EmitM Unit := do
  let name ← need n .name
  let body ← need n .body
  register n
  emit s!"class {name.node.text} "
  (n.childrenOf .classHeritage).forM superclass
  let keys ← (body.node.childrenOf .fieldDefinition).mapM fieldKey
  within (.fields keys) do
    inScope .classBody (block "\x7b" (visit body {}) "\x7d")

def isConstructor (member : Node) : Bool :=
  member.kind = .methodDefinition && (member.child? .name).any (·.text = "constructor") &&
    !member.hasToken "static"

/-- The parameter of a setter inside the common function. -/
def accessorParameter {n : Node} (accessor : Part n) : EmitM Unit :=
  match accessor.node.accessor?, ((accessor.part? .parameters).map Part.parts).getD [] with
  | some .setter, param :: _ => do
    if param.node.kind != .identifier then unsupported param.node "destructured setter parameter"
    register param.node
    if param.node.text != "value" then
      edit .newline
      emit s!"${param.node.text} = $value;"
  | _, _ => pure ()

/-- The body of one accessor inside the common function. -/
def accessorBody {n : Node} (visit : Visit n) (accessor : Part n) : EmitM Unit := do
  accessorParameter accessor
  let body ← needOf accessor .body
  match body.parts with
  | [] => pure ()
  | first :: _ =>
    edit .newline
    edit (.realign first.node.location.first.line)
    statements visit body.parts
    edit (.comments body.node.inner)

/-- One function for all accessors of a kind, which tells them apart by the name asked for. -/
def accessorFunction {n : Node} (visit : Visit n) (signature : Signature) :
    List (Part n) → EmitM Unit
  | [] => pure ()
  | accessors => do
    edit .ensureNewline
    let _ ← inFunction { form := .global, signature } (pure ()) <| accessors.forM fun a => do
      edit .newline
      let name ← needOf a .name
      emit s!"if ($_property === '{name.node.publicName}') "
      block "\x7b" (accessorBody visit a) "\x7d"

def accessors (n : Node) (a : Accessor) : List (Part n) :=
  n.parts.filter (·.node.accessor? = some a)

def classMember {n : Node} (visit : Visit n) (m : Part n) : EmitM Unit := do
  if isConstructor m.node then within .point (visit m {}) else visit m {}

def classBody (n : Node) (visit : Visit n) : EmitM Unit := do
  n.parts.forM (classMember visit)
  within .unsourced do
    accessorFunction visit .getter (accessors n .getter)
    accessorFunction visit .setter (accessors n .setter)

/-- The declaration of a field with its comments, at the indentation of the output. -/
def fieldText (o : Output) (comments : List Comment) (key : String) : List Char :=
  comments.flatMap o.commentText ++ "public $".toList ++ key.toList.drop 5 ++ [';']

/-- Declares the fields that a constructor sets at the newest insertion point. -/
def promoteFields (scope : Scope) (held : List (String × List Comment)) : EmitM Unit := do
  let known ← knownFields
  let keys := (scope.definitions.map (·.1)).filter fun key =>
    Node.isThisKey key && !known.contains key
  let o ← ask .output
  let atLineStart := o.pointAtLineStart 0
  let gap := '\n' :: o.indentation
  let text := keys.flatMap fun key =>
    let field := fieldText o ((held.lookup key).getD []) key
    if atLineStart then field ++ gap else gap ++ field
  keys.forM fun key => do
    edit (.mark ((held.lookup key).getD []))
    act (.learnField key)
    note (.promoted key)
  edit (.insert text)

def modifiers (n : Node) : EmitM Unit := do
  emit "public "
  if n.hasToken "static" then emit "static "

def constructorMethod (n : Node) (visit : Visit n) : EmitM Unit := do
  let body ← need n .body
  let (body, held) := body.withoutFieldComments (← knownFields)
  let scope ← function visit "function __construct" .global (parametersOf n) body
  promoteFields scope held

def method (n : Node) (visit : Visit n) (context : Context) : EmitM Unit := do
  let inObject := context.place = .objectMember
  let name ← need n .name
  if n.accessor?.isSome then
    if inObject then unsupported n "accessor in object literal" else register n
  else if name.node.kind = .computedPropertyName then unsupported n "computed method name"
  else if inObject then
    emit s!"\"{name.node.publicName}\" => "
    functionNode n visit "function " .closure
  else
    register n
    modifiers n
    if isConstructor n then constructorMethod n visit
    else functionNode n visit ("function " ++ name.node.publicName) .global

def fieldDefinition (n : Node) (visit : Visit n) : EmitM Unit := do
  let property ← need n .property
  if property.node.kind = .computedPropertyName then unsupported n "computed field name"
  register n
  modifiers n
  emit ("$" ++ property.node.publicName)
  match n.part? .value with
  | some value =>
    emit " = "
    visit value {}
  | none => pure ()
  emit ";"

end EcmaPhp.Emit
