/-! The fields under which a node holds its children. -/
namespace EcmaPhp

/-- A field that an emission or scope rule reads, or any other by its name. -/
inductive Field where
  | alias | alternative | argument | arguments | body | condition | consequence | constructor
  | declaration | finalizer | flags | function | handler | increment | index | initializer | key
  | kind | label | left | name | object | operator | parameter | parameters | pattern | property
  | right | source | value
  | other (text : String)
  deriving DecidableEq, Repr

namespace Field

/-- The name of a field in the grammar. -/
def text : Field → String
  | .alias => "alias"
  | .alternative => "alternative"
  | .argument => "argument"
  | .arguments => "arguments"
  | .body => "body"
  | .condition => "condition"
  | .consequence => "consequence"
  | .constructor => "constructor"
  | .declaration => "declaration"
  | .finalizer => "finalizer"
  | .flags => "flags"
  | .function => "function"
  | .handler => "handler"
  | .increment => "increment"
  | .index => "index"
  | .initializer => "initializer"
  | .key => "key"
  | .kind => "kind"
  | .label => "label"
  | .left => "left"
  | .name => "name"
  | .object => "object"
  | .operator => "operator"
  | .parameter => "parameter"
  | .parameters => "parameters"
  | .pattern => "pattern"
  | .property => "property"
  | .right => "right"
  | .source => "source"
  | .value => "value"
  | .other text => text

/-- All fields that have a constructor of their own. -/
def known : List Field := [
  .alias, .alternative, .argument, .arguments, .body, .condition, .consequence, .constructor,
  .declaration, .finalizer, .flags, .function, .handler, .increment, .index, .initializer, .key,
  .kind, .label, .left, .name, .object, .operator, .parameter, .parameters, .pattern, .property,
  .right, .source, .value]

def ofText (text : String) : Field := (known.find? (·.text = text)).getD (.other text)

@[simp] theorem text_ofText (s : String) : (ofText s).text = s := by
  unfold ofText
  cases h : known.find? (·.text = s) with
  | none => rfl
  | some k => simpa using List.find?_some h

end Field
end EcmaPhp
