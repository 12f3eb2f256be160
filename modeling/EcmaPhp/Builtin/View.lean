import EcmaPhp.Builtin.Replacement

/-! Replacements as trees, for display. -/
namespace EcmaPhp

/-- A node of a replacement. Only nodes without source have children here. -/
structure View where
  kind : Kind
  location : Location := .unknown
  text : String := ""
  callee : Bool := false
  constant : Bool := false
  withoutParens : Bool := false
  children : List View := []

namespace View

variable {n : Node}

def ofPart (p : Part n) : View :=
  { kind := p.node.kind, location := p.node.location, text := p.node.text }

def ofOperand : Operand n → View
  | .source part alone => { ofPart part with withoutParens := alone }
  | .literal kind text => { kind, text }
  | .emptyArray => { kind := .array }
  | .method object name =>
    { kind := .array, children := [ofPart object, { kind := .string, text := "'" ++ name ++ "'" }] }
  | .element container index =>
    { kind := .subscriptExpression, children := [ofPart container, ofPart index] }

def ofReplacement : Replacement n → View
  | .call function operands =>
    { kind := .callExpression
      children := [
        { kind := .identifier, text := function, callee := true },
        { kind := .arguments, children := operands.map ofOperand }] }
  | .constant name => { kind := .identifier, text := name, constant := true }

end View
end EcmaPhp
