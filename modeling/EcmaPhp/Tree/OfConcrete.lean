import EcmaPhp.Source.Concrete
import EcmaPhp.Tree.Node

/-! From the concrete tree to the tree of nodes: comments go to a neighbour, holes of arrays become
nodes, tokens become strings, and parentheses vanish. -/
namespace EcmaPhp

/-- What is known of a node's children while they are gathered; the newest child comes first. -/
structure Siblings where
  children : List Node := []
  pending : List Comment := []
  lastToken : Option String := none
  tokens : List String := []
  attrs : List (Field × String) := []

namespace Siblings

/-- A hole between two commas of an array. -/
def hole : Node := { kind := .elision }

/-- Hangs a comment on the newest child that is not a hole, if that child ends on its line. -/
def trail? (c : Comment) : List Node → Option (List Node)
  | [] => none
  | n :: rest =>
    if n.isSynthetic then (trail? c rest).map (n :: ·)
    else if c.location.first.line = n.location.last.line then
      some ({ n with trailing := n.trailing ++ [c] } :: rest)
    else none

/-- A comment trails the child before it on the same line, or waits for the next child. -/
def addComment (s : Siblings) (c : Comment) : Siblings :=
  match if s.pending.isEmpty then trail? c s.children else none with
  | some children => { s with children }
  | none => { s with pending := s.pending ++ [c] }

/-- A child leads with the comments that waited for it. -/
def addChild (s : Siblings) (n : Node) : Siblings :=
  { s with children := { n with leading := s.pending ++ n.leading } :: s.children
           pending := [], lastToken := none }

/-- The attribute is set anew where the field has one already. -/
def setAttr (attrs : List (Field × String)) (f : Field) (value : String) : List (Field × String) :=
  if attrs.any (·.1 = f) then attrs.map fun a => if a.1 = f then (f, value) else a
  else attrs ++ [(f, value)]

/-- A comma of an array after its bracket or another comma makes a hole. -/
def addToken (s : Siblings) (isArray : Bool) (field : Option Field) (token : String) : Siblings :=
  let isHole := isArray && token = "," && (s.lastToken = some "[" || s.lastToken = some ",")
  { s with
    children := if isHole then hole :: s.children else s.children
    tokens := s.tokens ++ [token]
    attrs := match field with
      | some f => setAttr s.attrs f token
      | none => s.attrs
    lastToken := some token }

end Siblings

namespace Node

/-- A parenthesized node stands for its first child, which takes over the comments inside. -/
def unwrap (n : Node) : Node :=
  match n.kind, n.children with
  | .parenthesized, first :: _ => { first with trailing := first.trailing ++ n.inner }
  | _, _ => n

mutual
def ofConcrete (bytes : List UInt8) : Concrete → Node
  | ⟨kind, named, missing, start, stop, field, children⟩ =>
    let s := gather bytes (Kind.ofName kind).isArray {} children
    unwrap
      { kind := .ofName kind
        location := .ofSpan bytes start stop
        start, stop
        text := Concrete.text bytes ⟨kind, named, missing, start, stop, field, []⟩
        tokens := s.tokens
        attrs := s.attrs
        inner := s.pending
        children := s.children.reverse }
/-- Goes through the children of one node from left to right. -/
def gather (bytes : List UInt8) (isArray : Bool) (s : Siblings) : List Concrete → Siblings
  | [] => s
  | c :: rest =>
    let field := c.field.map Field.ofText
    let s' :=
      if c.isComment then s.addComment (.ofText c.start (c.location bytes) (c.text bytes))
      else if c.kind = "optional_chain" then { s with tokens := s.tokens ++ ["?."] }
      else if c.named && !c.missing then s.addChild { ofConcrete bytes c with field }
      else s.addToken isArray field c.kind
    gather bytes isArray s' rest
end

end Node
end EcmaPhp
