import EcmaPhp.Comment
import EcmaPhp.Tree.Field
import EcmaPhp.Tree.Kind

/-! The tree of a program: named nodes with their comments, tokens and fields. -/
namespace EcmaPhp

/-- A node of the tree. `field` is the field of the parent that holds it, `tokens` are its keywords
and operators, `attrs` those of them that stand in a field. `skipped` is a range of source lines
that the output leaves out before the node. A node without source has the unknown location. -/
structure Node where
  kind : Kind
  location : Location := .unknown
  start : Nat := 0
  stop : Nat := 0
  text : String := ""
  field : Option Field := none
  tokens : List String := []
  attrs : List (Field × String) := []
  leading : List Comment := []
  trailing : List Comment := []
  inner : List Comment := []
  skipped : Option (Int × Int) := none
  children : List Node := []
  deriving Repr

instance : Inhabited Node := ⟨{ kind := .program }⟩

namespace Node

/-- The first child in a field. -/
def child? (n : Node) (f : Field) : Option Node := n.children.find? (·.field = some f)

def childrenIn (n : Node) (f : Field) : List Node := n.children.filter (·.field = some f)

def childrenOf (n : Node) (k : Kind) : List Node := n.children.filter (·.kind = k)

def hasToken (n : Node) (token : String) : Bool := n.tokens.contains token

def operator (n : Node) : String := (n.attrs.lookup .operator).getD ""

def isSynthetic (n : Node) : Bool := n.location.isUnknown

/-- A member access or call that stops at a missing object. -/
def isOptionalChain (n : Node) : Bool := n.hasToken "?."

/-- Whether a node has children or comments between its delimiters. -/
def hasContent (n : Node) : Bool := !n.children.isEmpty || !n.inner.isEmpty

/-- The text of a name without the marks of a private one. -/
def publicName (n : Node) : String := String.ofList (n.text.toList.dropWhile (· = '#'))

/-- The text between the quotes of a string literal. -/
def stringValue (n : Node) : String := String.ofList (Text.inner n.text.toList)

def isStringLiteral (n : Node) : Bool := n.kind.isStringLiteral

/-- The expression of an expression statement. -/
def expression? (n : Node) : Option Node :=
  if n.kind = .expressionStatement then n.children.head? else none

mutual
/-- All nodes, each before its children. -/
def preorder : Node → List Node
  | ⟨kind, location, start, stop, text, field, tokens, attrs, leading, trailing, inner, skipped,
      children⟩ =>
    ⟨kind, location, start, stop, text, field, tokens, attrs, leading, trailing, inner, skipped,
      children⟩ :: preorderAll children
def preorderAll : List Node → List Node
  | [] => []
  | n :: rest => preorder n ++ preorderAll rest
end

mutual
/-- The number of nodes. -/
def weight : Node → Nat
  | ⟨_, _, _, _, _, _, _, _, _, _, _, _, children⟩ => weightAll children + 1
def weightAll : List Node → Nat
  | [] => 0
  | n :: rest => weight n + weightAll rest
end

theorem weight_eq (n : Node) : n.weight = weightAll n.children + 1 := by
  cases n
  rw [weight]

theorem weight_le_weightAll {n : Node} {ns : List Node} (h : n ∈ ns) : n.weight ≤ weightAll ns := by
  induction ns with
  | nil => cases h
  | cons m rest ih =>
    rw [weightAll]
    cases h with
    | head => omega
    | tail _ h => have := ih h; omega

theorem weight_lt_of_mem {n m : Node} (h : m ∈ n.children) : m.weight < n.weight := by
  have := weight_le_weightAll h
  rw [weight_eq n]
  omega

end Node

/-- A proper part of a node, on which a rule for the node may rely. -/
structure Part (n : Node) where
  node : Node
  smaller : node.weight < n.weight

namespace Node

/-- The children as parts. -/
def parts (n : Node) : List (Part n) :=
  n.children.attach.map fun c => ⟨c.val, weight_lt_of_mem c.property⟩

/-- The first child in a field as a part. -/
def part? (n : Node) (f : Field) : Option (Part n) := n.parts.find? (·.node.field = some f)

def partsIn (n : Node) (f : Field) : List (Part n) := n.parts.filter (·.node.field = some f)

def partsOf (n : Node) (k : Kind) : List (Part n) := n.parts.filter (·.node.kind = k)

@[simp] theorem map_node_parts (n : Node) : n.parts.map (·.node) = n.children := by
  simp [parts, Function.comp_def]

end Node

namespace Part

variable {n : Node}

/-- A part of a part is a part. -/
def trans (p : Part n) (q : Part p.node) : Part n := ⟨q.node, Nat.lt_trans q.smaller p.smaller⟩

def parts (p : Part n) : List (Part n) := p.node.parts.map p.trans

def part? (p : Part n) (f : Field) : Option (Part n) := (p.node.part? f).map p.trans

def partsOf (p : Part n) (k : Kind) : List (Part n) := p.parts.filter (·.node.kind = k)

/-- The expression of an expression statement as a part. -/
def expression? (p : Part n) : Option (Part n) :=
  if p.node.kind = .expressionStatement then p.parts.head? else none

end Part
end EcmaPhp
