import EcmaPhp.Source.Location
import EcmaPhp.Text.Utf8

/-! The concrete tree that a parser of the source language gives: every token has its node. -/
namespace EcmaPhp

/-- A node over the bytes from `start` up to `stop`. An anonymous node is a token whose kind is its
text; a missing one stands for a token that the parser had to assume. -/
structure Concrete where
  kind : String
  named : Bool
  missing : Bool
  start : Nat
  stop : Nat
  field : Option String
  children : List Concrete
  deriving Repr, Inhabited

namespace Concrete

def location (bytes : List UInt8) (c : Concrete) : Location :=
  Location.ofSpan bytes c.start c.stop

/-- The bytes that a span covers. -/
def slice (bytes : List UInt8) (start stop : Nat) : List UInt8 :=
  (bytes.drop start).take (stop - start)

def text (bytes : List UInt8) (c : Concrete) : String :=
  String.ofList (Text.Utf8.decodeLossy (slice bytes c.start c.stop))

def isComment (c : Concrete) : Bool := c.kind = "comment" || c.kind = "html_comment"

/-- Whether the parser could make nothing of this node. -/
def isFault (c : Concrete) : Bool := c.kind = "ERROR" || c.missing

mutual
/-- The number of nodes. -/
def weight : Concrete → Nat
  | ⟨_, _, _, _, _, _, children⟩ => weightAll children + 1
def weightAll : List Concrete → Nat
  | [] => 0
  | c :: rest => weight c + weightAll rest
end

theorem weight_eq (c : Concrete) : c.weight = weightAll c.children + 1 := by
  cases c
  rw [weight]

theorem weightAll_append (cs ds : List Concrete) :
    weightAll (cs ++ ds) = weightAll cs + weightAll ds := by
  induction cs with
  | nil => simp [weightAll]
  | cons c rest ih => simp [weightAll, ih, Nat.add_assoc]

/-- A node weighs more than its children, so they can wait in its place. -/
theorem weightAll_children_append_lt (c : Concrete) (rest : List Concrete) :
    weightAll (c.children ++ rest) < weightAll (c :: rest) := by
  rw [weightAll_append, weightAll, weight_eq]
  omega

/-- The first node that the parser could make nothing of, among nodes that wait to be looked at. -/
def firstFaultAmong : List Concrete → Option Concrete
  | [] => none
  | c :: rest => if c.isFault then some c else firstFaultAmong (c.children ++ rest)
termination_by waiting => weightAll waiting
decreasing_by exact weightAll_children_append_lt c rest

/-- The first node that the parser could make nothing of. -/
def firstFault? (c : Concrete) : Option Concrete := firstFaultAmong [c]

/-- Whether a node without children stands for text of the program; a comment does not. -/
def isToken (c : Concrete) : Bool := !c.isComment && !c.missing && c.start != c.stop

/-- The tokens among nodes that wait to be looked at and below them. -/
def leavesAmong : List Concrete → List Concrete
  | [] => []
  | c :: rest =>
    match c.children.isEmpty, c.isToken with
    | true, true => c :: leavesAmong rest
    | true, false => leavesAmong rest
    | false, _ => leavesAmong (c.children ++ rest)
termination_by waiting => weightAll waiting
decreasing_by
  · rw [weightAll, weight_eq]; omega
  · rw [weightAll, weight_eq]; omega
  · exact weightAll_children_append_lt c rest

/-- The nodes without children that stand for text of the program. -/
def leaves (c : Concrete) : List Concrete := leavesAmong [c]

end Concrete
end EcmaPhp
