import EcmaPhp.Source.Concrete

/-! The tokens of a source by the points that they reach over blanks, which tells what stands
directly before and after a span. -/
namespace EcmaPhp

structure Token where
  kind : String
  value : String
  location : Location
  deriving DecidableEq, Repr

namespace Token

def isBlankByte (b : UInt8) : Bool := b = 32 || (9 ≤ b && b ≤ 13)

/-- The offset reached from `offset` over the blanks that follow it. -/
def skipForward (bytes : List UInt8) (offset : Nat) : Nat :=
  offset + ((bytes.drop offset).takeWhile isBlankByte).length

/-- The offset reached from `offset` over the blanks that precede it. -/
def skipBack (bytes : List UInt8) (offset : Nat) : Nat :=
  offset - ((bytes.take offset).reverse.takeWhile isBlankByte).length

end Token

/-- Tokens under the point where the next one may start, and under the point where the one before
may end; the latest token of a point comes first. -/
structure TokenIndex where
  byEnd : List (Point × Token)
  byStart : List (Point × Token)
  deriving Repr

namespace TokenIndex

/-- The index of tokens in the order of the source. -/
def ofLeaves (bytes : List UInt8) (leaves : List Concrete) : TokenIndex :=
  let latest := leaves.reverse
  let token (c : Concrete) : Token := ⟨c.kind, c.text bytes, c.location bytes⟩
  { byEnd := latest.map fun c => (Point.ofOffset bytes (Token.skipForward bytes c.stop), token c)
    byStart := latest.map fun c => (Point.ofOffset bytes (Token.skipBack bytes c.start), token c) }

def ofTree (bytes : List UInt8) (tree : Concrete) : TokenIndex := ofLeaves bytes tree.leaves

def before? (index : TokenIndex) (l : Location) : Option Token := index.byEnd.lookup l.first

def after? (index : TokenIndex) (l : Location) : Option Token := index.byStart.lookup l.last

/-- Whether the source wraps a span in parentheses of its own. -/
def isParenthesized (index : TokenIndex) (l : Location) : Bool :=
  !l.isUnknown && (index.before? l).any (·.kind = "(") && (index.after? l).any (·.kind = ")")

end TokenIndex
end EcmaPhp
