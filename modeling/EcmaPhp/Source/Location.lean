/-! Places in a source text. Lines count from one, columns are byte offsets into the line. -/
namespace EcmaPhp

structure Point where
  line : Int
  column : Int
  deriving DecidableEq, Repr

/-- A span of the source; all four numbers are zero where there is none. -/
structure Location where
  first : Point
  last : Point
  deriving DecidableEq, Repr

namespace Location

def unknown : Location := ⟨⟨0, 0⟩, ⟨0, 0⟩⟩

def isUnknown (l : Location) : Bool := l = unknown

def text (l : Location) : String :=
  if l.isUnknown then "<unknown>"
  else s!"{l.first.line}:{l.first.column}-{l.last.line}:{l.last.column}"

end Location

namespace Point

/-- The point after one more byte. -/
def advance (p : Point) (b : UInt8) : Point :=
  if b = 10 then ⟨p.line + 1, 0⟩ else ⟨p.line, p.column + 1⟩

/-- The point of a byte offset. -/
def ofOffset (bytes : List UInt8) (offset : Nat) : Point :=
  (bytes.take offset).foldl advance ⟨1, 0⟩

end Point

/-- The location of the bytes from `start` up to `stop`. -/
def Location.ofSpan (bytes : List UInt8) (start stop : Nat) : Location :=
  ⟨Point.ofOffset bytes start, Point.ofOffset bytes stop⟩

end EcmaPhp
