import EcmaPhp.Output.Lines

/-! Insertion points: places of the output where text is put once it is known. -/
namespace EcmaPhp.Output

def pushPoint (o : Output) : Output := { o with points := o.chunks.length :: o.points }

def popPoint (o : Output) : Output := { o with points := o.points.drop 1 }

/-- The point `depth` below the newest. Depths past the oldest point begin again at the newest. -/
def point? (o : Output) (depth : Nat) : Option Nat :=
  if depth < o.points.length then o.points[depth]? else o.points[depth - o.points.length]?

/-- Whether a point begins a line. -/
def beginsLine (o : Output) (point : Nat) : Bool :=
  point = 0 || stopsAtLineStart ((o.text.take point).drop (point - tailSize))

/-- Whether the point `depth` below the newest begins a line. -/
def pointAtLineStart (o : Output) (depth : Nat) : Bool := (o.point? depth).any o.beginsLine

/-- The points once text of a size is put at the point `depth` below the newest: newer points move
along. Where the depth began again at the newest point, all points move, and the newer ones
twice. -/
def movedPoints (o : Output) (depth size : Nat) : List Nat :=
  let again := depth - o.points.length
  if depth < o.points.length then (o.points.take depth).map (· + size) ++ o.points.drop depth
  else (o.points.take again).map (· + 2 * size) ++ (o.points.drop again).map (· + size)

/-- Puts text at the point `depth` below the newest. Line ends of the text are lines without
source. -/
def insertAt (o : Output) (depth : Nat) (text : List Char) : Output :=
  match text, o.point? depth with
  | [], _ | _, none => o
  | _, some point =>
    let added : Int := text.count '\n'
    { o with
      chunks := o.chunks.insertAt point text
      points := o.movedPoints depth text.length
      line := o.line + added
      offset := o.offset + added }

/-- Whether there is a point at a depth. -/
def hasPoint (o : Output) (depth : Int) : Bool := 0 ≤ depth && (o.point? depth.toNat).isSome

end EcmaPhp.Output
