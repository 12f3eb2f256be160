import EcmaPhp.Output.Chunks

/-! The output under construction: text, the line it has reached, and places to come back to.

A line of the source belongs on the output line that differs from it by `offset`. The offset grows
with every output line that has no source, so the blank lines of the source come out again. -/
namespace EcmaPhp

/-- The output so far. `points` are offsets into the text where more may be put, the newest first;
`written` holds the comments that are done. -/
structure Output where
  chunks : Chunks := {}
  points : List Nat := []
  line : Int := 1
  offset : Int := 0
  indent : Int := 0
  written : List Nat := []
  deriving DecidableEq, Repr

namespace Output

def text (o : Output) : List Char := o.chunks.text

/-- How much of the end is looked at to tell how the text ends. -/
def tailSize : Nat := 256

def tail (o : Output) : List Char := o.chunks.lastChunks tailSize

def endsWith (o : Output) (text : List Char) : Bool :=
  text.isSuffixOf (o.chunks.lastChunks text.length)

/-- No point lies behind the end of the text. -/
def clampPoints (o : Output) : Output := { o with points := o.points.map (min · o.chunks.length) }

def emitChars (o : Output) (text : List Char) : Output :=
  match text with
  | [] => o
  | _ => { o with chunks := o.chunks.push text }

def emit (o : Output) (text : String) : Output := o.emitChars text.toList

/-- Emits text of the source, which may hold line ends. -/
def emitVerbatim (o : Output) (text : List Char) : Output :=
  let o := o.emitChars text
  { o with line := o.line + text.count '\n' }

def dropTail (o : Output) (size : Nat) : Output :=
  clampPoints { o with chunks := o.chunks.dropLast size }

def trimBlanks (o : Output) : Output := clampPoints { o with chunks := o.chunks.trimBlanks }

def indentation (o : Output) : List Char := List.replicate o.indent.toNat '\t'

def increaseIndent (o : Output) : Output :=
  let o := { o with indent := o.indent + 1 }
  if o.endsWith ['\t'] then o.emitChars ['\t'] else o

def decreaseIndent (o : Output) : Output :=
  let o := { o with indent := o.indent - 1 }
  if o.endsWith ['\t'] then o.dropTail 1 else o

end Output
end EcmaPhp
