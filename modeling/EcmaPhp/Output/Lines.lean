import EcmaPhp.Output.Basic

/-! Line ends of the output, and the lines of the source that they answer to. -/
namespace EcmaPhp.Output

def newline (o : Output) : Output :=
  let o := o.trimBlanks.emitChars ('\n' :: o.indentation)
  { o with line := o.line + 1 }

/-- Whether a text stops at the start of a line, blanks apart. -/
def stopsAtLineStart (text : List Char) : Bool :=
  (text.reverse.dropWhile Text.isBlank).head? = some '\n'

def ensureNewline (o : Output) : Output :=
  if o.chunks.isEmpty || stopsAtLineStart o.tail then o else o.newline

/-- Starts a line that has no source. -/
def breakLine (o : Output) : Output :=
  let o := o.newline
  { o with offset := o.offset + 1 }

def newlines (o : Output) : Nat → Output
  | 0 => o
  | count + 1 => newlines o.newline count

/-- Goes on to the output line of a source line, if that lies ahead. -/
def syncTo (o : Output) (sourceLine : Int) : Output :=
  o.newlines (sourceLine + o.offset - o.line).toNat

/-- Puts a source line on the current output line. -/
def realign (o : Output) (sourceLine : Int) : Output := { o with offset := o.line - sourceLine }

/-- Leaves source lines out, as far as they still lie ahead. -/
def skipLines (o : Output) (first last : Int) : Output :=
  let first := max first (o.line - o.offset + 1)
  if first ≤ last then { o with offset := o.offset - (last - first + 1) } else o

/-- Ends a stretch without source that began at `start`: its lines shift all that follow. -/
def endUnsourced (o start : Output) : Output :=
  { o with offset := start.offset + (o.line - start.line) }

def openBlock (o : Output) (text : String) : Output := (o.emit text).increaseIndent

/-- Closes a block that was opened on `firstLine`. -/
def closeBlock (o : Output) (firstLine : Int) (text : String) : Output :=
  (if o.line = firstLine then o else o.ensureNewline).decreaseIndent.emit text

/-- Closes a block that was opened on `firstLine` with one text on that line, with another below. -/
def closeInline (o : Output) (firstLine : Int) (inline text : String) : Output :=
  if o.line = firstLine then o.decreaseIndent.emit inline else o.closeBlock firstLine text

end EcmaPhp.Output
