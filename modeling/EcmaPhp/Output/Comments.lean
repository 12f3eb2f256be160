import EcmaPhp.Comment
import EcmaPhp.Output.Lines

/-! Comments in the output. -/
namespace EcmaPhp.Output

def markWritten (o : Output) (c : Comment) : Output := { o with written := c.id :: o.written }

def isWritten (o : Output) (c : Comment) : Bool := o.written.contains c.id

/-- Lets a comment be written again. -/
def unmark (o : Output) (c : Comment) : Output := { o with written := o.written.filter (· != c.id) }

/-- Whether a comment needs a space between it and the text before. -/
def needsSpace (o : Output) : Bool :=
  !o.chunks.isEmpty &&
    match (o.chunks.lastChunks 1).getLast? with
    | some c => !" \t\n([".toList.contains c
    | none => true

def emitLines (o : Output) : List (List Char) → Output
  | [] => o
  | [last] => o.emitChars last
  | text :: rest => emitLines (o.emitChars text).newline rest

/-- Writes a comment on the output line of its source line, unless it is written already. -/
def emitComment (o : Output) (c : Comment) : Output :=
  if o.isWritten c then o
  else
    let o := if c.location.isUnknown then o else o.syncTo c.location.first.line
    let o := if o.needsSpace then o.emit " " else o
    let o := emitLines o c.outputLines
    (if c.isBlock then o else o.newline).markWritten c

def emitComments (o : Output) (comments : List Comment) : Output := comments.foldl emitComment o

/-- The text of a comment with a line end after every line, at the indentation of the output. -/
def commentText (o : Output) (c : Comment) : List Char :=
  c.outputLines.flatMap fun line => line ++ '\n' :: o.indentation

end EcmaPhp.Output
