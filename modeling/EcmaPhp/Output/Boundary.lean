import EcmaPhp.Output.Comments
import EcmaPhp.Tree.Node

/-! What surrounds every node in the output: its comments, its lines and its parentheses. -/
namespace EcmaPhp.Output

/-- Begins a node, in parentheses if `wrapped`. -/
def beginNode (o : Output) (wrapped : Bool) (n : Node) : Output :=
  let o := o.emitComments n.leading
  if n.isSynthetic || n.kind = .program then o
  else
    let o := match n.skipped with
      | some (first, last) => o.skipLines first last
      | none => o
    let o := o.syncTo n.location.first.line
    if wrapped then o.emit "(" else o

/-- Ends a node that was begun with the same `wrapped`. -/
def endNode (o : Output) (wrapped : Bool) (n : Node) : Output :=
  let o := o.emitComments n.inner
  let o :=
    if n.isSynthetic then o
    else (if wrapped then o.emit ")" else o).syncTo n.location.last.line
  o.emitComments n.trailing

end EcmaPhp.Output
