import EcmaPhp.Proofs.Output.Insertion
import EcmaPhp.Proofs.Output.Writing

/-! Runs of operations on the output, in any order and of any length. -/
namespace EcmaPhp
open Output

/-- What can be done to the output. A block is closed with the line on which it was opened, and a
stretch without source with the output with which it began, so that what stands in between is a
run like any other. -/
inductive Operation where
  | emit (s : String)
  | emitVerbatim (cs : List Char)
  | newline
  | ensureNewline
  | breakLine
  | syncTo (sourceLine : Int)
  | realign (sourceLine : Int)
  | skipLines (first last : Int)
  | endUnsourced (start : Output)
  | increaseIndent
  | decreaseIndent
  | openBlock (opening : String)
  | closeBlock (firstLine : Int) (closing : String)
  | ensureTerminator
  | separate
  | pushPoint
  | popPoint
  | insertAt (depth : Nat) (cs : List Char)
  | comment (c : Comment)
  | mark (c : Comment)
  | unmark (c : Comment)
  | beginNode (wrapped : Bool) (n : Node)
  | endNode (wrapped : Bool) (n : Node)

namespace Operation

def apply (op : Operation) (o : Output) : Output :=
  match op with
  | .emit s => o.emit s
  | .emitVerbatim cs => o.emitVerbatim cs
  | .newline => o.newline
  | .ensureNewline => o.ensureNewline
  | .breakLine => o.breakLine
  | .syncTo sourceLine => o.syncTo sourceLine
  | .realign sourceLine => o.realign sourceLine
  | .skipLines first last => o.skipLines first last
  | .endUnsourced start => o.endUnsourced start
  | .increaseIndent => o.increaseIndent
  | .decreaseIndent => o.decreaseIndent
  | .openBlock opening => o.openBlock opening
  | .closeBlock firstLine closing => o.closeBlock firstLine closing
  | .ensureTerminator => o.ensureTerminator
  | .separate => o.terminatorToSeparator
  | .pushPoint => o.pushPoint
  | .popPoint => o.popPoint
  | .insertAt depth cs => o.insertAt depth cs
  | .comment c => o.emitComment c
  | .mark c => o.markWritten c
  | .unmark c => o.unmark c
  | .beginNode wrapped n => o.beginNode wrapped n
  | .endNode wrapped n => o.endNode wrapped n

/-- Whether an operation finds the points that it speaks of. -/
def Admits (o : Output) : Operation → Prop
  | .popPoint => 0 < o.points.length
  | .insertAt depth _ => depth < o.points.length
  | _ => True

instance (o : Output) (op : Operation) : Decidable (op.Admits o) := by
  unfold Admits
  split <;> infer_instance

/-- Whether an operation only works at the end of the output: it handles no insertion point and
makes no terminator a separator. -/
def atEnd : Operation → Bool
  | .separate | .pushPoint | .popPoint | .insertAt _ _ => false
  | _ => true

/-- What an operation appends, blanks apart. -/
def writing (o : Output) : Operation → Writing
  | .emit s => .ofText s.toList
  | .emitVerbatim cs => ⟨cs, cs.count '\n'⟩
  | .newline | .breakLine => .breaks 1
  | .ensureNewline => o.missingBreak
  | .syncTo sourceLine => o.linesTo sourceLine
  | .openBlock opening => .ofText opening.toList
  | .closeBlock firstLine closing => o.blockEnd firstLine closing
  | .ensureTerminator => o.missingTerminator
  | .comment c => o.commentWriting c
  | .beginNode wrapped n => o.nodeStart wrapped n
  | .endNode wrapped n => o.nodeEnd wrapped n
  | _ => {}

/-- An operation at the end of the output writes there what it appends. -/
theorem writes_apply {op : Operation} (o : Output) (h : op.atEnd = true) :
    ∃ indent, Writes (op.writing o) indent o (op.apply o) := by
  cases op with
  | emit s => exact ⟨_, writes_emit o s⟩
  | emitVerbatim cs => exact ⟨_, writes_emitVerbatim o cs⟩
  | newline => exact ⟨_, writes_newline o⟩
  | ensureNewline => exact ⟨_, writes_ensureNewline o⟩
  | breakLine => exact ⟨_, writes_breakLine o⟩
  | syncTo sourceLine => exact ⟨_, writes_syncTo o sourceLine⟩
  | realign sourceLine => exact ⟨_, writes_realign o sourceLine⟩
  | skipLines first last => exact ⟨_, writes_skipLines o first last⟩
  | endUnsourced start => exact ⟨_, writes_endUnsourced o start⟩
  | increaseIndent => exact ⟨_, writes_increaseIndent o⟩
  | decreaseIndent => exact ⟨_, writes_decreaseIndent o⟩
  | openBlock opening => exact ⟨_, writes_openBlock o opening⟩
  | closeBlock firstLine closing => exact ⟨_, writes_closeBlock o firstLine closing⟩
  | ensureTerminator => exact ⟨_, writes_ensureTerminator o⟩
  | comment c => exact ⟨_, writes_emitComment o c⟩
  | mark c => exact ⟨_, writes_markWritten o [c]⟩
  | unmark c => exact ⟨_, writes_unmark o c⟩
  | beginNode wrapped n => exact ⟨_, writes_beginNode o wrapped n⟩
  | endNode wrapped n => exact ⟨_, writes_endNode o wrapped n⟩
  | separate => cases h
  | pushPoint => cases h
  | popPoint => cases h
  | insertAt depth cs => cases h

end Operation

namespace Output

/-- The output after operations, one after another. -/
def run (o : Output) (ops : List Operation) : Output := ops.foldl (fun o op => op.apply o) o

/-- Whether each operation of a run finds the points that it speaks of. -/
def Admits (o : Output) : List Operation → Prop
  | [] => True
  | op :: rest => op.Admits o ∧ Admits (op.apply o) rest

instance decidableAdmits : (o : Output) → (ops : List Operation) → Decidable (o.Admits ops)
  | _, [] => isTrue trivial
  | o, op :: rest =>
    have := decidableAdmits (op.apply o) rest
    inferInstanceAs (Decidable (_ ∧ _))

@[simp] theorem run_nil (o : Output) : o.run [] = o := rfl

@[simp] theorem run_cons (o : Output) (op : Operation) (rest : List Operation) :
    o.run (op :: rest) = (op.apply o).run rest := rfl

@[simp] theorem run_append (o : Output) (ops more : List Operation) :
    o.run (ops ++ more) = (o.run ops).run more :=
  List.foldl_append

end Output
end EcmaPhp
