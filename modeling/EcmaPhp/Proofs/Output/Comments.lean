import EcmaPhp.Emit.Capture
import EcmaPhp.Output.Boundary
import EcmaPhp.Output.Terminator

/-! The comments that are done. Only comments are counted among them, each as it is written. -/
namespace EcmaPhp.Output

/-- The comments that are still to be written where others are done. -/
def fresh (written : List Nat) : List Comment → List Comment
  | [] => []
  | c :: rest =>
    if written.contains c.id then fresh written rest else c :: fresh (c.id :: written) rest

theorem fresh_sublist (written : List Nat) (cs : List Comment) : (fresh written cs).Sublist cs := by
  induction cs generalizing written with
  | nil => exact .slnil
  | cons c rest ih =>
    rw [fresh]
    split
    · exact (ih _).cons c
    · exact (ih _).cons_cons c

variable (o : Output)

@[simp] theorem written_emitChars (cs : List Char) : (o.emitChars cs).written = o.written := by
  cases cs <;> rfl

@[simp] theorem written_emit (s : String) : (o.emit s).written = o.written :=
  written_emitChars o s.toList

@[simp] theorem written_emitVerbatim (cs : List Char) :
    (o.emitVerbatim cs).written = o.written :=
  written_emitChars o cs

@[simp] theorem written_trimBlanks : o.trimBlanks.written = o.written := rfl

@[simp] theorem written_dropTail (size : Nat) : (o.dropTail size).written = o.written := rfl

@[simp] theorem written_increaseIndent : o.increaseIndent.written = o.written := by
  unfold increaseIndent
  dsimp only
  split
  · exact written_emitChars _ _
  · rfl

@[simp] theorem written_decreaseIndent : o.decreaseIndent.written = o.written := by
  unfold decreaseIndent
  dsimp only
  split <;> rfl

@[simp] theorem written_newline : o.newline.written = o.written :=
  written_emitChars o.trimBlanks _

@[simp] theorem written_ensureNewline : o.ensureNewline.written = o.written := by
  unfold ensureNewline
  split <;> simp

@[simp] theorem written_breakLine : o.breakLine.written = o.written := written_newline o

@[simp] theorem written_newlines (count : Nat) : (o.newlines count).written = o.written := by
  induction count generalizing o with
  | zero => rfl
  | succ count ih => rw [newlines, ih, written_newline]

@[simp] theorem written_syncTo (line : Int) : (o.syncTo line).written = o.written :=
  written_newlines o _

@[simp] theorem written_skipLines (first last : Int) :
    (o.skipLines first last).written = o.written := by
  unfold skipLines
  dsimp only
  split <;> rfl

@[simp] theorem written_ensureTerminator : o.ensureTerminator.written = o.written := by
  unfold ensureTerminator
  split <;> simp

@[simp] theorem written_terminatorToSeparator :
    o.terminatorToSeparator.written = o.written := by
  unfold terminatorToSeparator
  split <;> simp

@[simp] theorem written_openBlock (s : String) : (o.openBlock s).written = o.written := by
  simp [openBlock]

@[simp] theorem written_closeBlock (line : Int) (s : String) :
    (o.closeBlock line s).written = o.written := by
  unfold closeBlock
  split <;> simp

@[simp] theorem written_closeInline (line : Int) (inline closing : String) :
    (o.closeInline line inline closing).written = o.written := by
  unfold closeInline
  split <;> simp

@[simp] theorem written_insertAt (depth : Nat) (cs : List Char) :
    (o.insertAt depth cs).written = o.written := by
  unfold insertAt
  split <;> rfl

@[simp] theorem written_openBraces (shape : FunctionShape) :
    (o.openBraces shape).written = o.written := by
  unfold openBraces pushPoint
  dsimp only
  split <;> simp

@[simp] theorem written_closeBraces (shape : FunctionShape) (names : List String) (line : Int) :
    (o.closeBraces shape names line).written = o.written := by
  simp [closeBraces, insertCaptures, popPoint]

@[simp] theorem written_emitLines (lines : List (List Char)) :
    (o.emitLines lines).written = o.written := by
  induction lines generalizing o with
  | nil => rfl
  | cons line rest ih =>
    cases rest with
    | nil => exact written_emitChars o line
    | cons next rest => exact (ih (o.emitChars line).newline).trans (by simp)

theorem written_emitComment (c : Comment) :
    (o.emitComment c).written =
      if o.written.contains c.id then o.written else c.id :: o.written := by
  unfold emitComment isWritten
  split
  · rfl
  · have hsynced : (if c.location.isUnknown then o else o.syncTo c.location.first.line).written =
        o.written := by
      split <;> simp
    have hspaced (o : Output) : (if o.needsSpace then o.emit " " else o).written = o.written := by
      split <;> simp
    have hended (o : Output) :
        ((if c.isBlock then o else o.newline).markWritten c).written = c.id :: o.written := by
      split <;> simp [markWritten]
    exact (hended _).trans (by rw [written_emitLines, hspaced, hsynced])

/-- Comments are counted as they are written. -/
theorem written_emitComments (cs : List Comment) :
    (o.emitComments cs).written = ((fresh o.written cs).map (·.id)).reverse ++ o.written := by
  induction cs generalizing o with
  | nil => rfl
  | cons c rest ih =>
    change ((o.emitComment c).emitComments rest).written = _
    rw [ih, written_emitComment, fresh]
    split <;> simp

theorem written_markWritten (cs : List Comment) :
    (cs.foldl markWritten o).written = (cs.map (·.id)).reverse ++ o.written := by
  induction cs generalizing o with
  | nil => rfl
  | cons c rest ih => simp [ih, markWritten]

theorem written_beginNode (wrapped : Bool) (n : Node) :
    (o.beginNode wrapped n).written = (o.emitComments n.leading).written := by
  unfold beginNode
  dsimp only
  split
  · rfl
  · cases n.skipped with
    | none => split <;> simp
    | some lines => split <;> simp

end EcmaPhp.Output
