import EcmaPhp.Output.Boundary
import EcmaPhp.Output.Terminator
import EcmaPhp.Proofs.Output.Text
import Mathlib.Data.List.Forall2

/-! What each operation at the end of the output writes there, blanks apart, what it counts as lines
and how it changes the indentation. -/
namespace EcmaPhp
open Text

namespace Text

/-- A text without its spaces and tabs. -/
def solid (text : List Char) : List Char := text.filter fun c => !isBlank c

@[simp] theorem solid_nil : solid [] = [] := rfl

theorem mem_solid {c : Char} {text : List Char} :
    c ∈ solid text ↔ c ∈ text ∧ isBlank c = false := by
  simp [solid]

@[simp] theorem solid_append (front back : List Char) :
    solid (front ++ back) = solid front ++ solid back :=
  List.filter_append ..

theorem solid_eq_nil {text : List Char} (h : ∀ c ∈ text, isBlank c = true) : solid text = [] := by
  rw [solid, List.filter_eq_nil_iff]
  intro c hc
  simp [h c hc]

@[simp] theorem solid_newline_cons (text : List Char) :
    solid ('\n' :: text) = '\n' :: solid text :=
  List.filter_cons_of_pos (by decide)

end Text

/-- Text for the end of the output, and the number of lines that it counts for. -/
structure Writing where
  text : List Char := []
  lines : Nat := 0
  deriving DecidableEq, Repr

namespace Writing

instance : Append Writing := ⟨fun v w => ⟨v.text ++ w.text, v.lines + w.lines⟩⟩

theorem append_def (v w : Writing) : v ++ w = ⟨v.text ++ w.text, v.lines + w.lines⟩ := rfl

@[simp] theorem append_empty (w : Writing) : w ++ {} = w := by
  simp [append_def]

@[simp] theorem empty_append (w : Writing) : {} ++ w = w := by
  simp [append_def]

/-- Line ends. -/
def breaks (count : Nat) : Writing := ⟨List.replicate count '\n', count⟩

/-- Characters that count for no line. -/
def ofText (cs : List Char) : Writing := ⟨cs, 0⟩

/-- Lines with line ends between them. -/
def ofLines : List (List Char) → Writing
  | [] => {}
  | [last] => ofText last
  | line :: rest => ofText line ++ breaks 1 ++ ofLines rest

end Writing

namespace Output

/-- Points up to `bound` move back to `floor` if they lie behind it. -/
def Clamped (bound floor : Nat) : List Nat → List Nat → Prop :=
  List.Forall₂ fun p p' => p ≤ bound → p' = min p floor

namespace Clamped

variable {bound bound' floor floor' : Nat} {ps ps' ps'' : List Nat}

theorem refl (bound : Nat) (ps : List Nat) : Clamped bound bound ps ps := by
  apply List.forall₂_same.mpr
  intro p _ hp
  omega

theorem map (bound floor : Nat) (ps : List Nat) : Clamped bound floor ps (ps.map (min · floor)) :=
  List.forall₂_map_right_iff.mpr (List.forall₂_same.mpr fun _ _ _ => rfl)

theorem trans (h : Clamped bound floor ps ps') (h' : Clamped bound' floor' ps' ps'')
    (hle : floor ≤ bound') : Clamped bound (min floor floor') ps ps'' := by
  induction h generalizing ps'' with
  | nil =>
    cases h'
    exact .nil
  | cons hp _ ih =>
    cases h' with
    | cons hp' hrest =>
      refine .cons ?_ (ih hrest)
      intro hbound
      have hfirst := hp hbound
      have hsecond := hp' (by omega)
      omega

theorem length_eq (h : Clamped bound floor ps ps') : ps'.length = ps.length :=
  (List.Forall₂.length_eq h).symm

theorem eq_map (h : Clamped bound floor ps ps') (hps : ∀ p ∈ ps, p ≤ bound) :
    ps' = ps.map (min · floor) := by
  induction h with
  | nil => rfl
  | cons hp _ ih =>
    simp only [List.mem_cons, forall_eq_or_imp] at hps
    rw [List.map_cons, hp hps.1, ih hps.2]

end Clamped

/-- The end of a text goes, and other text comes in its place. Points in what goes move back to its
start. -/
structure Replaces (kept cut added : List Char) (o o' : Output) : Prop where
  before : o.text = kept ++ cut
  after : o'.text = kept ++ added
  points : Clamped o.text.length kept.length o.points o'.points

/-- From one output to another, `w` is written at the end. Blanks go and come as they like. -/
structure Writes (w : Writing) (indent : Int) (o o' : Output) : Prop where
  tail : ∃ kept cut added, Replaces kept cut added o o' ∧ solid cut = [] ∧
    solid added = solid w.text
  line : o'.line = o.line + w.lines
  indent : o'.indent = o.indent + indent

namespace Writes

variable {v w : Writing} {i j : Int} {o o' o'' : Output}

theorem of_append (cs : List Char) (htext : o'.text = o.text ++ cs) (hpoints : o'.points = o.points)
    (hline : o'.line = o.line + w.lines) (hindent : o'.indent = o.indent + i)
    (hcs : solid cs = solid w.text) : Writes w i o o' := by
  refine ⟨⟨o.text, [], cs, ⟨by simp, htext, ?_⟩, rfl, hcs⟩, hline, hindent⟩
  rw [hpoints]
  exact .refl _ _

theorem of_eq (htext : o'.text = o.text) (hpoints : o'.points = o.points)
    (hline : o'.line = o.line) (hindent : o'.indent = o.indent + i) : Writes {} i o o' :=
  of_append [] (by simp [htext]) hpoints (by simp [hline]) hindent rfl

theorem refl (o : Output) : Writes {} 0 o o := of_eq rfl rfl rfl (by simp)

theorem trans (h : Writes v i o o') (h' : Writes w j o' o'') : Writes (v ++ w) (i + j) o o'' := by
  obtain ⟨⟨kept, cut, added, hrep, hcut, hadded⟩, hline, hindent⟩ := h
  obtain ⟨⟨kept', cut', added', hrep', hcut', hadded'⟩, hline', hindent'⟩ := h'
  have hkept : kept.length ≤ o'.text.length := by simp [hrep.after]
  have hpoints := hrep.points.trans hrep'.points hkept
  have hsplit := hrep.after.symm.trans hrep'.before
  refine ⟨?_, ?_, by omega⟩
  · -- The second step keeps more than the first one, or drops all that the first one added.
    rcases List.append_eq_append_iff.mp hsplit with ⟨more, rfl, rfl⟩ | ⟨gone, rfl, rfl⟩
    · rw [Nat.min_eq_left (by simp)] at hpoints
      refine ⟨kept, cut, more ++ added', ⟨hrep.before, ?_, hpoints⟩, hcut, ?_⟩
      · simp [hrep'.after]
      · simp_all [Writing.append_def]
    · rw [Nat.min_eq_right (by simp)] at hpoints
      simp only [solid_append, List.append_eq_nil_iff] at hcut'
      refine ⟨kept', gone ++ cut, added', ⟨?_, hrep'.after, hpoints⟩, ?_, ?_⟩
      · simp [hrep.before]
      · simp [hcut, hcut'.1]
      · simp [Writing.append_def, hadded', ← hadded, hcut'.2]
  · rw [hline', hline, Writing.append_def]
    push_cast
    omega

/-- A step that only moves blanks, and one after it. -/
theorem after_blanks (h : Writes {} 0 o o') (h' : Writes w j o' o'') : Writes w j o o'' := by
  simpa using h.trans h'

theorem then_blanks (h : Writes w i o o') (h' : Writes {} 0 o' o'') : Writes w i o o'' := by
  simpa using h.trans h'

theorem ite {c : Prop} [Decidable c] (h : Writes v i o o') (h' : Writes w i o o'') :
    Writes (if c then v else w) i o (if c then o' else o'') := by
  split
  · exact h
  · exact h'

theorem text_eq (h : Writes w i o o') : solid o'.text = solid o.text ++ solid w.text := by
  obtain ⟨kept, cut, added, hrep, hcut, hadded⟩ := h.tail
  simp [hrep.before, hrep.after, hcut, hadded]

theorem length_points (h : Writes w i o o') : o'.points.length = o.points.length := by
  obtain ⟨kept, cut, added, hrep, -, -⟩ := h.tail
  exact hrep.points.length_eq

theorem line_le (h : Writes w i o o') : o.line ≤ o'.line := by
  have := h.line
  omega

end Writes

variable (o : Output)

/-! ### Characters and lines -/

theorem writes_emitChars (cs : List Char) : Writes (.ofText cs) 0 o (o.emitChars cs) := by
  apply Writes.of_append cs (text_emitChars o cs) (points_emitChars o cs)
  · cases cs <;> simp [emitChars, Writing.ofText]
  · cases cs <;> simp [emitChars]
  · rfl

theorem writes_emit (s : String) : Writes (.ofText s.toList) 0 o (o.emit s) :=
  writes_emitChars o s.toList

theorem writes_emitVerbatim (cs : List Char) :
    Writes ⟨cs, cs.count '\n'⟩ 0 o (o.emitVerbatim cs) := by
  have h := writes_emitChars o cs
  apply Writes.of_append cs
  · exact text_emitChars o cs
  · exact points_emitChars o cs
  · change (o.emitChars cs).line + _ = _
    rw [h.line]
    simp [Writing.ofText]
  · exact h.indent
  · rfl

theorem writes_trimBlanks : Writes {} 0 o o.trimBlanks := by
  obtain ⟨cut, htext, hblank⟩ := trimEnd_append_blanks (p := isBlank) o.text
  refine ⟨⟨_, cut, [], ⟨htext, by simp [text_trimBlanks], ?_⟩, solid_eq_nil hblank, rfl⟩, ?_, ?_⟩
  · rw [points_trimBlanks, text_trimBlanks]
    exact .map _ _ _
  · simp [trimBlanks, clampPoints]
  · simp [trimBlanks, clampPoints]

theorem writes_newline : Writes (.breaks 1) 0 o o.newline := by
  have hblank : solid o.indentation = [] := by
    apply solid_eq_nil
    intro c hc
    rw [List.eq_of_mem_replicate hc]
    rfl
  let trimmed := o.trimBlanks
  have hbreak : Writes (.breaks 1) 0 trimmed o.newline := by
    have hwritten := writes_emitChars trimmed ('\n' :: o.indentation)
    apply Writes.of_append ('\n' :: o.indentation)
    · exact text_emitChars ..
    · exact points_emitChars ..
    · change (trimmed.emitChars _).line + 1 = _
      rw [hwritten.line]
      simp [Writing.breaks, Writing.ofText]
    · exact hwritten.indent
    · simp [Writing.breaks, hblank]
  exact (writes_trimBlanks o).after_blanks hbreak

theorem writes_newlines (count : Nat) : Writes (.breaks count) 0 o (o.newlines count) := by
  induction count generalizing o with
  | zero => exact .refl o
  | succ count ih =>
    have h := (writes_newline o).trans (ih o.newline)
    have hbreaks : Writing.breaks 1 ++ .breaks count = .breaks (count + 1) := by
      simp [Writing.append_def, Writing.breaks, List.replicate_succ, Nat.add_comm]
    rwa [hbreaks] at h

/-- The line ends that lead to the output line of a source line. -/
def linesTo (sourceLine : Int) : Writing := .breaks (sourceLine + o.offset - o.line).toNat

theorem writes_syncTo (sourceLine : Int) :
    Writes (o.linesTo sourceLine) 0 o (o.syncTo sourceLine) :=
  writes_newlines o _

/-- The line end that is missing at the end. -/
def missingBreak : Writing := if o.chunks.isEmpty || stopsAtLineStart o.tail then {} else .breaks 1

theorem writes_ensureNewline : Writes o.missingBreak 0 o o.ensureNewline :=
  .ite (.refl o) (writes_newline o)

theorem writes_breakLine : Writes (.breaks 1) 0 o o.breakLine :=
  (writes_newline o).then_blanks (.of_eq rfl rfl rfl (by simp [breakLine]))

theorem writes_realign (sourceLine : Int) : Writes {} 0 o (o.realign sourceLine) :=
  .of_eq rfl rfl rfl (by simp [realign])

theorem writes_skipLines (first last : Int) : Writes {} 0 o (o.skipLines first last) := by
  unfold skipLines
  dsimp only
  split
  · exact .of_eq rfl rfl rfl (by simp)
  · exact .refl o

theorem writes_endUnsourced (start : Output) : Writes {} 0 o (o.endUnsourced start) :=
  .of_eq rfl rfl rfl (by simp [endUnsourced])

/-- The terminator that is missing at the end. -/
def missingTerminator : Writing := if isTerminated o.tail then {} else .ofText [';']

theorem writes_ensureTerminator : Writes o.missingTerminator 0 o o.ensureTerminator :=
  .ite (.refl o) (writes_emit o ";")

/-! ### Blocks -/

theorem writes_increaseIndent : Writes {} 1 o o.increaseIndent := by
  have hdeeper : Writes {} 1 o { o with indent := o.indent + 1 } := .of_eq rfl rfl rfl rfl
  have htab (o : Output) : Writes {} 0 o (o.emitChars ['\t']) := by
    have h := writes_emitChars o ['\t']
    exact .of_append _ (text_emitChars ..) (points_emitChars ..) h.line h.indent rfl
  unfold increaseIndent
  dsimp only
  split
  · exact hdeeper.then_blanks (htab _)
  · exact hdeeper

/-- A tab at the end may go. -/
theorem writes_dropTail_tab (h : o.endsWith ['\t'] = true) : Writes {} 0 o (o.dropTail 1) := by
  obtain ⟨kept, hkept⟩ :=
    (List.isSuffixOf_iff_suffix.mp h).trans (o.chunks.lastChunks_suffix _)
  change kept ++ ['\t'] = o.text at hkept
  refine ⟨⟨kept, ['\t'], [], ⟨hkept.symm, ?_, ?_⟩, rfl, rfl⟩, ?_, ?_⟩
  · simp [text_dropTail, ← hkept]
  · rw [points_dropTail, ← hkept]
    simpa using Clamped.map _ _ _
  · simp [dropTail, clampPoints]
  · simp [dropTail, clampPoints]

theorem writes_decreaseIndent : Writes {} (-1) o o.decreaseIndent := by
  have hshallower : Writes {} (-1) o { o with indent := o.indent - 1 } := .of_eq rfl rfl rfl rfl
  unfold decreaseIndent
  dsimp only
  split
  · rename_i h
    exact hshallower.then_blanks (writes_dropTail_tab _ h)
  · exact hshallower

theorem writes_openBlock (s : String) : Writes (.ofText s.toList) 1 o (o.openBlock s) := by
  simpa [openBlock] using (writes_emit o s).trans (writes_increaseIndent _)

/-- What closes a block that was opened on `firstLine`. -/
def blockEnd (firstLine : Int) (s : String) : Writing :=
  (if o.line = firstLine then {} else o.missingBreak) ++ .ofText s.toList

theorem writes_closeBlock (firstLine : Int) (s : String) :
    Writes (o.blockEnd firstLine s) (-1) o (o.closeBlock firstLine s) := by
  have hbreak : Writes (if o.line = firstLine then {} else o.missingBreak) 0 o
      (if o.line = firstLine then o else o.ensureNewline) :=
    .ite (.refl o) (writes_ensureNewline o)
  simpa [blockEnd, closeBlock] using
    (hbreak.trans (writes_decreaseIndent _)).trans (writes_emit _ s)

/-- What closes a block that was opened on `firstLine`, with a text of its own for that line. -/
def inlineEnd (firstLine : Int) (inline s : String) : Writing :=
  if o.line = firstLine then .ofText inline.toList else o.blockEnd firstLine s

theorem writes_closeInline (firstLine : Int) (inline s : String) :
    Writes (o.inlineEnd firstLine inline s) (-1) o (o.closeInline firstLine inline s) := by
  refine .ite ?_ (writes_closeBlock o firstLine s)
  simpa using (writes_decreaseIndent o).trans (writes_emit _ inline)

/-! ### Comments and nodes -/

theorem writes_emitLines (lines : List (List Char)) :
    Writes (.ofLines lines) 0 o (o.emitLines lines) := by
  induction lines generalizing o with
  | nil => exact .refl o
  | cons line rest ih =>
    cases rest with
    | nil => exact writes_emitChars o line
    | cons next rest =>
      exact ((writes_emitChars o line).trans (writes_newline _)).trans
        (ih (o.emitChars line).newline)

/-- Where a comment comes to stand: on its line, and behind a space if it needs one. -/
def commentStart (c : Comment) : Output :=
  let o := if c.location.isUnknown then o else o.syncTo c.location.first.line
  if o.needsSpace then o.emit " " else o

theorem writes_commentStart (c : Comment) :
    Writes (if c.location.isUnknown then {} else o.linesTo c.location.first.line) 0 o
      (o.commentStart c) := by
  have hsynced : Writes (if c.location.isUnknown then {} else o.linesTo c.location.first.line) 0 o
      (if c.location.isUnknown then o else o.syncTo c.location.first.line) :=
    .ite (.refl o) (writes_syncTo o _)
  have hspaced (o : Output) : Writes {} 0 o (if o.needsSpace then o.emit " " else o) := by
    split
    · have h := writes_emit o " "
      exact .of_append _ (text_emit ..) (points_emit ..) h.line h.indent rfl
    · exact .refl o
  exact hsynced.then_blanks (hspaced _)

/-- What a comment adds: the way to its line, its own lines and the end of a line comment. -/
def commentWriting (c : Comment) : Writing :=
  if o.isWritten c then {}
  else
    (if c.location.isUnknown then {} else o.linesTo c.location.first.line) ++
      .ofLines c.outputLines ++ (if c.isBlock then {} else .breaks 1)

theorem writes_emitComment (c : Comment) : Writes (o.commentWriting c) 0 o (o.emitComment c) := by
  refine .ite (.refl o) ?_
  have hended (o : Output) : Writes (if c.isBlock then {} else .breaks 1) 0 o
      ((if c.isBlock then o else o.newline).markWritten c) :=
    (Writes.ite (.refl o) (writes_newline o)).then_blanks
      (.of_eq rfl rfl rfl (by simp [markWritten]))
  exact ((writes_commentStart o c).trans (writes_emitLines _ _)).trans (hended _)

/-- What comments add one after another. -/
def commentsWriting (o : Output) : List Comment → Writing
  | [] => {}
  | c :: rest => o.commentWriting c ++ commentsWriting (o.emitComment c) rest

theorem writes_emitComments (cs : List Comment) :
    Writes (o.commentsWriting cs) 0 o (o.emitComments cs) := by
  induction cs generalizing o with
  | nil => exact .refl o
  | cons c rest ih => exact (writes_emitComment o c).trans (ih (o.emitComment c))

theorem writes_markWritten (cs : List Comment) : Writes {} 0 o (cs.foldl markWritten o) := by
  induction cs generalizing o with
  | nil => exact .refl o
  | cons c rest ih =>
    have hmarked : Writes {} 0 o (o.markWritten c) := .of_eq rfl rfl rfl (by simp [markWritten])
    exact hmarked.after_blanks (ih (o.markWritten c))

theorem writes_unmark (c : Comment) : Writes {} 0 o (o.unmark c) :=
  .of_eq rfl rfl rfl (by simp [unmark])

/-- What a node adds before it: its comments, the way to its line and a parenthesis. -/
def nodeStart (wrapped : Bool) (n : Node) : Writing :=
  let o' := o.emitComments n.leading
  o.commentsWriting n.leading ++
    if n.isSynthetic || n.kind = .program then {}
    else
      (match n.skipped with
        | some (first, last) => o'.skipLines first last
        | none => o').linesTo n.location.first.line ++
        (if wrapped then .ofText ['('] else {} : Writing)

theorem writes_beginNode (wrapped : Bool) (n : Node) :
    Writes (o.nodeStart wrapped n) 0 o (o.beginNode wrapped n) := by
  refine (writes_emitComments o n.leading).trans (.ite (.refl _) ?_)
  have hskipped : Writes {} 0 (o.emitComments n.leading) (match n.skipped with
      | some (first, last) => (o.emitComments n.leading).skipLines first last
      | none => o.emitComments n.leading) := by
    split
    · exact writes_skipLines _ _ _
    · exact .refl _
  have hopened (o : Output) : Writes (if wrapped then .ofText ['('] else {}) 0 o
      (if wrapped then o.emit "(" else o) :=
    .ite (writes_emit o "(") (.refl o)
  exact (hskipped.after_blanks (writes_syncTo _ n.location.first.line)).trans (hopened _)

/-- What a node adds behind it. -/
def nodeEnd (wrapped : Bool) (n : Node) : Writing :=
  let inside := o.emitComments n.inner
  let closed := if wrapped then inside.emit ")" else inside
  o.commentsWriting n.inner ++
    (if n.isSynthetic then {}
      else
        (if wrapped then .ofText [')'] else {} : Writing) ++ closed.linesTo n.location.last.line) ++
    (if n.isSynthetic then inside else closed.syncTo n.location.last.line).commentsWriting
      n.trailing

theorem writes_endNode (wrapped : Bool) (n : Node) :
    Writes (o.nodeEnd wrapped n) 0 o (o.endNode wrapped n) := by
  refine Writes.trans (i := 0) ?_ (writes_emitComments _ n.trailing)
  refine (writes_emitComments o n.inner).trans (.ite (.refl _) ?_)
  have hclosed (o : Output) : Writes (if wrapped then .ofText [')'] else {}) 0 o
      (if wrapped then o.emit ")" else o) :=
    .ite (writes_emit o ")") (.refl o)
  exact (hclosed _).trans (writes_syncTo _ n.location.last.line)

end Output
end EcmaPhp
