import EcmaPhp.Proofs.Output.Operation

/-! The line number of the output: as long as texts that are taken for parts of one line are such,
it counts the line ends of the text. -/
namespace EcmaPhp
open Output Text

namespace Text

@[simp] theorem count_newline_solid (text : List Char) :
    (solid text).count '\n' = text.count '\n' :=
  List.count_filter (by decide)

theorem notMem_of_mem_split {separator : Char} {text stretch : List Char}
    (h : stretch ∈ split separator text) : separator ∉ stretch := by
  induction text generalizing stretch with
  | nil =>
    obtain rfl : stretch = [] := by simpa [split] using h
    simp
  | cons c rest ih =>
    rw [split] at h
    split at h
    · rcases List.mem_cons.mp h with rfl | h
      · simp
      · exact ih h
    · rename_i hc
      cases hsplit : split separator rest with
      | nil =>
        obtain rfl : stretch = [c] := by simpa [hsplit] using h
        simpa using Ne.symm hc
      | cons first others =>
        have hfirst : separator ∉ first := ih (by simp [hsplit])
        rw [hsplit] at h
        rcases List.mem_cons.mp h with rfl | h
        · simp [Ne.symm hc, hfirst]
        · exact ih (by simp [hsplit, h])

end Text

namespace Comment

/-- A line comment holds no line end. -/
def OneLine (c : Comment) : Prop := c.kind = .line → '\n' ∉ c.value.toList

instance (c : Comment) : Decidable c.OneLine := inferInstanceAs (Decidable (_ → _))

theorem newline_notMem_alignLine {line : List Char} (h : '\n' ∉ line) : '\n' ∉ alignLine line := by
  unfold alignLine
  split
  · simpa using h
  · exact h

theorem newline_notMem_blockRest {lines : List (List Char)} (h : ∀ line ∈ lines, '\n' ∉ line) :
    ∀ line ∈ blockRest lines, '\n' ∉ line := by
  have htrim {line : List Char} (hline : '\n' ∉ line) : '\n' ∉ line.dropWhile isBlank :=
    fun hmem => hline ((List.dropWhile_suffix _).subset hmem)
  induction lines with
  | nil => simp [blockRest]
  | cons line rest ih =>
    rw [List.forall_mem_cons] at h
    cases rest with
    | nil =>
      simp only [blockRest, List.forall_mem_singleton]
      exact newline_notMem_alignLine (by simpa using htrim h.1)
    | cons next rest =>
      rw [blockRest, List.forall_mem_cons]
      · exact ⟨newline_notMem_alignLine (htrim h.1), ih h.2⟩
      · simp

theorem newline_notMem_outputLines {c : Comment} (h : c.OneLine) :
    ∀ line ∈ c.outputLines, '\n' ∉ line := by
  have hsplit : ∀ line ∈ split '\n' c.value.toList, '\n' ∉ line := fun _ => notMem_of_mem_split
  unfold outputLines
  split
  · rename_i hkind
    simpa using h hkind
  · split
    · simp
    · rename_i only hlines
      simpa using hsplit only (by simp [hlines])
    · rename_i first rest _ hlines
      rw [hlines, List.forall_mem_cons] at hsplit
      rw [List.forall_mem_cons]
      exact ⟨by simpa using hsplit.1, newline_notMem_blockRest hsplit.2⟩

end Comment

namespace Writing

/-- What is written counts for as many lines as it has line ends. -/
def Counted (w : Writing) : Prop := w.lines = w.text.count '\n'

theorem counted_empty : Counted {} := rfl

theorem Counted.append {v w : Writing} (hv : v.Counted) (hw : w.Counted) : (v ++ w).Counted := by
  unfold Counted at *
  rw [append_def, List.count_append, hv, hw]

theorem Counted.ite {v w : Writing} {c : Prop} [Decidable c] (hv : v.Counted) (hw : w.Counted) :
    (if c then v else w).Counted := by
  split
  · exact hv
  · exact hw

theorem counted_breaks (count : Nat) : (breaks count).Counted := by
  simp [Counted, breaks]

theorem counted_ofText {cs : List Char} (h : '\n' ∉ cs) : (ofText cs).Counted :=
  (List.count_eq_zero.mpr h).symm

theorem counted_ofLines {lines : List (List Char)} (h : ∀ line ∈ lines, '\n' ∉ line) :
    (ofLines lines).Counted := by
  induction lines with
  | nil => exact counted_empty
  | cons line rest ih =>
    rw [List.forall_mem_cons] at h
    cases rest with
    | nil => exact counted_ofText h.1
    | cons next rest => exact ((counted_ofText h.1).append (counted_breaks 1)).append (ih h.2)

end Writing

namespace Output
open Writing

variable (o : Output)

theorem counted_missingBreak : o.missingBreak.Counted := .ite counted_empty (counted_breaks 1)

theorem counted_commentWriting {c : Comment} (h : c.OneLine) : (o.commentWriting c).Counted := by
  have hsynced : (if c.location.isUnknown then {} else o.linesTo c.location.first.line).Counted :=
    .ite counted_empty (counted_breaks _)
  have hlines : (ofLines c.outputLines).Counted :=
    counted_ofLines (Comment.newline_notMem_outputLines h)
  have hended : (if c.isBlock then {} else breaks 1).Counted :=
    .ite counted_empty (counted_breaks 1)
  exact .ite counted_empty ((hsynced.append hlines).append hended)

theorem counted_commentsWriting {cs : List Comment} (h : ∀ c ∈ cs, c.OneLine) :
    (o.commentsWriting cs).Counted := by
  induction cs generalizing o with
  | nil => exact counted_empty
  | cons c rest ih =>
    rw [List.forall_mem_cons] at h
    exact (counted_commentWriting o h.1).append (ih (o.emitComment c) h.2)

theorem counted_nodeStart (wrapped : Bool) {n : Node} (h : ∀ c ∈ n.leading, c.OneLine) :
    (o.nodeStart wrapped n).Counted := by
  have hopened : (if wrapped then ofText ['('] else {}).Counted :=
    .ite (counted_ofText (by decide)) counted_empty
  exact (counted_commentsWriting o h).append
    (.ite counted_empty ((counted_breaks _).append hopened))

theorem counted_nodeEnd (wrapped : Bool) {n : Node}
    (h : ∀ c ∈ n.inner ++ n.trailing, c.OneLine) : (o.nodeEnd wrapped n).Counted := by
  rw [List.forall_mem_append] at h
  have hclosed : (if wrapped then ofText [')'] else {}).Counted :=
    .ite (counted_ofText (by decide)) counted_empty
  exact ((counted_commentsWriting o h.1).append
    (.ite counted_empty (hclosed.append (counted_breaks _)))).append (counted_commentsWriting _ h.2)

/-- The line number is one more than there are line ends. -/
def LinesCounted : Prop := o.line = 1 + o.text.count '\n'

variable {o} {o' : Output}

theorem LinesCounted.writes {w : Writing} {i : Int} (h : o.LinesCounted) (hw : Writes w i o o')
    (hcount : w.Counted) : o'.LinesCounted := by
  have htext : o'.text.count '\n' = o.text.count '\n' + w.lines := by
    rw [← count_newline_solid o'.text, hw.text_eq, List.count_append, count_newline_solid,
      count_newline_solid, ← hcount]
  have hline := hw.line
  unfold LinesCounted at *
  rw [htext]
  push_cast
  omega

theorem LinesCounted.of_eq (h : o.LinesCounted) (hline : o'.line = o.line)
    (htext : o'.text.count '\n' = o.text.count '\n') : o'.LinesCounted := by
  unfold LinesCounted at *
  rw [hline, htext, h]

/-- A comma and a space for a semicolon change no line. -/
theorem LinesCounted.separate (h : o.LinesCounted) : o.terminatorToSeparator.LinesCounted := by
  unfold terminatorToSeparator
  split
  · rename_i result hresult
    obtain ⟨front, rest, htail, rfl, -⟩ := separate?_eq_some hresult
    obtain ⟨start, hstart⟩ := o.tail_suffix
    have hcut : (o.dropTail o.tail.length).text = start := by
      rw [text_dropTail, ← hstart]
      simp
    apply h.of_eq
    · exact (writes_emitChars _ _).line.trans (by simp [Writing.ofText, dropTail, clampPoints])
    · rw [text_emitChars, hcut, ← hstart, htail]
      simp
  · exact h

/-- The line ends of text that is inserted are counted, wherever the text goes. -/
theorem LinesCounted.insertAt (h : o.LinesCounted) (depth : Nat) (cs : List Char) :
    (o.insertAt depth cs).LinesCounted := by
  obtain ⟨p, added, htext, hline, -⟩ := insertAt_splices o depth cs
  have hsplit : o.text.count '\n' = (o.text.take p).count '\n' + (o.text.drop p).count '\n' := by
    rw [← List.count_append, List.take_append_drop]
  unfold LinesCounted at *
  rw [hline, h, htext, hsplit, List.count_append, List.count_append]
  push_cast
  omega

end Output

namespace Operation
open Writing

/-- Texts that an operation takes for parts of one line hold no line end. Verbatim text, text for a
point and block comments may have any number of lines. -/
def OneLine : Operation → Prop
  | .emit s => '\n' ∉ s.toList
  | .openBlock opening => '\n' ∉ opening.toList
  | .closeBlock _ closing => '\n' ∉ closing.toList
  | .comment c => c.OneLine
  | .beginNode _ n => ∀ c ∈ n.leading, c.OneLine
  | .endNode _ n => ∀ c ∈ n.inner ++ n.trailing, c.OneLine
  | _ => True

instance (op : Operation) : Decidable op.OneLine := by
  unfold OneLine
  split <;> infer_instance

theorem counted_writing {op : Operation} (o : Output) (h : op.OneLine) :
    (op.writing o).Counted := by
  cases op with
  | emit s => exact counted_ofText h
  | emitVerbatim cs => exact rfl
  | newline => exact counted_breaks 1
  | ensureNewline => exact counted_missingBreak o
  | breakLine => exact counted_breaks 1
  | syncTo sourceLine => exact counted_breaks _
  | openBlock opening => exact counted_ofText h
  | closeBlock firstLine closing =>
    exact Counted.append (.ite counted_empty (counted_missingBreak o)) (counted_ofText h)
  | ensureTerminator => exact .ite counted_empty (counted_ofText (by decide))
  | comment c => exact counted_commentWriting o h
  | beginNode wrapped n => exact counted_nodeStart o wrapped h
  | endNode wrapped n => exact counted_nodeEnd o wrapped h
  | _ => exact counted_empty

theorem linesCounted_apply {o : Output} {op : Operation} (h : o.LinesCounted) (hop : op.OneLine) :
    (op.apply o).LinesCounted := by
  cases hend : op.atEnd with
  | true =>
    obtain ⟨indent, hw⟩ := writes_apply o hend
    exact h.writes hw (counted_writing o hop)
  | false =>
    cases op with
    | separate => exact h.separate
    | pushPoint => exact h.of_eq rfl rfl
    | popPoint => exact h.of_eq rfl rfl
    | insertAt depth cs => exact h.insertAt depth cs
    | _ => cases hend

end Operation

theorem Output.linesCounted_run {o : Output} {ops : List Operation} (h : o.LinesCounted)
    (hops : ∀ op ∈ ops, op.OneLine) : (o.run ops).LinesCounted := by
  induction ops generalizing o with
  | nil => exact h
  | cons op rest ih =>
    rw [List.forall_mem_cons] at hops
    exact ih (op.linesCounted_apply h hops.1) hops.2

/-- After each operation of a run the line number is one more than the text has line ends, if the
texts that are taken for parts of one line hold no line end. -/
theorem run_line_eq (ops : List Operation) (hops : ∀ op ∈ ops, op.OneLine) :
    ∀ earlier, earlier <+: ops →
      (Output.run {} earlier).line = 1 + (Output.run {} earlier).text.count '\n' := by
  intro earlier hearlier
  have hstart : ({} : Output).LinesCounted := rfl
  exact linesCounted_run hstart fun op hop => hops op (hearlier.subset hop)

/-- A template of two lines, a block comment of two lines and text of two lines for a point. -/
def manyLinesRun : List Operation :=
  [.openBlock "\x7b", .pushPoint, .syncTo 3, .emitVerbatim "<<<EOT\n  a".toList, .ensureTerminator,
    .comment ⟨0, .block, " one\n * two ", ⟨⟨9, 0⟩, ⟨10, 4⟩⟩⟩, .ensureNewline,
    .comment ⟨1, .line, " three", ⟨⟨11, 0⟩, ⟨11, 8⟩⟩⟩, .insertAt 0 "global $x;\nglobal $y;".toList,
    .separate, .breakLine, .popPoint, .closeBlock 1 "\x7d"]

theorem run_line_eq_manyLines :
    (Output.run {} manyLinesRun).line = 14 ∧
      ∀ earlier, earlier <+: manyLinesRun →
        (Output.run {} earlier).line = 1 + (Output.run {} earlier).text.count '\n' :=
  ⟨by decide +kernel, run_line_eq manyLinesRun (by decide +kernel)⟩

end EcmaPhp
