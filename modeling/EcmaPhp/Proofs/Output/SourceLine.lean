import EcmaPhp.Proofs.Output.Operation
import Mathlib

/-! The source line on which the output stands. Lines without source leave it where it is, lines
that are left out move it on, and going to a source line writes just the line ends that are
missing. -/
namespace EcmaPhp
open Output Text

/-- Operations in any order, with blocks and stretches without source around some of them, to any
depth. -/
inductive Procedure where
  | done
  | step (op : Operation) (rest : Procedure)
  | block (opening : String) (body : Procedure) (closing : String) (rest : Procedure)
  | unsourced (body rest : Procedure)

namespace Procedure

def run : Procedure → Output → Output
  | .done, o => o
  | .step op rest, o => rest.run (op.apply o)
  | .block opening body closing rest, o =>
    rest.run ((body.run (o.openBlock opening)).closeBlock o.line closing)
  | .unsourced body rest, o => rest.run ((body.run o).endUnsourced o)

/-- The operations one after another, each block and each stretch with what it remembers from its
start. -/
def operations : Procedure → Output → List Operation
  | .done, _ => []
  | .step op rest, o => op :: rest.operations (op.apply o)
  | .block opening body closing rest, o =>
    let inside := o.openBlock opening
    .openBlock opening :: body.operations inside ++ .closeBlock o.line closing ::
      rest.operations ((body.run inside).closeBlock o.line closing)
  | .unsourced body rest, o =>
    body.operations o ++ .endUnsourced o :: rest.operations ((body.run o).endUnsourced o)

theorem run_operations (p : Procedure) (o : Output) : o.run (p.operations o) = p.run o := by
  induction p generalizing o with
  | done => rfl
  | step op rest ih => exact ih (op.apply o)
  | block opening body closing rest ihBody ihRest =>
    simp only [operations, run, List.cons_append, run_cons, run_append, Operation.apply, ihBody,
      ihRest]
  | unsourced body rest ihBody ihRest =>
    simp only [operations, run, run_append, run_cons, Operation.apply, ihBody, ihRest]

end Procedure

namespace Operation

/-- No operation goes back in the lines of the output. -/
theorem line_le_apply (op : Operation) (o : Output) : o.line ≤ (op.apply o).line := by
  cases hend : op.atEnd with
  | true =>
    obtain ⟨indent, hw⟩ := writes_apply o hend
    exact hw.line_le
  | false =>
    cases op with
    | separate =>
      show o.line ≤ o.terminatorToSeparator.line
      unfold terminatorToSeparator
      split
      · exact (writes_emitChars _ _).line_le
      · exact le_rfl
    | pushPoint => exact le_rfl
    | popPoint => exact le_rfl
    | insertAt depth cs =>
      obtain ⟨p, added, -, hline, -⟩ := insertAt_splices o depth cs
      show o.line ≤ (o.insertAt depth cs).line
      omega
    | _ => cases hend

end Operation

namespace Output

theorem line_le_run (o : Output) (ops : List Operation) : o.line ≤ (o.run ops).line := by
  induction ops generalizing o with
  | nil => exact le_rfl
  | cons op rest ih => exact (op.line_le_apply o).trans (ih (op.apply o))

/-- The source line that belongs on the current line of the output. -/
def sourceLine (o : Output) : Int := o.line - o.offset

variable (o : Output)

theorem sourceLine_breakLine : o.breakLine.sourceLine = o.sourceLine := by
  have hline : o.breakLine.line = o.line + 1 := (writes_breakLine o).line
  have hoffset : o.breakLine.offset = o.offset + 1 := by
    show (o.trimBlanks.emitChars _).offset + 1 = _
    simp [emitChars, trimBlanks, clampPoints]
  unfold sourceLine
  omega

theorem sourceLine_insertAt (depth : Nat) (cs : List Char) :
    (o.insertAt depth cs).sourceLine = o.sourceLine := by
  obtain ⟨p, added, -, hline, hoffset⟩ := insertAt_splices o depth cs
  unfold sourceLine
  omega

/-- Whatever happens in a stretch without source, its end goes back to the source line with which
it began. -/
theorem sourceLine_endUnsourced (start : Output) :
    (o.endUnsourced start).sourceLine = start.sourceLine := by
  simp only [sourceLine, endUnsourced]
  omega

theorem trimEnd_text_newline :
    trimEnd isBlank o.newline.text = trimEnd isBlank o.text ++ ['\n'] := by
  have htabs : trimEnd isBlank o.indentation = [] := by
    rw [trimEnd, List.reverse_eq_nil_iff, List.dropWhile_eq_nil_iff]
    intro c hc
    exact o.isBlank_of_mem_indentation (List.mem_reverse.mp hc)
  have hsplit : o.newline.text = (trimEnd isBlank o.text ++ ['\n']) ++ o.indentation := by
    rw [text_newline, List.append_assoc, List.singleton_append]
  rw [hsplit, trimEnd_append, if_pos htabs]
  simp [trimEnd, isBlank]

/-- Of several line ends only the last one is followed by the indentation. -/
theorem text_newlines (count : Nat) :
    (o.newlines (count + 1)).text =
      trimEnd isBlank o.text ++ List.replicate (count + 1) '\n' ++ o.indentation := by
  induction count generalizing o with
  | zero =>
    show o.newline.text = _
    rw [text_newline, List.append_assoc]
    rfl
  | succ count ih =>
    show (o.newline.newlines (count + 1)).text = _
    rw [ih, trimEnd_text_newline, indentation_newline, List.replicate_succ (n := count + 1)]
    simp

theorem offset_newlines (count : Nat) : (o.newlines count).offset = o.offset := by
  induction count generalizing o with
  | zero => rfl
  | succ count ih =>
    have hnewline : o.newline.offset = o.offset := by
      show (o.trimBlanks.emitChars _).offset = _
      simp [emitChars, trimBlanks, clampPoints]
    exact (ih o.newline).trans hnewline

theorem syncTo_of_le {target : Int} (h : target ≤ o.sourceLine) : o.syncTo target = o := by
  have hcount : (target + o.offset - o.line).toNat = 0 := by
    unfold sourceLine at h
    omega
  rw [syncTo, hcount, newlines]

theorem text_syncTo {target : Int} (h : o.sourceLine < target) :
    (o.syncTo target).text =
      trimEnd isBlank o.text ++ List.replicate (target - o.sourceLine).toNat '\n' ++
        o.indentation := by
  obtain ⟨count, hcount⟩ : ∃ count, (target - o.sourceLine).toNat = count + 1 :=
    Nat.exists_eq_succ_of_ne_zero (by omega)
  have hsync : (target + o.offset - o.line).toNat = count + 1 := by
    unfold sourceLine at hcount
    omega
  rw [syncTo, hsync, hcount]
  exact text_newlines o count

theorem line_syncTo (target : Int) :
    (o.syncTo target).line = o.line + max 0 (target - o.sourceLine) := by
  rw [(writes_syncTo o target).line]
  simp only [linesTo, Writing.breaks, sourceLine]
  omega

theorem sourceLine_syncTo (target : Int) :
    (o.syncTo target).sourceLine = max o.sourceLine target := by
  have hline := line_syncTo o target
  have hoffset : (o.syncTo target).offset = o.offset := offset_newlines o _
  unfold sourceLine at *
  omega

/-- Only the offset changes, by the number of lines that still lie ahead. -/
theorem skipLines_eq (first last : Int) :
    o.skipLines first last =
      { o with offset := o.offset - (Finset.Icc (max first (o.sourceLine + 1)) last).card } := by
  rw [Int.card_Icc]
  simp only [skipLines, sourceLine]
  split
  · congr
    omega
  · have hnone : (last + 1 - max first (o.line - o.offset + 1)).toNat = 0 := by omega
    simp [hnone]

theorem sourceLine_skipLines (first last : Int) :
    (o.skipLines first last).sourceLine =
      o.sourceLine + (Finset.Icc (max first (o.sourceLine + 1)) last).card := by
  rw [skipLines_eq]
  simp only [sourceLine]
  omega

end Output

/-- How the source line of the output changes. A line that is broken, text for a point and a stretch
without source leave it as it is, whatever happens in the stretch. Going to a source line that lies
ahead writes the line ends up to it, trims the line before them and indents the line behind them;
otherwise nothing is written. Source lines that are left out are passed over as far as they lie
ahead. The line of the output itself never goes back. -/
theorem sourceLine_accounted (o : Output) :
    o.breakLine.sourceLine = o.sourceLine ∧
      (∀ depth cs, (o.insertAt depth cs).sourceLine = o.sourceLine) ∧
      (∀ body : Procedure, ((body.unsourced .done).run o).sourceLine = o.sourceLine) ∧
      (∀ target, (o.syncTo target).text =
          (if target ≤ o.sourceLine then o.text
            else trimEnd isBlank o.text ++ List.replicate (target - o.sourceLine).toNat '\n' ++
              o.indentation) ∧
        (o.syncTo target).line = o.line + max 0 (target - o.sourceLine) ∧
        (o.syncTo target).sourceLine = max o.sourceLine target) ∧
      (∀ first last, (o.skipLines first last).text = o.text ∧
        (o.skipLines first last).line = o.line ∧
        (o.skipLines first last).sourceLine =
          o.sourceLine + (Finset.Icc (max first (o.sourceLine + 1)) last).card) ∧
      ∀ p : Procedure, o.line ≤ (p.run o).line := by
  refine ⟨sourceLine_breakLine o, sourceLine_insertAt o, ?_, ?_, ?_, ?_⟩
  · intro body
    exact sourceLine_endUnsourced (body.run o) o
  · intro target
    refine ⟨?_, line_syncTo o target, sourceLine_syncTo o target⟩
    split
    · rename_i hle
      rw [syncTo_of_le o hle]
    · rename_i hlt
      exact text_syncTo o (Int.not_le.mp hlt)
  · intro first last
    refine ⟨?_, ?_, sourceLine_skipLines o first last⟩
    · rw [skipLines_eq]
      rfl
    · rw [skipLines_eq]
  · intro p
    rw [← p.run_operations o]
    exact line_le_run o _

end EcmaPhp
