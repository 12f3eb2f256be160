import EcmaPhp.Output.Points
import EcmaPhp.Output.Terminator
import Mathlib.Data.List.TakeWhile

/-! The text of the output, as each operation on its chunks leaves it. -/
namespace EcmaPhp
namespace Text

theorem trimEnd_append_blanks {p : Char → Bool} (text : List Char) :
    ∃ cut, text = trimEnd p text ++ cut ∧ ∀ c ∈ cut, p c = true := by
  refine ⟨(text.reverse.takeWhile p).reverse, ?_, ?_⟩
  · rw [trimEnd, ← List.reverse_append, List.takeWhile_append_dropWhile, List.reverse_reverse]
  · intro c hc
    exact List.mem_takeWhile_imp (List.mem_reverse.mp hc)

theorem trimEnd_append (p : Char → Bool) (front back : List Char) :
    trimEnd p (front ++ back) =
      if trimEnd p back = [] then trimEnd p front else front ++ trimEnd p back := by
  simp only [trimEnd, List.reverse_append, List.dropWhile_append, List.reverse_eq_nil_iff]
  by_cases h : back.reverse.dropWhile p = [] <;> simp [h]

end Text

namespace Chunks

theorem joinLast_suffix (size : Nat) (held : List (List Char)) :
    joinLast size held <:+ join held := by
  induction held generalizing size with
  | nil => exact List.suffix_refl []
  | cons c older ih =>
    rw [joinLast, join_cons]
    split
    · exact List.suffix_append _ _
    · obtain ⟨front, h⟩ := ih (size - c.length)
      exact ⟨front, by rw [← List.append_assoc, h]⟩

theorem join_trimEnd (held : List (List Char)) :
    join (trimEnd held).1 = Text.trimEnd Text.isBlank (join held) := by
  induction held with
  | nil => rfl
  | cons c older ih =>
    rw [trimEnd, join_cons, Text.trimEnd_append]
    split
    · rename_i h
      rw [if_pos h, ih]
    · rename_i h
      rw [if_neg h, join_cons]

variable (chunks : Chunks)

/-- Whole chunks from the end are the end of the text. -/
theorem lastChunks_suffix (size : Nat) : chunks.lastChunks size <:+ chunks.text :=
  joinLast_suffix size chunks.held

theorem text_push (cs : List Char) : (chunks.push cs).text = chunks.text ++ cs :=
  join_cons cs chunks.held

theorem text_dropLast (size : Nat) :
    (chunks.dropLast size).text = chunks.text.take (chunks.text.length - size) :=
  join_dropEnd size chunks.held

theorem text_trimBlanks : chunks.trimBlanks.text = Text.trimEnd Text.isBlank chunks.text :=
  join_trimEnd chunks.held

theorem text_insertAt (offset : Nat) (cs : List Char) :
    (chunks.insertAt offset cs).text =
      chunks.text.take offset ++ cs ++ chunks.text.drop offset := by
  simp [insertAt, text, join, flatten_splice]

end Chunks

namespace Output

@[simp] theorem text_emitChars (o : Output) (cs : List Char) :
    (o.emitChars cs).text = o.text ++ cs := by
  cases cs with
  | nil => simp [emitChars]
  | cons c cs => exact Chunks.text_push ..

@[simp] theorem points_emitChars (o : Output) (cs : List Char) :
    (o.emitChars cs).points = o.points := by
  cases cs <;> rfl

@[simp] theorem text_emit (o : Output) (s : String) : (o.emit s).text = o.text ++ s.toList :=
  text_emitChars o s.toList

@[simp] theorem points_emit (o : Output) (s : String) : (o.emit s).points = o.points :=
  points_emitChars o s.toList

@[simp] theorem text_pushPoint (o : Output) : o.pushPoint.text = o.text := rfl

@[simp] theorem points_pushPoint (o : Output) : o.pushPoint.points = o.text.length :: o.points := by
  rw [pushPoint, Chunks.length_eq]
  rfl

@[simp] theorem text_popPoint (o : Output) : o.popPoint.text = o.text := rfl

@[simp] theorem points_popPoint (o : Output) : o.popPoint.points = o.points.drop 1 := rfl

theorem tail_suffix (o : Output) : o.tail <:+ o.text := Chunks.lastChunks_suffix _ _

theorem text_trimBlanks (o : Output) : o.trimBlanks.text = Text.trimEnd Text.isBlank o.text :=
  Chunks.text_trimBlanks _

theorem points_trimBlanks (o : Output) :
    o.trimBlanks.points = o.points.map (min · o.trimBlanks.text.length) := by
  simp only [trimBlanks, clampPoints, Chunks.length_eq]
  rfl

theorem text_dropTail (o : Output) (size : Nat) :
    (o.dropTail size).text = o.text.take (o.text.length - size) :=
  Chunks.text_dropLast _ _

theorem points_dropTail (o : Output) (size : Nat) :
    (o.dropTail size).points = o.points.map (min · (o.text.length - size)) := by
  have h : (o.dropTail size).points = o.points.map (min · (o.dropTail size).text.length) := by
    simp only [dropTail, clampPoints, Chunks.length_eq]
    rfl
  rw [h, text_dropTail, List.length_take, Nat.min_eq_left (Nat.sub_le _ _)]

theorem text_newline (o : Output) :
    o.newline.text = Text.trimEnd Text.isBlank o.text ++ '\n' :: o.indentation := by
  change (o.trimBlanks.emitChars _).text = _
  rw [text_emitChars, text_trimBlanks]

@[simp] theorem indentation_emitChars (o : Output) (cs : List Char) :
    (o.emitChars cs).indentation = o.indentation := by
  cases cs <;> rfl

@[simp] theorem indentation_newline (o : Output) : o.newline.indentation = o.indentation := by
  change (o.trimBlanks.emitChars _).indentation = _
  rw [indentation_emitChars]
  rfl

theorem isBlank_of_mem_indentation (o : Output) {c : Char} (h : c ∈ o.indentation) :
    Text.isBlank c = true := by
  rw [List.eq_of_mem_replicate h]
  rfl

end Output
end EcmaPhp
