import EcmaPhp.Proofs.Output.Comments
import EcmaPhp.Proofs.Output.Ending
import EcmaPhp.Proofs.Output.Writing
import EcmaPhp.Proofs.Php.Spelling

/-! What is written is code or a comment. The output keeps no record of which is which, so a check
on how the text ends may take the one for the other: a text that looks like the end of a statement
ends in a semicolon of the code or in a line comment that has one last. -/
namespace EcmaPhp
open Output

/-- A piece of what is written. -/
inductive Ink where
  | code (cs : List Char)
  | remark (c : Comment)
  deriving DecidableEq, Repr

namespace Ink

/-- A text without its blanks and line ends. -/
def hard (cs : List Char) : List Char := cs.filter fun c => !isSoft c

/-- What is seen of a piece. -/
def visible : Ink → List Char
  | .code cs => hard cs
  | .remark c => hard c.outputLines.flatten

/-- What is seen of a piece once comments are removed. -/
def visibleCode : Ink → List Char
  | .code cs => hard cs
  | .remark _ => []

/-- What is seen of pieces one after another. -/
def shown (xs : List Ink) : List Char := xs.flatMap visible

/-- What is seen of them once comments are removed. -/
def shownCode (xs : List Ink) : List Char := xs.flatMap visibleCode

/-- The last piece of which anything is seen. -/
def last? (xs : List Ink) : Option Ink := (xs.filter fun x => x.visible ≠ []).getLast?

@[simp] theorem hard_nil : hard [] = [] := rfl

@[simp] theorem hard_append (front back : List Char) :
    hard (front ++ back) = hard front ++ hard back :=
  List.filter_append ..

theorem hard_cons_of_soft {c : Char} (h : isSoft c = true) (cs : List Char) :
    hard (c :: cs) = hard cs := by
  simp [hard, h]

theorem hard_cons_of_hard {c : Char} (h : isSoft c = false) (cs : List Char) :
    hard (c :: cs) = c :: hard cs := by
  simp [hard, h]

theorem hard_solid (cs : List Char) : hard (Text.solid cs) = hard cs := by
  rw [hard, Text.solid, List.filter_filter]
  congr 1
  funext c
  cases hc : Text.isBlank c <;> simp [isSoft, hc]

theorem hard_ne_nil {cs : List Char} {c : Char} (hc : c ∈ cs) (hhard : isSoft c = false) :
    hard cs ≠ [] :=
  List.ne_nil_of_mem (List.mem_filter.mpr ⟨hc, by simp [hhard]⟩)

@[simp] theorem shown_nil : shown [] = [] := rfl

@[simp] theorem shown_append (xs ys : List Ink) : shown (xs ++ ys) = shown xs ++ shown ys :=
  List.flatMap_append

@[simp] theorem shown_cons (x : Ink) (xs : List Ink) : shown (x :: xs) = x.visible ++ shown xs :=
  List.flatMap_cons

@[simp] theorem shownCode_nil : shownCode [] = [] := rfl

@[simp] theorem shownCode_append (xs ys : List Ink) :
    shownCode (xs ++ ys) = shownCode xs ++ shownCode ys :=
  List.flatMap_append

@[simp] theorem shownCode_cons (x : Ink) (xs : List Ink) :
    shownCode (x :: xs) = x.visibleCode ++ shownCode xs :=
  List.flatMap_cons

theorem visibleCode_eq_nil {x : Ink} (h : x.visible = []) : x.visibleCode = [] := by
  cases x with
  | code cs => exact h
  | remark c => rfl

theorem shownCode_eq_nil {xs : List Ink} (h : shown xs = []) : shownCode xs = [] := by
  rw [shown, List.flatMap_eq_nil_iff] at h
  rw [shownCode, List.flatMap_eq_nil_iff]
  exact fun x hx => visibleCode_eq_nil (h x hx)

theorem last?_concat_of_blank {x : Ink} (hx : x.visible = []) (xs : List Ink) :
    last? (xs ++ [x]) = last? xs := by
  simp [last?, hx]

theorem last?_concat_of_visible {x : Ink} (hx : x.visible ≠ []) (xs : List Ink) :
    last? (xs ++ [x]) = some x := by
  simp [last?, hx]

theorem last?_append {ys : List Ink} (h : last? ys ≠ none) (xs : List Ink) :
    last? (xs ++ ys) = last? ys := by
  obtain ⟨y, hy⟩ := Option.ne_none_iff_exists'.mp h
  rw [hy]
  rw [last?] at hy ⊢
  rw [List.filter_append, List.getLast?_append, hy]
  rfl

/-- What is seen last is seen of the last piece. -/
theorem getLast?_shown (xs : List Ink) :
    (shown xs).getLast? = (last? xs).bind fun x => x.visible.getLast? := by
  induction xs using List.reverseRecOn with
  | nil => rfl
  | append_singleton xs x ih =>
    rw [shown_append, shown_cons, shown_nil, List.append_nil, List.getLast?_append]
    by_cases hx : x.visible = []
    · rw [last?_concat_of_blank hx, ← ih, hx]
      rfl
    · rw [last?_concat_of_visible hx]
      obtain ⟨c, hc⟩ := Option.ne_none_iff_exists'.mp (mt List.getLast?_eq_none_iff.mp hx)
      simp [hc]

/-- If the last piece is code, the code ends as it does. -/
theorem getLast?_shownCode {xs : List Ink} {cs : List Char} (h : last? xs = some (.code cs)) :
    (shownCode xs).getLast? = (hard cs).getLast? := by
  induction xs using List.reverseRecOn with
  | nil => cases h
  | append_singleton xs x ih =>
    rw [shownCode_append, shownCode_cons, shownCode_nil, List.append_nil, List.getLast?_append]
    by_cases hx : x.visible = []
    · rw [last?_concat_of_blank hx] at h
      rw [visibleCode_eq_nil hx, ih h]
      rfl
    · rw [last?_concat_of_visible hx] at h
      cases h
      obtain ⟨c, hc⟩ := Option.ne_none_iff_exists'.mp (mt List.getLast?_eq_none_iff.mp hx)
      change (hard cs).getLast? = some c at hc
      simp [visibleCode, hc]

end Ink
open Ink

/-- A comment that a check on the end of the text takes for a terminator. -/
def Comment.LooksTerminated (c : Comment) : Prop :=
  c.isBlock = false ∧ (hard c.value.toList).getLast? = some ';'

instance (c : Comment) : Decidable c.LooksTerminated := inferInstanceAs (Decidable (_ ∧ _))

theorem Comment.looksTerminated {c : Comment} (h : (Ink.remark c).visible.getLast? = some ';') :
    c.LooksTerminated := by
  cases hblock : c.isBlock with
  | true =>
    obtain ⟨init, front, hlines⟩ := outputLines_concat hblock
    rw [visible, hlines] at h
    simp [hard_cons_of_hard (show isSoft '/' = false by decide)] at h
  | false =>
    refine ⟨hblock, ?_⟩
    rw [visible, outputLines_line hblock, List.flatten_singleton,
      hard_cons_of_hard (by decide), hard_cons_of_hard (by decide)] at h
    cases hvalue : hard c.value.toList with
    | nil => simp [hvalue] at h
    | cons d rest => simpa [hvalue, List.getLast?_cons] using h

namespace Output

theorem hard_dropWhile_isBlank (cs : List Char) : hard (cs.dropWhile Text.isBlank) = hard cs := by
  induction cs with
  | nil => rfl
  | cons c rest ih =>
    rw [List.dropWhile_cons]
    split
    · rename_i hc
      rw [ih, hard_cons_of_soft (by simp [isSoft, hc])]
    · rfl

theorem head?_hard_of_startsTerminated {reversed : List Char}
    (h : startsTerminated reversed = true) : (hard reversed).head? = some ';' := by
  rw [← hard_dropWhile_isBlank]
  unfold startsTerminated at h
  split at h
  · rename_i hdrop
    rw [hdrop, hard_cons_of_hard (by decide)]
    rfl
  · rename_i rest hdrop
    rw [hdrop, hard_cons_of_soft (by decide), ← hard_dropWhile_isBlank]
    cases hrest : rest.dropWhile Text.isBlank with
    | nil => simp [hrest] at h
    | cons c more =>
      obtain rfl : c = ';' := by simpa [hrest] using h
      rw [hard_cons_of_hard (by decide)]
      rfl
  · cases h

/-- What looks terminated shows a semicolon last. -/
theorem getLast?_hard_of_isTerminated {text : List Char} (h : isTerminated text = true) :
    (hard text).getLast? = some ';' := by
  have hreverse : (hard text.reverse).head? = (hard text).getLast? := by
    rw [hard, List.filter_reverse, List.head?_reverse]
    rfl
  rw [← hreverse]
  rcases Bool.or_eq_true_iff.mp h with h | h
  · exact head?_hard_of_startsTerminated h
  · split at h
    · rename_i hline
      rw [hline, hard_cons_of_soft (by decide)]
      exact head?_hard_of_startsTerminated h
    · cases h

variable {o o' o'' : Output} {xs ys : List Ink} {w : Writing} {i : Int}

/-- From one output to another, pieces are written at the end. -/
def Inked (xs : List Ink) (o o' : Output) : Prop := hard o'.text = hard o.text ++ shown xs

theorem Writes.inked (h : Writes w i o o') (hw : hard w.text = shown xs) : Inked xs o o' := by
  have htext := congrArg hard h.text_eq
  rwa [hard_append, hard_solid, hard_solid, hard_solid, hw] at htext

theorem Inked.trans (h : Inked xs o o') (h' : Inked ys o' o'') : Inked (xs ++ ys) o o'' := by
  rw [Inked, h', h, shown_append, List.append_assoc]

/-- The end of the text shows what was written last, from some piece of code on. -/
def EndsIn (o : Output) (xs : List Ink) : Prop :=
  ∃ before after front, xs = before ++ after ∧ shownCode after ≠ [] ∧
    hard o.text = front ++ shown after

namespace EndsIn

theorem after (h : o.EndsIn ys) (xs : List Ink) : o.EndsIn (xs ++ ys) := by
  obtain ⟨before, after, front, rfl, hcode, htext⟩ := h
  exact ⟨xs ++ before, after, front, by simp, hcode, htext⟩

theorem inked (h : o.EndsIn xs) (hys : Inked ys o o') : o'.EndsIn (xs ++ ys) := by
  obtain ⟨before, after, front, rfl, hcode, htext⟩ := h
  refine ⟨before, after ++ ys, front, by simp, by simp [hcode], ?_⟩
  rw [hys, htext]
  simp

theorem of_inked (hys : Inked ys o o') (hcode : shownCode ys ≠ []) : o'.EndsIn ys :=
  ⟨[], ys, hard o.text, rfl, hcode, hys⟩

/-- Where a statement looks terminated, its code ends in a semicolon, or a comment does. -/
theorem terminated_or_remark (h : o.EndsIn xs) (hterminated : isTerminated o.tail = true) :
    (shownCode xs).getLast? = some ';' ∨ ∃ c, last? xs = some (.remark c) ∧ c.LooksTerminated := by
  obtain ⟨before, after, front, rfl, hcode, htext⟩ := h
  have hlast : (shown after).getLast? = some ';' := by
    obtain ⟨head, hhead⟩ := o.chunks.lastChunks_suffix tailSize
    change head ++ o.tail = o.text at hhead
    have hsemicolon := getLast?_hard_of_isTerminated hterminated
    rw [← hhead, hard_append] at htext
    have hboth := congrArg List.getLast? htext
    rw [List.getLast?_append, hsemicolon, List.getLast?_append] at hboth
    cases hshown : (shown after).getLast? with
    | none => exact absurd (shownCode_eq_nil (List.getLast?_eq_none_iff.mp hshown)) hcode
    | some c => simpa [hshown] using hboth.symm
  rw [getLast?_shown] at hlast
  obtain ⟨x, hx, hvisible⟩ := Option.bind_eq_some_iff.mp hlast
  have hxs : last? (before ++ after) = some x := by
    rw [last?_append (by simp [hx]), hx]
  cases x with
  | code cs => exact .inl ((getLast?_shownCode hxs).trans hvisible)
  | remark c => exact .inr ⟨c, hxs, Comment.looksTerminated hvisible⟩

end EndsIn

/-! ### Comments and nodes -/

/-- The comments that are written where some may be written already. -/
def remarks (o : Output) (cs : List Comment) : List Ink := (fresh o.written cs).map .remark

/-- What is written as a node begins. -/
def nodeOpening (o : Output) (wrapped : Bool) (n : Node) : List Ink :=
  o.remarks n.leading ++
    if wrapped && !n.isSynthetic && n.kind != .program then [.code ['(']] else []

/-- What is written as a node ends. -/
def nodeClosing (o : Output) (wrapped : Bool) (n : Node) : List Ink :=
  o.remarks n.inner ++ (if wrapped && !n.isSynthetic then [.code [')']] else []) ++
    (o.emitComments n.inner).remarks n.trailing

@[simp] theorem shownCode_remarks (cs : List Comment) : shownCode (o.remarks cs) = [] := by
  rw [shownCode, List.flatMap_eq_nil_iff]
  intro x hx
  obtain ⟨c, -, rfl⟩ := List.mem_map.mp hx
  rfl

@[simp] theorem hard_breaks (count : Nat) : hard (Writing.breaks count).text = [] := by
  rw [hard, List.filter_eq_nil_iff]
  intro c hc
  rw [List.eq_of_mem_replicate hc]
  decide

theorem hard_ofLines (lines : List (List Char)) :
    hard (Writing.ofLines lines).text = hard lines.flatten := by
  induction lines with
  | nil => rfl
  | cons line rest ih =>
    cases rest with
    | nil => simp [Writing.ofLines, Writing.ofText]
    | cons next rest =>
      rw [Writing.ofLines]
      · simp only [Writing.append_def, hard_append, hard_breaks, List.append_nil, ih]
        simp [Writing.ofText]
      · simp

theorem hard_commentWriting {c : Comment} (h : o.isWritten c = false) :
    hard (o.commentWriting c).text = (Ink.remark c).visible := by
  have hsync : hard (if c.location.isUnknown then {} else o.linesTo c.location.first.line :
      Writing).text = [] := by
    split
    · rfl
    · exact hard_breaks _
  have hend : hard (if c.isBlock then {} else .breaks 1 : Writing).text = [] := by
    split
    · rfl
    · exact hard_breaks _
  rw [commentWriting, h]
  simp only [Bool.false_eq_true, if_false, Writing.append_def, hard_append, hsync, hend,
    hard_ofLines, List.nil_append, List.append_nil]
  rfl

theorem hard_commentsWriting (o : Output) (cs : List Comment) :
    hard (o.commentsWriting cs).text = shown (o.remarks cs) := by
  induction cs generalizing o with
  | nil => rfl
  | cons c rest ih =>
    have hstep : hard (o.commentsWriting (c :: rest)).text =
        hard (o.commentWriting c).text ++ shown ((o.emitComment c).remarks rest) := by
      rw [← ih, ← hard_append]
      rfl
    rw [hstep, remarks, remarks, written_emitComment, fresh]
    split
    · rename_i hwritten
      rw [commentWriting, isWritten, hwritten]
      rfl
    · rename_i hfresh
      rw [hard_commentWriting (by simpa [isWritten] using hfresh)]
      rfl

theorem inked_emitChars (o : Output) (cs : List Char) : Inked [.code cs] o (o.emitChars cs) :=
  (writes_emitChars o cs).inked (by simp [Writing.ofText, visible])

theorem inked_syncTo (o : Output) (line : Int) : Inked [] o (o.syncTo line) :=
  (writes_syncTo o line).inked (hard_breaks _)

theorem inked_emitComments (o : Output) (cs : List Comment) :
    Inked (o.remarks cs) o (o.emitComments cs) :=
  (writes_emitComments o cs).inked (hard_commentsWriting o cs)

theorem inked_endNode (o : Output) (wrapped : Bool) (n : Node) :
    Inked (o.nodeClosing wrapped n) o (o.endNode wrapped n) := by
  let inside := o.emitComments n.inner
  let closed :=
    if n.isSynthetic then inside
    else (if wrapped then inside.emit ")" else inside).syncTo n.location.last.line
  have hclosed : Inked (if wrapped && !n.isSynthetic then [.code [')']] else []) inside closed := by
    cases hsynthetic : n.isSynthetic with
    | true => simp [closed, hsynthetic, Inked]
    | false =>
      cases wrapped with
      | true =>
        have hparen : Inked [.code [')']] inside (inside.emit ")") := inked_emitChars inside [')']
        simpa [closed, hsynthetic] using hparen.trans (inked_syncTo _ n.location.last.line)
      | false => simpa [closed, hsynthetic] using inked_syncTo inside n.location.last.line
  have hwritten : closed.written = inside.written := by
    cases hsynthetic : n.isSynthetic <;> cases wrapped <;> simp [closed, hsynthetic]
  have htrailing := inked_emitComments closed n.trailing
  rw [remarks, hwritten] at htrailing
  exact ((inked_emitComments o n.inner).trans hclosed).trans htrailing

end Output
end EcmaPhp
