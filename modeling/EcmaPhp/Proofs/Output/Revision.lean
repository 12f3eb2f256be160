import EcmaPhp.Emit.Script
import EcmaPhp.Proofs.Output.Text
import Mathlib.Data.List.Forall2

/-! Work at the end of the output. All that the output does besides inserting and separating is to
drop blanks from its end and to write behind what is left. -/
namespace EcmaPhp.Output

/-- Points move back, but not behind `floor`. -/
def Retreat (floor : Nat) : List Nat → List Nat → Prop :=
  List.Forall₂ fun p p' => p' ≤ p ∧ min p floor ≤ p'

namespace Retreat

variable {floor : Nat} {ps ps' ps'' : List Nat}

theorem refl (floor : Nat) (ps : List Nat) : Retreat floor ps ps :=
  List.forall₂_same.mpr fun p _ => ⟨le_refl p, min_le_left p floor⟩

theorem trans (h : Retreat floor ps ps') (h' : Retreat floor ps' ps'') : Retreat floor ps ps'' := by
  induction h generalizing ps'' with
  | nil => exact h'
  | cons hp _ ih =>
    cases h' with
    | cons hp' hrest => exact .cons ⟨by omega, by omega⟩ (ih hrest)

theorem mono {floor' : Nat} (h : Retreat floor ps ps') (hle : floor' ≤ floor) :
    Retreat floor' ps ps' :=
  List.Forall₂.imp (fun _ _ hp => ⟨hp.1, by omega⟩) h

theorem clamp {n : Nat} (h : floor ≤ n) (ps : List Nat) : Retreat floor ps (ps.map (min · n)) :=
  List.forall₂_map_right_iff.mpr (List.forall₂_same.mpr fun _ _ => ⟨by omega, by omega⟩)

theorem length_eq (h : Retreat floor ps ps') : ps'.length = ps.length :=
  (List.Forall₂.length_eq h).symm

theorem drop (n : Nat) (h : Retreat floor ps ps') : Retreat floor (ps.drop n) (ps'.drop n) :=
  List.forall₂_drop n h

/-- An upper bound of the points stays one. -/
theorem lt_of_forall_lt {bound : Nat} (h : Retreat floor ps ps') (hps : ∀ p ∈ ps, p < bound) :
    ∀ p ∈ ps', p < bound := by
  induction h with
  | nil => simp
  | cons hp _ ih =>
    simp only [List.mem_cons, forall_eq_or_imp] at hps ⊢
    exact ⟨lt_of_le_of_lt hp.1 hps.1, ih hps.2⟩

theorem le_of_forall_le {bound : Nat} (h : Retreat floor ps ps') (hps : ∀ p ∈ ps, p ≤ bound) :
    ∀ p ∈ ps', p ≤ bound := fun p hp =>
  Nat.le_of_lt_succ (h.lt_of_forall_lt (fun q hq => Nat.lt_succ_of_le (hps q hq)) p hp)

end Retreat

/-- No point lies behind the end of the text. -/
def Bounded (o : Output) : Prop := ∀ p ∈ o.points, p ≤ o.text.length

/-- Blanks go from the end, text comes, and points move back over the blanks at most. -/
def Revises (o o' : Output) : Prop :=
  ∃ kept blanks added, o.text = kept ++ blanks ∧ (∀ c ∈ blanks, Text.isBlank c = true) ∧
    o'.text = kept ++ added ∧ Retreat kept.length o.points o'.points ∧ (Bounded o → Bounded o')

namespace Revises

variable {o o' o'' : Output}

theorem of_eq (ht : o'.text = o.text) (hp : o'.points = o.points) : Revises o o' :=
  ⟨o.text, [], [], by simp, by simp, by simp [ht], hp ▸ Retreat.refl _ _, by simp [Bounded, ht, hp]⟩

theorem trans (h : Revises o o') (h' : Revises o' o'') : Revises o o'' := by
  obtain ⟨kept, blanks, added, ho, hblank, ho', hpoints, hbound⟩ := h
  obtain ⟨kept', blanks', added', ho₁, hblank', ho'', hpoints', hbound'⟩ := h'
  rw [ho'] at ho₁
  -- The second step keeps more than the first one, or drops all that the first one added.
  rcases List.append_eq_append_iff.mp ho₁ with ⟨more, rfl, rfl⟩ | ⟨cut, rfl, rfl⟩
  · exact ⟨kept, blanks, more ++ added', ho, hblank, by simp [ho''],
      hpoints.trans (hpoints'.mono (by simp)), hbound' ∘ hbound⟩
  · refine ⟨kept', cut ++ blanks, added', by simp [ho], ?_, ho'',
      (hpoints.mono (by simp)).trans hpoints', hbound' ∘ hbound⟩
    intro c hc
    rcases List.mem_append.mp hc with hc | hc
    · exact hblank' c (List.mem_append_left _ hc)
    · exact hblank c hc

end Revises

variable (o : Output)

theorem revises_emitChars (cs : List Char) : Revises o (o.emitChars cs) := by
  refine ⟨o.text, [], cs, by simp, by simp, by simp, by simpa using Retreat.refl _ _, ?_⟩
  intro h p hp
  rw [points_emitChars] at hp
  have := h p hp
  simp only [text_emitChars, List.length_append]
  omega

theorem revises_trimBlanks : Revises o o.trimBlanks := by
  obtain ⟨cut, htext, hblank⟩ := Text.trimEnd_append_blanks (p := Text.isBlank) o.text
  refine ⟨_, cut, [], htext, hblank, by simp [text_trimBlanks], ?_, ?_⟩
  · rw [points_trimBlanks, text_trimBlanks]
    exact Retreat.clamp (le_refl _) _
  · intro _ p hp
    rw [points_trimBlanks] at hp
    obtain ⟨q, -, rfl⟩ := List.mem_map.mp hp
    exact min_le_right _ _

theorem bounded_dropTail (size : Nat) : Bounded (o.dropTail size) := by
  intro p hp
  rw [points_dropTail] at hp
  obtain ⟨q, -, rfl⟩ := List.mem_map.mp hp
  rw [text_dropTail, List.length_take]
  omega

/-- A tab at the end may go. -/
theorem revises_dropTail_tab (h : o.endsWith ['\t'] = true) : Revises o (o.dropTail 1) := by
  obtain ⟨kept, hkept⟩ :=
    (List.isSuffixOf_iff_suffix.mp h).trans (o.chunks.lastChunks_suffix _)
  change kept ++ ['\t'] = o.text at hkept
  refine ⟨kept, ['\t'], [], hkept.symm, by simp [Text.isBlank], ?_, ?_,
    fun _ => bounded_dropTail o 1⟩
  · simp [text_dropTail, ← hkept]
  · rw [points_dropTail, ← hkept]
    exact Retreat.clamp (by simp) _

/-- Work at the end of the output, in as many strokes as it takes: text is written, blanks are
trimmed or a tab goes. -/
inductive Grows : Output → Output → Prop where
  | of_eq {o o' : Output} (chunks : o'.chunks = o.chunks) (points : o'.points = o.points) :
    Grows o o'
  | emitChars (o : Output) (cs : List Char) : Grows o (o.emitChars cs)
  | trimBlanks (o : Output) : Grows o o.trimBlanks
  | dropTab {o : Output} (h : o.endsWith ['\t'] = true) : Grows o (o.dropTail 1)
  | trans {o o' o'' : Output} (first : Grows o o') (rest : Grows o' o'') : Grows o o''

namespace Grows

variable {o o' o'' : Output}

theorem refl (o : Output) : Grows o o := of_eq rfl rfl

theorem ite {c : Prop} [Decidable c] (h : Grows o o') (h' : Grows o o'') :
    Grows o (if c then o' else o'') := by
  split
  · exact h
  · exact h'

theorem revises (h : Grows o o') : Revises o o' := by
  induction h with
  | of_eq hchunks hpoints => exact .of_eq (by rw [text, hchunks, text]) hpoints
  | emitChars o cs => exact revises_emitChars o cs
  | trimBlanks o => exact revises_trimBlanks o
  | dropTab h => exact revises_dropTail_tab _ h
  | trans _ _ ihFirst ihRest => exact ihFirst.trans ihRest

end Grows

variable (o : Output)

theorem grows_emit (s : String) : Grows o (o.emit s) := Grows.emitChars o s.toList

theorem grows_emitVerbatim (cs : List Char) : Grows o (o.emitVerbatim cs) :=
  (Grows.emitChars o cs).trans (.of_eq rfl rfl)

theorem grows_increaseIndent : Grows o o.increaseIndent :=
  (Grows.of_eq rfl rfl : Grows o { o with indent := o.indent + 1 }).trans
    (.ite (Grows.emitChars _ _) (.refl _))

theorem grows_decreaseIndent : Grows o o.decreaseIndent := by
  rw [decreaseIndent]
  split
  · rename_i h
    have hsame : Grows o { o with indent := o.indent - 1 } := .of_eq rfl rfl
    exact hsame.trans (.dropTab h)
  · exact .of_eq rfl rfl

theorem grows_newline : Grows o o.newline :=
  ((Grows.trimBlanks o).trans (Grows.emitChars _ _)).trans (.of_eq rfl rfl)

theorem grows_ensureNewline : Grows o o.ensureNewline := .ite (.refl o) (grows_newline o)

theorem grows_breakLine : Grows o o.breakLine := (grows_newline o).trans (.of_eq rfl rfl)

theorem grows_newlines (count : Nat) : Grows o (o.newlines count) := by
  induction count generalizing o with
  | zero => exact .refl o
  | succ count ih => exact (grows_newline o).trans (ih o.newline)

theorem grows_syncTo (line : Int) : Grows o (o.syncTo line) := grows_newlines o _

theorem grows_skipLines (first last : Int) : Grows o (o.skipLines first last) :=
  .ite (.of_eq rfl rfl) (.refl o)

theorem grows_ensureTerminator : Grows o o.ensureTerminator :=
  .ite (.refl o) (grows_emit o ";")

theorem grows_openBlock (s : String) : Grows o (o.openBlock s) :=
  (grows_emit o s).trans (grows_increaseIndent _)

theorem grows_closeBlock (firstLine : Int) (s : String) : Grows o (o.closeBlock firstLine s) :=
  ((Grows.ite (.refl o) (grows_ensureNewline o)).trans (grows_decreaseIndent _)).trans
    (grows_emit _ s)

theorem grows_closeInline (firstLine : Int) (inline closing : String) :
    Grows o (o.closeInline firstLine inline closing) :=
  .ite ((grows_decreaseIndent o).trans (grows_emit _ inline))
    (grows_closeBlock o firstLine closing)

theorem grows_emitLines (lines : List (List Char)) : Grows o (o.emitLines lines) := by
  induction lines generalizing o with
  | nil => exact .refl o
  | cons line rest ih =>
    cases rest with
    | nil => exact Grows.emitChars o line
    | cons next rest =>
      exact ((Grows.emitChars o line).trans (grows_newline _)).trans
        (ih (o.emitChars line).newline)

theorem grows_emitComment (c : Comment) : Grows o (o.emitComment c) := by
  refine .ite (.refl o) ?_
  have synced : Grows o (if c.location.isUnknown then o else o.syncTo c.location.first.line) :=
    .ite (.refl o) (grows_syncTo o _)
  have spaced (o : Output) : Grows o (if o.needsSpace then o.emit " " else o) :=
    .ite (grows_emit o " ") (.refl o)
  have ended (o : Output) : Grows o ((if c.isBlock then o else o.newline).markWritten c) :=
    (Grows.ite (.refl o) (grows_newline o)).trans (.of_eq rfl rfl)
  exact ((synced.trans (spaced _)).trans (grows_emitLines _ _)).trans (ended _)

theorem grows_emitComments (cs : List Comment) : Grows o (o.emitComments cs) := by
  induction cs generalizing o with
  | nil => exact .refl o
  | cons c rest ih => exact (grows_emitComment o c).trans (ih (o.emitComment c))

theorem grows_markWritten (cs : List Comment) : Grows o (cs.foldl markWritten o) := by
  induction cs generalizing o with
  | nil => exact .refl o
  | cons c rest ih =>
    have hsame : Grows o (o.markWritten c) := .of_eq rfl rfl
    exact hsame.trans (ih (o.markWritten c))

theorem grows_beginNode (wrapped : Bool) (n : Node) : Grows o (o.beginNode wrapped n) := by
  refine (grows_emitComments o n.leading).trans (.ite (.refl _) ?_)
  refine Grows.trans ?_ (.ite (grows_emit _ "(") (.refl _))
  refine Grows.trans ?_ (grows_syncTo _ n.location.first.line)
  split
  · exact grows_skipLines _ _ _
  · exact .refl _

theorem grows_endNode (wrapped : Bool) (n : Node) : Grows o (o.endNode wrapped n) := by
  refine Grows.trans ?_ (grows_emitComments _ n.trailing)
  refine (grows_emitComments o n.inner).trans (.ite (.refl _) ?_)
  exact (Grows.ite (grows_emit _ ")") (.refl _)).trans (grows_syncTo _ n.location.last.line)

end EcmaPhp.Output

namespace EcmaPhp
open Output

/-- Every edit but an insertion works at the end of the output. -/
theorem Edit.grows_apply (e : Edit) (o : Output) (h : ∀ cs, e ≠ .insert cs) :
    Grows o (e.apply o) := by
  cases e with
  | text cs => exact Grows.emitChars o cs
  | verbatim cs => exact grows_emitVerbatim o cs
  | newline => exact grows_newline o
  | ensureNewline => exact grows_ensureNewline o
  | breakLine => exact grows_breakLine o
  | realign line => exact .of_eq rfl rfl
  | terminator => exact grows_ensureTerminator o
  | comments cs => exact grows_emitComments o cs
  | mark cs => exact grows_markWritten o cs
  | insert cs => exact absurd rfl (h cs)

/-- Frames that have no insertion point work at the end of the output. -/
theorem Frame.grows_enter (f : Frame) (s : EmitState) (h : f ≠ .point) :
    Grows s.output (f.enter s).output := by
  cases f with
  | node n wrapped => exact grows_beginNode _ wrapped n
  | indent => exact grows_increaseIndent _
  | block opening inline closing => exact grows_openBlock _ opening
  | point => exact absurd rfl h
  | scope kind => exact .refl _
  | fields keys => exact .refl _
  | unsourced => exact .refl _

theorem Frame.grows_exit (f : Frame) (start s : EmitState) (h : f ≠ .point) :
    Grows s.output (f.exit start s).output := by
  cases f with
  | node n wrapped => exact grows_endNode _ wrapped n
  | indent => exact grows_decreaseIndent _
  | block opening inline closing => exact grows_closeInline _ _ inline closing
  | point => exact absurd rfl h
  | scope kind => exact .refl _
  | fields keys => exact .refl _
  | unsourced => exact .of_eq rfl rfl

theorem Frame.revises_enter (f : Frame) (s : EmitState) (h : f ≠ .point) :
    Revises s.output (f.enter s).output :=
  (f.grows_enter s h).revises

theorem Frame.revises_exit (f : Frame) (start s : EmitState) (h : f ≠ .point) :
    Revises s.output (f.exit start s).output :=
  (f.grows_exit start s h).revises

end EcmaPhp
