import EcmaPhp.Proofs.Output.Ink
import EcmaPhp.Proofs.Script.Steps

/-! The code and the comments that a run writes at the end of the output, in order. Text for an
insertion point is not among them. Most scripts end in code of their own or of a part, so that the
end of the output shows what they wrote. -/
namespace EcmaPhp
open Output Ink

def Edit.inks (o : Output) : Edit → List Ink
  | .text cs | .verbatim cs => [.code cs]
  | .terminator => if isTerminated o.tail then [] else [.code [';']]
  | .comments cs => o.remarks cs
  | .newline | .ensureNewline | .breakLine | .realign _ | .mark _ | .insert _ => []

def Action.inks (s : EmitState) : Action → List Ink
  | .edit e => e.inks s.output
  | .register _ | .refer _ | .learnField _ | .note _ => []

namespace Frame

def inksBefore (s : EmitState) : Frame → List Ink
  | .node n wrapped => s.output.nodeOpening wrapped n
  | .block opening _ _ => [.code opening.toList]
  | .indent | .point | .scope _ | .fields _ | .unsourced => []

/-- What is written as a frame is left that was entered in the state `start`. -/
def inksAfter (start s : EmitState) : Frame → List Ink
  | .node n wrapped => s.output.nodeClosing wrapped n
  | .block _ inline closing =>
    [.code (if s.output.line = start.output.line then inline else closing).toList]
  | .indent | .point | .scope _ | .fields _ | .unsourced => []

end Frame

namespace Output

theorem inked_closeInline (o : Output) (firstLine : Int) (inline closing : String) :
    Inked [.code (if o.line = firstLine then inline else closing).toList] o
      (o.closeInline firstLine inline closing) := by
  refine (writes_closeInline o firstLine inline closing).inked ?_
  have hbreak : hard o.missingBreak.text = [] := by
    unfold missingBreak
    split
    · rfl
    · exact hard_breaks 1
  by_cases hline : o.line = firstLine
  · simp [inlineEnd, hline, Writing.ofText, visible]
  · simp [inlineEnd, blockEnd, hline, Writing.append_def, Writing.ofText, visible, hbreak]

/-- A function ends in its brace, whatever is put at its points. -/
theorem endsIn_closeBraces (o : Output) (shape : FunctionShape) (names : List String)
    (firstLine : Int) : (o.closeBraces shape names firstLine).EndsIn [.code ['\x7d']] := by
  let filled := (o.insertCaptures shape.form names (o.line != firstLine)).popPoint.popPoint
  have hclosed :=
    inked_closeInline filled firstLine (if shape.padded then " \x7d" else "\x7d") "\x7d"
  refine EndsIn.of_inked (o := filled) ?_ (by decide)
  have hhard (padded onLine : Bool) :
      hard (if onLine then if padded then " \x7d" else "\x7d" else "\x7d").toList = ['\x7d'] := by
    cases padded <;> cases onLine <;> decide
  have hsame := hhard shape.padded (filled.line = firstLine)
  rw [Inked, shown_cons, shown_nil, visible] at hclosed ⊢
  simp only [decide_eq_true_eq] at hsame
  rw [hsame] at hclosed
  exact hclosed

end Output

namespace Script

/-- What a run writes. -/
def inks {h : Bool} {α : Type} : Script h α → EmitEnv → EmitState → List Ink
  | .pure _, _, _ | .fail _, _, _ => []
  | .ask q next, env, s => (next (q.answer env s)).inks env s
  | .act a next, env, s => a.inks s ++ next.inks env (a.apply s)
  | .separate next, env, s => next.inks env (s.onOutput terminatorToSeparator)
  | .within f body next, env, s =>
    f.inksBefore s ++ (body.inks env (f.enter s) ++
      match body.run env (f.enter s) with
      | .ok b t => f.inksAfter s t ++ (next b).inks env (f.exit s t)
      | .error _ _ => [])
  | .head body next, env, s =>
    Frame.head.inksBefore s ++ (body.inks env (Frame.head.enter s) ++
      match body.run env (Frame.head.enter s) with
      | .ok b t => Frame.head.inksAfter s t ++ (next b).inks env (Frame.head.exit s t)
      | .error _ _ => [])
  | .function shape params body next, env, s =>
    params.inks env (s.enterScope .function) ++
      match params.run env (s.enterScope .function) with
      | .error _ _ => []
      | .ok _ u =>
        .code shape.signature.text.toList :: .code ['\x7b'] :: (body.inks env (shape.enter u) ++
          match body.run env (shape.enter u) with
          | .error _ _ => []
          | .ok _ t =>
            .code ['\x7d'] :: (next t.innermost).inks env (shape.exit u t).leaveScope)

variable {env : EmitEnv} {h : Bool} {α β : Type} {s t u : EmitState} {a : α}

theorem Runs.inks_bind {m : Script h α} {xs : List Step} (hr : Runs env m s a u xs)
    (f : α → Script h β) : (m >>= f).inks env s = m.inks env s ++ (f a).inks env u := by
  induction hr with
  | pure a s => rfl
  | ask _ ih => exact ih f
  | @act _ _ x next s _ _ _ _ ih =>
    change x.inks s ++ (next >>= f).inks env (x.apply s) = _
    rw [ih, inks, List.append_assoc]
  | separate _ ih => exact ih f
  | @within _ _ _ fr body next s _ u b _ _ _ inner _ _ ih =>
    change (Script.within fr body fun b => next b >>= f).inks env s = _
    simp [inks, inner.run_eq.1, ih]
  | @head _ _ _ body next s _ u b _ _ _ inner _ _ ih =>
    change (Script.head body fun b => next b >>= f).inks env s = _
    simp [inks, inner.run_eq.1, ih]
  | @function _ _ shape params body next _ _ _ _ _ _ _ _ first inner _ _ _ ih =>
    change (Script.function shape params body fun b => next b >>= f).inks env _ = _
    simp [inks, first.run_eq.1, inner.run_eq.1, ih]

@[simp] theorem inks_pure (a : α) : (Pure.pure a : Script h α).inks env s = [] := rfl

theorem Runs.inks_within {f : Frame} {m : Script h α} {xs : List Step}
    (hr : Runs env m (f.enter s) a u xs) : (EmitM.within f m).inks env s =
      f.inksBefore s ++ (m.inks env (f.enter s) ++ f.inksAfter s u) := by
  simp [EmitM.within, inks, hr.run_eq.1]

/-- After every run, the end of the output shows what the run wrote. -/
def Settles (env : EmitEnv) (m : Script h α) : Prop :=
  ∀ s a t xs, Runs env m s a t xs → t.output.EndsIn (m.inks env s)

/-- If the end of the output shows what was written before a run, it does so after it. -/
def Retains (env : EmitEnv) (m : Script h α) : Prop :=
  ∀ s a t xs, Runs env m s a t xs →
    ∀ ys, s.output.EndsIn ys → t.output.EndsIn (ys ++ m.inks env s)

theorem Settles.right {m : Script h α} {f : α → Script h β} (hf : ∀ a, (f a).Settles env) :
    (m >>= f).Settles env := by
  intro s b t xs hr
  obtain ⟨a, u, ys, zs, hm, hrest, -⟩ := hr.of_bind
  rw [hm.inks_bind]
  exact (hf a u b t zs hrest).after _

theorem Settles.left {m : Script h α} {f : α → Script h β} (hm : m.Settles env)
    (hf : ∀ a, (f a).Retains env) : (m >>= f).Settles env := by
  intro s b t xs hr
  obtain ⟨a, u, ys, zs, hfirst, hrest, -⟩ := hr.of_bind
  rw [hfirst.inks_bind]
  exact hf a u b t zs hrest _ (hm s a u ys hfirst)

theorem Settles.retains {m : Script h α} (hm : m.Settles env) : m.Retains env :=
  fun s a t xs hr ys _ => (hm s a t xs hr).after ys

theorem settles_fail (failure : Failure) : (EmitM.fail failure : EmitM α).Settles env := by
  intro s a t xs hr
  cases hr

theorem retains_pure (a : α) : (Pure.pure a : Script h α).Retains env := by
  intro s b t xs hr ys hs
  obtain ⟨-, rfl, -⟩ := hr.of_pure
  simpa using hs

theorem retains_emit (text : String) : (EmitM.emit text : Script h Unit).Retains env := by
  intro s a t xs hr ys hs
  obtain ⟨rfl, -⟩ := hr.of_act
  exact hs.inked (inked_emitChars s.output text.toList)

theorem retains_ensureTerminator : (EmitM.ensureTerminator : Script h Unit).Retains env := by
  intro s a t xs hr ys hs
  obtain ⟨rfl, -⟩ := hr.of_act
  have hinked : Inked (Edit.inks s.output .terminator) s.output s.output.ensureTerminator := by
    refine (writes_ensureTerminator s.output).inked ?_
    rw [missingTerminator, Edit.inks]
    split
    · rfl
    · simp [Writing.ofText, visible]
  have hend := hs.inked hinked
  rwa [← List.append_nil (Edit.inks ..)] at hend

theorem settles_emitChars {cs : List Char} (hcs : hard cs ≠ []) :
    (EmitM.emitChars cs : Script h Unit).Settles env := by
  intro s a t xs hr
  obtain ⟨rfl, -⟩ := hr.of_act
  have hcode : shownCode [.code cs] ≠ [] := by simpa [visibleCode] using hcs
  exact .of_inked (inked_emitChars s.output cs) hcode

theorem settles_emit {text : String} (htext : hard text.toList ≠ []) :
    (EmitM.emit text : Script h Unit).Settles env :=
  settles_emitChars htext

theorem settles_around {n : Node} {parens : Parens} {m : Script h Unit} (hm : m.Settles env) :
    (EmitM.around n parens m).Settles env := by
  refine .right fun tokens => ?_
  intro s a t xs hr
  obtain ⟨u, ys, hbody, rfl, -⟩ := hr.of_within
  rw [hbody.inks_within]
  exact ((hm _ _ _ _ hbody).inked (inked_endNode u.output _ n)).after _

theorem settles_indent {m : Script h α} (hm : m.Settles env) :
    (EmitM.within .indent m).Settles env := by
  intro s a t xs hr
  obtain ⟨u, ys, hbody, rfl, -⟩ := hr.of_within
  have hdecreased : Inked [] u.output u.output.decreaseIndent :=
    (writes_decreaseIndent u.output).inked rfl
  rw [hbody.inks_within]
  exact ((hm _ _ _ _ hbody).inked hdecreased).after _

/-- A block ends in what closes it. -/
theorem settles_block {opening inline closing : String} {m : Script h α}
    (hinline : hard inline.toList ≠ []) (hclosing : hard closing.toList ≠ []) :
    (EmitM.within (.block opening inline closing) m).Settles env := by
  intro s a t xs hr
  obtain ⟨u, ys, hbody, rfl, -⟩ := hr.of_within
  rw [hbody.inks_within]
  have hcode : shownCode (Frame.inksAfter s u (.block opening inline closing)) ≠ [] := by
    rw [Frame.inksAfter]
    split
    · simpa [visibleCode] using hinline
    · simpa [visibleCode] using hclosing
  have hclosed := inked_closeInline u.output s.output.line inline closing
  exact ((EndsIn.of_inked hclosed hcode).after _).after _

/-- A function ends in its brace. -/
theorem settles_inFunction {shape : FunctionShape} {params body : EmitM Unit} :
    (EmitM.inFunction shape params body).Settles env := by
  intro s a t xs hr
  cases hr with
  | @function _ _ _ _ _ _ _ _ u v _ _ _ _ first inner rest =>
    obtain ⟨-, rfl, -⟩ := rest.of_pure
    have hclosed := endsIn_closeBraces v.output shape v.captures u.output.line
    simp only [EmitM.inFunction, inks, first.run_eq.1, inner.run_eq.1, inks_pure]
    exact (((hclosed.after _).after [_]).after [_]).after _

end Script
end EcmaPhp
