import EcmaPhp.Proofs.Budget.Costs
import EcmaPhp.Proofs.Output.Comments
import Mathlib.Algebra.Order.BigOperators.Group.List
import Mathlib.Algebra.Order.Group.Nat

/-! The comments that a run writes. Their list is what the output counts as written, and no comment
is in it more often than the steps of the run are charged for it. -/
namespace EcmaPhp
open Output

/-- How a comment gets into the output: where it stands in the source, or before the declaration of
a field. -/
inductive Way where
  | inPlace
  | moved
  deriving DecidableEq

namespace Output

/-- The comments that are written where comments are emitted. -/
def inPlace (o : Output) (cs : List Comment) : List (Comment × Way) :=
  (fresh o.written cs).map (·, .inPlace)

theorem fresh_append (written : List Nat) (cs ds : List Comment) :
    fresh written (cs ++ ds) =
      fresh written cs ++ fresh (((fresh written cs).map (·.id)).reverse ++ written) ds := by
  induction cs generalizing written with
  | nil => rfl
  | cons c rest ih =>
    rw [List.cons_append, fresh, fresh]
    split
    · exact ih written
    · simp [ih]

theorem written_emitComments_append (o o' : Output) (cs ds : List Comment)
    (h : o'.written = (o.emitComments cs).written) :
    (o'.emitComments ds).written = ((o.inPlace (cs ++ ds)).map (·.1.id)).reverse ++ o.written := by
  rw [written_emitComments, h, written_emitComments, inPlace, fresh_append]
  simp [Function.comp_def]

end Output

/-- The comments that an action writes. -/
def Action.writings (s : EmitState) : Action → List (Comment × Way)
  | .edit (.comments cs) => s.output.inPlace cs
  | .edit (.mark cs) => cs.map (·, .moved)
  | _ => []

namespace Frame

/-- The comments that are written as a frame is entered. -/
def writingsBefore (s : EmitState) : Frame → List (Comment × Way)
  | .node n _ => s.output.inPlace n.leading
  | _ => []

/-- The comments that are written as a frame is left. -/
def writingsAfter (s : EmitState) : Frame → List (Comment × Way)
  | .node n _ => s.output.inPlace (n.inner ++ n.trailing)
  | _ => []

@[simp] theorem writingsBefore_head (s : EmitState) : head.writingsBefore s = [] := rfl

@[simp] theorem writingsAfter_head (s : EmitState) : head.writingsAfter s = [] := rfl

end Frame

namespace Script

/-- The comments that a run writes, in order. -/
def writings {h : Bool} {α : Type} : Script h α → EmitEnv → EmitState → List (Comment × Way)
  | .pure _, _, _ | .fail _, _, _ => []
  | .ask q next, env, s => (next (q.answer env s)).writings env s
  | .act a next, env, s => a.writings s ++ next.writings env (a.apply s)
  | .separate next, env, s => next.writings env (s.onOutput terminatorToSeparator)
  | .within f body next, env, s =>
    f.writingsBefore s ++ (body.writings env (f.enter s) ++
      match body.run env (f.enter s) with
      | .ok b t => f.writingsAfter t ++ (next b).writings env (f.exit s t)
      | .error _ _ => [])
  | .head body next, env, s =>
    body.writings env (Frame.head.enter s) ++
      match body.run env (Frame.head.enter s) with
      | .ok b t => (next b).writings env (Frame.head.exit s t)
      | .error _ _ => []
  | .function shape params body next, env, s =>
    params.writings env (s.enterScope .function) ++
      match params.run env (s.enterScope .function) with
      | .error _ _ => []
      | .ok _ u => body.writings env (shape.enter u) ++
        match body.run env (shape.enter u) with
        | .error _ _ => []
        | .ok _ t => (next t.innermost).writings env (shape.exit u t).leaveScope

end Script

theorem Action.written_apply (x : Action) (s : EmitState) :
    (x.apply s).output.written = ((x.writings s).map (·.1.id)).reverse ++ s.output.written := by
  cases x with
  | edit e =>
    change (e.apply s.output).written = _
    cases e with
    | comments cs => exact (written_emitComments s.output cs).trans (by simp [writings, inPlace])
    | mark cs =>
      exact (written_markWritten s.output cs).trans (by simp [writings, Function.comp_def])
    | _ => simp [Edit.apply, writings, realign]
  | learnField key =>
    simp only [Action.apply, EmitState.learnField]
    split <;> rfl
  | register n => rfl
  | refer n => rfl
  | note e => rfl

theorem Frame.written_enter (f : Frame) (s : EmitState) :
    (f.enter s).output.written =
      ((f.writingsBefore s).map (·.1.id)).reverse ++ s.output.written := by
  cases f with
  | node n wrapped =>
    change (s.output.beginNode wrapped n).written = _
    rw [written_beginNode, written_emitComments, writingsBefore, inPlace, List.map_map]
    rfl
  | _ =>
    simp [Frame.enter, Frame.writingsBefore, EmitState.onOutput, EmitState.enterScope, pushPoint]

theorem Frame.written_exit (f : Frame) (start s : EmitState) :
    (f.exit start s).output.written =
      ((f.writingsAfter s).map (·.1.id)).reverse ++ s.output.written := by
  cases f with
  | node n wrapped =>
    apply written_emitComments_append
    split
    · rfl
    · rw [written_syncTo]
      split <;> simp
  | _ =>
    simp [Frame.exit, Frame.writingsAfter, EmitState.onOutput, EmitState.leaveScope, popPoint,
      endUnsourced]

namespace Script

variable {env : EmitEnv} {h : Bool} {α : Type} {m : Script h α} {s t u : EmitState} {a : α}
  {xs : List Step}

/-- The output counts the comments that are written, and no others. -/
theorem Runs.written (hr : Runs env m s a t xs) :
    t.output.written = ((m.writings env s).map (·.1.id)).reverse ++ s.output.written := by
  induction hr with
  | pure a s => rfl
  | ask _ ih => exact ih
  | @act _ _ x _ s _ _ _ _ ih => simp [ih, x.written_apply, writings]
  | separate _ ih => simp [ih, writings, EmitState.onOutput]
  | @within _ _ _ f _ _ s _ u _ _ _ _ inner _ ihInner ihRest =>
    simp [ihRest, f.written_exit, ihInner, f.written_enter, writings, inner.run_eq.1]
  | head inner _ ihInner ihRest =>
    simp [ihRest, Frame.head.written_exit, ihInner, Frame.head.written_enter, writings,
      inner.run_eq.1]
  | @function _ _ shape _ _ _ s _ u v _ _ _ _ first inner _ ihFirst ihInner ihRest =>
    have hopened : (shape.enter u).output.written = u.output.written :=
      written_openBraces u.output shape
    have hclosed : (shape.exit u v).leaveScope.output.written = v.output.written :=
      written_closeBraces v.output shape _ _
    have hstart : (s.enterScope .function).output.written = s.output.written := rfl
    simp [ihRest, hclosed, ihInner, hopened, ihFirst, hstart, writings, first.run_eq.1,
      inner.run_eq.1]

/-- What an action of a run writes is written by the run. -/
theorem Runs.writings_subset {x : Action} (hr : Runs env m s a t xs) (hmem : .action x u ∈ xs) :
    x.writings u ⊆ m.writings env s := by
  induction hr with
  | pure a s => cases hmem
  | ask _ ih => exact ih hmem
  | act _ ih =>
    rcases List.mem_cons.mp hmem with heq | hmem
    · cases heq
      exact List.subset_append_left _ _
    · exact List.subset_append_of_subset_right _ (ih hmem)
  | separate _ ih => exact ih (by simpa using hmem)
  | within inner _ ihInner ihRest | head inner _ ihInner ihRest =>
    rw [writings, inner.run_eq.1]
    intro w hw
    rcases List.mem_cons.mp hmem with heq | hmem
    · cases heq
    · rcases List.mem_append.mp hmem with hmem | hmem
      · simp [ihInner hmem hw]
      · simp [ihRest hmem hw]
  | @function _ _ _ _ _ _ _ _ _ _ _ vs ys zs first inner _ ihFirst ihInner ihRest =>
    have hmem : .action x u ∈ vs ∨ .action x u ∈ ys ∨ .action x u ∈ zs := by simpa using hmem
    rw [writings, first.run_eq.1]
    dsimp only
    rw [inner.run_eq.1]
    intro w hw
    rcases hmem with hmem | hmem | hmem
    · simp [ihFirst hmem hw]
    · simp [ihInner hmem hw]
    · simp [ihRest hmem hw]

end Script

section Charges

variable (τ : Tariff)

theorem Tariff.comments_inPlace_le (o : Output) (cs : List Comment) :
    τ.comments ((o.inPlace cs).map (·.1)) ≤ τ.comments cs := by
  have hfresh : (o.inPlace cs).map (·.1) = fresh o.written cs := by
    simp [inPlace, Function.comp_def]
  rw [hfresh]
  exact ((fresh_sublist o.written cs).map τ.comment).sum_le_sum (fun _ _ => Nat.zero_le _)

theorem Action.comments_writings_le (x : Action) (s : EmitState) :
    τ.comments ((x.writings s).map (·.1)) ≤ x.charge τ := by
  cases x with
  | edit e =>
    cases e with
    | comments cs => exact τ.comments_inPlace_le s.output cs
    | mark cs => simp [writings, charge, Edit.charge, Function.comp_def]
    | _ => exact Nat.zero_le _
  | _ => exact Nat.zero_le _

theorem Frame.comments_writings_le (f : Frame) (s t : EmitState) :
    τ.comments ((f.writingsBefore s).map (·.1)) + τ.comments ((f.writingsAfter t).map (·.1)) ≤
      f.charge τ := by
  cases f with
  | node n wrapped =>
    have hbefore := τ.comments_inPlace_le s.output n.leading
    have hafter := τ.comments_inPlace_le t.output (n.inner ++ n.trailing)
    rw [Tariff.comments_append] at hafter
    simp only [writingsBefore, writingsAfter, charge, Tariff.own]
    omega
  | _ => exact Nat.zero_le _

/-- A comment is not written more often than the steps of a run are charged for it. -/
theorem Script.comments_writings_le {h : Bool} {α : Type} (m : Script h α) (env : EmitEnv)
    (s : EmitState) : τ.comments ((m.writings env s).map (·.1)) ≤ Step.total τ (m.steps env s) := by
  induction m generalizing s with
  | pure x => exact Nat.zero_le _
  | fail failure => exact Nat.zero_le _
  | ask q next ih => exact ih _ s
  | act x next ih =>
    have hx := x.comments_writings_le τ s
    have hrest := ih (x.apply s)
    simp only [writings, steps, List.map_append, Tariff.comments_append, Step.total_cons,
      Step.charge]
    omega
  | separate next ih =>
    have hrest := ih (s.onOutput terminatorToSeparator)
    simp only [writings, steps, Step.total_cons]
    omega
  | within f body next ihBody ih =>
    have hinner := ihBody (f.enter s)
    simp only [writings, steps, List.map_append, Tariff.comments_append, Step.total_cons,
      Step.total_append, Step.charge]
    cases hrun : body.run env (f.enter s) with
    | error failure t =>
      have hframe := f.comments_writings_le τ s t
      simp only [List.map_nil, Tariff.comments_nil, Step.total_nil]
      omega
    | ok y t =>
      have hframe := f.comments_writings_le τ s t
      have hrest := ih y (f.exit s t)
      simp only [List.map_append, Tariff.comments_append]
      omega
  | head body next ihBody ih =>
    have hinner := ihBody (Frame.head.enter s)
    simp only [writings, steps, List.map_append, Tariff.comments_append, Step.total_cons,
      Step.total_append]
    cases hrun : body.run env (Frame.head.enter s) with
    | error failure t =>
      simp only [List.map_nil, Tariff.comments_nil, Step.total_nil]
      omega
    | ok y t =>
      have hrest := ih y (Frame.head.exit s t)
      dsimp only
      omega
  | function shape params body next ihParams ihBody ih =>
    have hfirst := ihParams (s.enterScope .function)
    simp only [writings, steps, List.map_append, Tariff.comments_append, Step.total_append]
    cases hrun : params.run env (s.enterScope .function) with
    | error failure u =>
      simp only [List.map_nil, Tariff.comments_nil, Step.total_nil]
      omega
    | ok y u =>
      have hinner := ihBody (shape.enter u)
      simp only [List.map_append, Tariff.comments_append, Step.total_append]
      cases hrun' : body.run env (shape.enter u) with
      | error failure t =>
        simp only [List.map_nil, Tariff.comments_nil, Step.total_nil]
        omega
      | ok z t =>
        have hrest := ih t.innermost (shape.exit u t).leaveScope
        simp only [Step.total_cons, Step.charge]
        omega

end Charges
end EcmaPhp
