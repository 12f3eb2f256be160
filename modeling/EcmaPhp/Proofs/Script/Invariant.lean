import EcmaPhp.Proofs.Budget.Costs
import EcmaPhp.Proofs.Output.Fixed
import EcmaPhp.Proofs.Script.Written

/-! What holds all through a run, because every step of a run preserves it. -/
namespace EcmaPhp
open Output

namespace Script

/-- What every step of a run preserves. A function is closed with its two points still there. -/
structure Invariant (J : EmitState → Prop) : Prop where
  act {s : EmitState} : J s → ∀ x : Action, J (x.apply s)
  separate {s : EmitState} : J s → J (s.onOutput terminatorToSeparator)
  enter {s : EmitState} : J s → ∀ f : Frame, J (f.enter s)
  exit {s : EmitState} : J s → ∀ (f : Frame) (start : EmitState), J (f.exit start s)
  enterScope {s : EmitState} : J s → J (s.enterScope .function)
  opened {s : EmitState} : J s → ∀ shape : FunctionShape, J (shape.enter s)
  closed {s : EmitState} {p₀ p₁ : Nat} {ps : List Nat} : J s → s.output.points = p₀ :: p₁ :: ps →
    ∀ (shape : FunctionShape) (start : EmitState), J (shape.exit start s).leaveScope

section Runs

variable {J : EmitState → Prop} {env : EmitEnv} {h : Bool} {α : Type} {m : Script h α}
  {s t u : EmitState} {a : α} {xs : List Step}

theorem Invariant.leave (hJ : Invariant J) {shape : FunctionShape} {body : Script h Unit}
    {ys : List Step} (inner : Runs env body (shape.enter s) () t ys) (ht : J t) :
    J (shape.exit s t).leaveScope := by
  let r : FunctionRun := ⟨h, shape, body, body, s, s, t⟩
  obtain ⟨p₀, p₁, ps, hps, -⟩ := exists_points_of_retreat (r := r) inner.points.1
  exact hJ.closed ht hps shape s

theorem Runs.invariant (hr : Runs env m s a t xs) (hJ : Invariant J) (hs : J s) : J t := by
  induction hr with
  | pure a s => exact hs
  | ask _ ih => exact ih hs
  | act _ ih => exact ih (hJ.act hs _)
  | separate _ ih => exact ih (hJ.separate hs)
  | within _ _ ihInner ihRest => exact ihRest (hJ.exit (ihInner (hJ.enter hs _)) _ _)
  | head _ _ ihInner ihRest => exact ihRest (hJ.exit (ihInner (hJ.enter hs _)) _ _)
  | function _ inner _ ihFirst ihInner ihRest =>
    exact ihRest (hJ.leave inner (ihInner (hJ.opened (ihFirst (hJ.enterScope hs)) _)))

/-- It holds wherever a frame is entered. -/
theorem Runs.invariant_of_mem_frame {k : Bool} {β : Type} {f : Frame} {body : Script k β}
    (hr : Runs env m s a t xs) (hJ : Invariant J) (hs : J s) (hmem : .frame f body u ∈ xs) :
    J u := by
  induction hr with
  | pure a s => cases hmem
  | ask _ ih => exact ih hs hmem
  | act _ ih => exact ih (hJ.act hs _) (by simpa using hmem)
  | separate _ ih => exact ih (hJ.separate hs) (by simpa using hmem)
  | within inner _ ihInner ihRest | head inner _ ihInner ihRest =>
    rcases List.mem_cons.mp hmem with heq | hmem
    · cases heq
      exact hs
    · rcases List.mem_append.mp hmem with hmem | hmem
      · exact ihInner (hJ.enter hs _) hmem
      · exact ihRest (hJ.exit (inner.invariant hJ (hJ.enter hs _)) _ _) hmem
  | @function _ _ shape _ _ _ _ _ _ _ _ ws ys zs first inner _ ihFirst ihInner ihRest =>
    have hbrace := hJ.opened (first.invariant hJ (hJ.enterScope hs)) shape
    have hmem : .frame f body u ∈ ws ∨ .frame f body u ∈ ys ∨ .frame f body u ∈ zs := by
      simpa using hmem
    rcases hmem with hmem | hmem | hmem
    · exact ihFirst (hJ.enterScope hs) hmem
    · exact ihInner hbrace hmem
    · exact ihRest (hJ.leave inner (inner.invariant hJ hbrace)) hmem

/-- Once it holds, it holds to the end. -/
theorem Runs.invariant_of_mem_action {x : Action} (hr : Runs env m s a t xs) (hJ : Invariant J)
    (hmem : .action x u ∈ xs) (hu : J (x.apply u)) : J t := by
  induction hr with
  | pure a s => cases hmem
  | ask _ ih => exact ih hmem
  | act rest ih =>
    rcases List.mem_cons.mp hmem with heq | hmem
    · cases heq
      exact rest.invariant hJ hu
    · exact ih hmem
  | separate _ ih => exact ih (by simpa using hmem)
  | @within _ _ _ _ _ _ _ _ _ _ _ ys zs _ rest ihInner ihRest
  | @head _ _ _ _ _ _ _ _ _ _ ys zs _ rest ihInner ihRest =>
    have hmem : .action x u ∈ ys ∨ .action x u ∈ zs := by simpa using hmem
    rcases hmem with hmem | hmem
    · exact rest.invariant hJ (hJ.exit (ihInner hmem) _ _)
    · exact ihRest hmem
  | @function _ _ shape _ _ _ _ _ _ _ _ ws ys zs first inner rest ihFirst ihInner ihRest =>
    have hmem : .action x u ∈ ws ∨ .action x u ∈ ys ∨ .action x u ∈ zs := by simpa using hmem
    rcases hmem with hmem | hmem | hmem
    · have hbrace := hJ.opened (ihFirst hmem) shape
      exact rest.invariant hJ (hJ.leave inner (inner.invariant hJ hbrace))
    · exact rest.invariant hJ (hJ.leave inner (ihInner hmem))
    · exact ihRest hmem

end Runs

theorem invariant_distinct : Invariant EmitState.Distinct where
  act hs x := hs.act x
  separate hs := hs
  enter hs f := hs.enter f
  exit hs f start := hs.exit f start
  enterScope hs := hs.enterScope .function
  opened hs _ := hs
  closed hs _ _ _ := EmitState.Distinct.leaveScope hs

/-- What holds of the output whatever is done to it holds of it all through a run. -/
theorem invariant_output {P : Output → Prop} (hP : Output.Invariant P) :
    Invariant fun s => Stacked s.output ∧ P s.output where
  act := by
    intro s hs x
    rcases x.output_cases s with hgrows | ⟨cs, p, ps, rfl, -, hps⟩
    · exact hP.stacked.grows hs hgrows
    · have hp : s.output.points[0]? = some p := by
        rw [hps]
        rfl
      exact hP.stacked.insertAt hs hs.1 hp cs
  separate hs := hP.stacked.separate hs
  enter := by
    intro s hs f
    by_cases hf : f = .point
    · subst hf
      exact hP.stacked.push hs
    · exact hP.stacked.grows hs (f.grows_enter s hf)
  exit := by
    intro s hs f start
    by_cases hf : f = .point
    · subst hf
      exact hP.stacked.pop hs
    · exact hP.stacked.grows hs (f.grows_exit start s hf)
  enterScope hs := hs
  opened := by
    intro s hs shape
    have hsigned := hP.stacked.push (hP.stacked.grows hs (grows_emit _ shape.signature.text))
    have hbrace := hP.stacked.push (hP.stacked.grows hsigned (grows_openBlock _ "\x7b"))
    exact hP.stacked.grows hbrace (.ite (grows_emit _ " ") (.refl _))
  closed := by
    intro s p₀ p₁ ps hs hps shape start
    have hp₁ : s.output.points[1]? = some p₁ := by
      rw [hps]
      rfl
    have hclause := hP.stacked.insertAt hs hs.1 hp₁ (shape.form.clause s.captures)
    have hp₀ : (s.output.insertAt 1 (shape.form.clause s.captures)).points[0]? =
        some (p₀ + (shape.form.clause s.captures).length) := by
      rw [(insertAt_eq hp₁ _).2, hps]
      rfl
    have hstatements := hP.stacked.insertAt hclause hclause.1 hp₀ (shape.form.statements
      (s.output.gap (s.output.line != start.output.line)) s.captures)
    exact hP.stacked.grows (hP.stacked.pop (hP.stacked.pop hstatements))
      (grows_closeInline _ start.output.line _ _)

/-- The points are always in order. -/
theorem invariant_stacked : Invariant fun s => Stacked s.output := by
  have htrivial : Output.Invariant fun _ => True := by
    constructor <;> intros <;> trivial
  simpa only [and_true] using invariant_output htrivial

end Script
end EcmaPhp
