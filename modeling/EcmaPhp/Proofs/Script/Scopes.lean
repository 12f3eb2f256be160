import EcmaPhp.Proofs.Scope.Evolution
import EcmaPhp.Proofs.Script.Steps

/-! What a run does to the scopes around it, and where its frames and functions stand in it. -/
namespace EcmaPhp
open Scopes

/-- The scopes that a frame opens. -/
def Frame.scopes : Frame → Scopes
  | .scope kind => [{ kind }]
  | _ => []

theorem Frame.scopes_enter (f : Frame) (s : EmitState) :
    (f.enter s).scopes = f.scopes ++ s.scopes := by
  cases f <;> rfl

theorem Frame.scopes_exit (f : Frame) (start s : EmitState) :
    (f.exit start s).scopes = s.scopes.drop f.scopes.length := by
  cases f <;> rfl

theorem Action.evolves (x : Action) (s : EmitState) : s.scopes.Evolves (x.apply s).scopes := by
  cases x with
  | register n => exact .register s.scopes n
  | refer n => exact .refer s.scopes n
  | learnField key =>
    simp only [Action.apply, EmitState.learnField]
    split <;> exact .refl _
  | edit e => exact .refl _
  | note e => exact .refl _

namespace Script

variable {env : EmitEnv} {h : Bool} {α : Type} {m : Script h α} {s t u : EmitState} {a : α}
  {xs : List Step}

/-- A run gives back the scopes that it got, evolved. -/
theorem Runs.evolves (hr : Runs env m s a t xs) : s.scopes.Evolves t.scopes := by
  induction hr with
  | pure a s => exact .refl s.scopes
  | ask _ ih => exact ih
  | @act _ _ x _ s _ _ _ _ ih => exact (x.evolves s).trans ih
  | separate _ ih => exact ih
  | @within _ _ _ f _ _ s _ u _ _ _ _ _ _ ihInner ihRest =>
    rw [f.scopes_enter] at ihInner
    rw [f.scopes_exit] at ihRest
    exact ihInner.of_append.trans ihRest
  | head _ _ ihInner ihRest => exact ihInner.trans ihRest
  | @function _ _ _ _ _ _ s _ u v _ _ _ _ _ _ _ ihFirst ihInner ihRest =>
    have hbody : ([{ kind := .function }] ++ s.scopes : Scopes).Evolves v.scopes :=
      ihFirst.trans ihInner
    exact hbody.of_append.trans ihRest

/-- The scopes around a run are the outermost ones wherever something happens in it. -/
def Around (s t : EmitState) (x : Action) (u : EmitState) : Prop :=
  ∃ k, Evolves s.scopes (u.scopes.drop k) ∧ Evolves ((x.apply u).scopes.drop k) t.scopes

theorem Around.evolves {s' t' : EmitState} {x : Action} (h : Around s t x u)
    (hs : s'.scopes.Evolves s.scopes) (ht : t.scopes.Evolves t'.scopes) : Around s' t' x u := by
  obtain ⟨k, hbefore, hafter⟩ := h
  exact ⟨k, hs.trans hbefore, hafter.trans ht⟩

theorem Around.outside {s' t' : EmitState} {x : Action} (h : Around s t x u) (opened : Scopes)
    (hs : s.scopes = opened ++ s'.scopes) (ht : t'.scopes = t.scopes.drop opened.length) :
    Around s' t' x u := by
  obtain ⟨k, hbefore, hafter⟩ := h
  refine ⟨k + opened.length, ?_, ?_⟩
  · rw [← List.drop_drop]
    exact (hs ▸ hbefore).of_append
  · rw [← List.drop_drop, ht]
    exact hafter.drop opened.length

theorem Runs.around {x : Action} (hr : Runs env m s a t xs) (hmem : .action x u ∈ xs) :
    Around s t x u := by
  induction hr with
  | pure a s => cases hmem
  | ask _ ih => exact ih hmem
  | @act _ _ y _ s _ _ _ rest ih =>
    rcases List.mem_cons.mp hmem with hmem | hmem
    · cases hmem
      exact ⟨0, .refl u.scopes, rest.evolves⟩
    · exact (ih hmem).evolves (y.evolves s) (.refl _)
  | separate _ ih => exact ih (by simpa using hmem)
  | @within _ _ _ f _ _ s _ v _ _ ys zs inner rest ihInner ihRest =>
    have hmem : .action x u ∈ ys ∨ .action x u ∈ zs := by simpa using hmem
    have hinside := (f.scopes_enter s ▸ inner.evolves).of_append
    rcases hmem with hmem | hmem
    · exact ((ihInner hmem).outside f.scopes (f.scopes_enter s) (f.scopes_exit s v)).evolves
        (.refl _) rest.evolves
    · exact (ihRest hmem).evolves (f.scopes_exit s v ▸ hinside) (.refl _)
  | @head _ _ _ _ _ s _ v _ _ ys zs inner rest ihInner ihRest =>
    have hmem : .action x u ∈ ys ∨ .action x u ∈ zs := by simpa using hmem
    rcases hmem with hmem | hmem
    · exact (ihInner hmem).evolves (.refl _) rest.evolves
    · exact (ihRest hmem).evolves inner.evolves (.refl _)
  | @function _ _ shape _ _ _ s _ w v _ ws ys zs first inner rest ihFirst ihInner ihRest =>
    have hmem : .action x u ∈ ws ∨ .action x u ∈ ys ∨ .action x u ∈ zs := by simpa using hmem
    have hbody : ([{ kind := .function }] ++ s.scopes : Scopes).Evolves v.scopes :=
      first.evolves.trans inner.evolves
    rcases hmem with hmem | hmem | hmem
    · have houter := (ihFirst hmem).evolves (.refl _) inner.evolves
      exact (houter.outside [{ kind := .function }] rfl rfl).evolves (.refl _) rest.evolves
    · have houter := (ihInner hmem).evolves first.evolves (.refl _)
      exact (houter.outside [{ kind := .function }] rfl rfl).evolves (.refl _) rest.evolves
    · exact (ihRest hmem).evolves hbody.of_append (.refl _)

/-- What a frame holds is part of the run. -/
theorem Runs.of_mem_frame {k : Bool} {β : Type} {f : Frame} {body : Script k β} {ws : List Step}
    (hr : Runs env m s a t xs) (hmem : .frame f body u ∈ xs) (hsub : xs ⊆ ws) :
    ∃ b v ys, Runs env body (f.enter u) b v ys ∧ ys ⊆ ws := by
  induction hr with
  | pure a s => cases hmem
  | ask _ ih => exact ih hmem hsub
  | act _ ih => exact ih (by simpa using hmem) fun x hx => hsub (by simp [hx])
  | separate _ ih => exact ih (by simpa using hmem) fun x hx => hsub (by simp [hx])
  | within inner _ ihInner ihRest | head inner _ ihInner ihRest =>
    rcases List.mem_cons.mp hmem with heq | hmem
    · cases heq
      exact ⟨_, _, _, inner, fun x hx => hsub (by simp [hx])⟩
    · rcases List.mem_append.mp hmem with hmem | hmem
      · exact ihInner hmem fun x hx => hsub (by simp [hx])
      · exact ihRest hmem fun x hx => hsub (by simp [hx])
  | @function _ _ _ _ _ _ _ _ _ _ _ vs ys zs _ _ _ ihFirst ihInner ihRest =>
    have hmem : .frame f body u ∈ vs ∨ .frame f body u ∈ ys ∨ .frame f body u ∈ zs := by
      simpa using hmem
    rcases hmem with hmem | hmem | hmem
    · exact ihFirst hmem fun x hx => hsub (by simp [hx])
    · exact ihInner hmem fun x hx => hsub (by simp [hx])
    · exact ihRest hmem fun x hx => hsub (by simp [hx])

/-- The parameters and the body of a function are parts of the run. -/
theorem Runs.of_mem_function {r : FunctionRun} {ws : List Step} (hr : Runs env m s a t xs)
    (hmem : .function r ∈ xs) (hsub : xs ⊆ ws) :
    ∃ ys zs, Runs env r.params (r.start.enterScope .function) () r.brace ys ∧
      Runs env r.body (r.shape.enter r.brace) () r.stop zs ∧ ys ++ zs ⊆ ws := by
  induction hr with
  | pure a s => cases hmem
  | ask _ ih => exact ih hmem hsub
  | act _ ih => exact ih (by simpa using hmem) fun x hx => hsub (by simp [hx])
  | separate _ ih => exact ih (by simpa using hmem) fun x hx => hsub (by simp [hx])
  | @within _ _ _ _ _ _ _ _ _ _ _ ys zs _ _ ihInner ihRest
  | @head _ _ _ _ _ _ _ _ _ _ ys zs _ _ ihInner ihRest =>
    have hmem : .function r ∈ ys ∨ .function r ∈ zs := by simpa using hmem
    rcases hmem with hmem | hmem
    · exact ihInner hmem fun x hx => hsub (by simp [hx])
    · exact ihRest hmem fun x hx => hsub (by simp [hx])
  | @function _ _ _ _ _ _ _ _ _ _ _ vs ys zs first inner _ ihFirst ihInner ihRest =>
    rcases List.mem_append.mp hmem with hmem | hmem
    · exact ihFirst hmem fun x hx => hsub (by simp [hx])
    · rcases List.mem_append.mp hmem with hmem | hmem
      · exact ihInner hmem fun x hx => hsub (by simp [hx])
      · rcases List.mem_cons.mp hmem with heq | hmem
        · cases heq
          refine ⟨vs, ys, first, inner, fun x hx => hsub ?_⟩
          rcases List.mem_append.mp hx with hx | hx
          · simp [hx]
          · simp [hx]
        · exact ihRest hmem fun x hx => hsub (by simp [hx])

end Script
end EcmaPhp
