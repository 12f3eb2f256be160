import EcmaPhp.Emit.Monad

/-! The steps of a run, and the run as a relation between states. -/
namespace EcmaPhp

/-- A function that was emitted: the scripts of its parameters and its body, the state in which it
began, the one in which its brace was opened, and the one at the end of its body. -/
structure FunctionRun where
  inHead : Bool
  shape : FunctionShape
  params : Script inHead Unit
  body : Script inHead Unit
  start : EmitState
  brace : EmitState
  stop : EmitState

/-- One thing that happens in a run, with the state in which it happens. -/
inductive Step : Type 1 where
  | action (a : Action) (s : EmitState)
  | separation (s : EmitState)
  /-- A frame is entered; `body` is the script in it. -/
  | frame {h : Bool} {α : Type} (f : Frame) (body : Script h α) (s : EmitState)
  /-- A function has come to its end. -/
  | function (r : FunctionRun)

namespace Script

/-- What happens in a run, in order; what happens in a frame or a function is part of it. -/
def steps {h : Bool} {α : Type} : Script h α → EmitEnv → EmitState → List Step
  | .pure _, _, _ | .fail _, _, _ => []
  | .ask q next, env, s => (next (q.answer env s)).steps env s
  | .act a next, env, s => .action a s :: next.steps env (a.apply s)
  | .separate next, env, s =>
    .separation s :: next.steps env (s.onOutput Output.terminatorToSeparator)
  | .within f body next, env, s =>
    .frame f body s :: (body.steps env (f.enter s) ++
      match body.run env (f.enter s) with
      | .ok b t => (next b).steps env (f.exit s t)
      | .error _ _ => [])
  | .head body next, env, s =>
    .frame .head body s :: (body.steps env (Frame.head.enter s) ++
      match body.run env (Frame.head.enter s) with
      | .ok b t => (next b).steps env (Frame.head.exit s t)
      | .error _ _ => [])
  | @function h _ shape params body next, env, s =>
    params.steps env (s.enterScope .function) ++
      match params.run env (s.enterScope .function) with
      | .error _ _ => []
      | .ok _ u => body.steps env (shape.enter u) ++
        match body.run env (shape.enter u) with
        | .error _ _ => []
        | .ok _ t =>
          .function ⟨h, shape, params, body, s, u, t⟩ ::
            (next t.innermost).steps env (shape.exit u t).leaveScope

/-- A run from one state to another, with its steps. -/
inductive Runs (env : EmitEnv) :
    {h : Bool} → {α : Type} → Script h α → EmitState → α → EmitState → List Step → Prop where
  | pure {h : Bool} {α : Type} (a : α) (s : EmitState) :
      Runs env (.pure (h := h) a) s a s []
  | ask {h : Bool} {α β : Type} {q : Query β} {next : β → Script h α} {s t : EmitState} {a : α}
      {xs : List Step} (rest : Runs env (next (q.answer env s)) s a t xs) :
      Runs env (.ask q next) s a t xs
  | act {h : Bool} {α : Type} {x : Action} {next : Script h α} {s t : EmitState} {a : α}
      {xs : List Step} (rest : Runs env next (x.apply s) a t xs) :
      Runs env (.act x next) s a t (.action x s :: xs)
  | separate {α : Type} {next : Script true α} {s t : EmitState} {a : α} {xs : List Step}
      (rest : Runs env next (s.onOutput Output.terminatorToSeparator) a t xs) :
      Runs env (.separate next) s a t (.separation s :: xs)
  | within {h : Bool} {α β : Type} {f : Frame} {body : Script h β} {next : β → Script h α}
      {s t u : EmitState} {b : β} {a : α} {xs ys : List Step}
      (inner : Runs env body (f.enter s) b u xs) (rest : Runs env (next b) (f.exit s u) a t ys) :
      Runs env (.within f body next) s a t (.frame f body s :: (xs ++ ys))
  | head {h : Bool} {α β : Type} {body : Script true β} {next : β → Script h α}
      {s t u : EmitState} {b : β} {a : α} {xs ys : List Step}
      (inner : Runs env body (Frame.head.enter s) b u xs)
      (rest : Runs env (next b) (Frame.head.exit s u) a t ys) :
      Runs env (.head body next) s a t (.frame .head body s :: (xs ++ ys))
  | function {h : Bool} {α : Type} {shape : FunctionShape} {params body : Script h Unit}
      {next : Scope → Script h α} {s t u v : EmitState} {a : α} {xs ys zs : List Step}
      (first : Runs env params (s.enterScope .function) () u xs)
      (inner : Runs env body (shape.enter u) () v ys)
      (rest : Runs env (next v.innermost) (shape.exit u v).leaveScope a t zs) :
      Runs env (.function shape params body next) s a t
        (xs ++ (ys ++ .function ⟨h, shape, params, body, s, u, v⟩ :: zs))

/-- A run that gives a result is one of the relation. -/
theorem runs_of_run {env : EmitEnv} {h : Bool} {α : Type} {m : Script h α} {s t : EmitState} {a : α}
    (hrun : m.run env s = .ok a t) : Runs env m s a t (m.steps env s) := by
  induction m generalizing s t with
  | pure b =>
    cases hrun
    exact .pure b s
  | fail failure => cases hrun
  | ask q next ih => exact .ask (ih _ hrun)
  | act x next ih => exact .act (ih hrun)
  | separate next ih => exact .separate (ih hrun)
  | within f body next ihBody ihNext =>
    cases hbody : body.run env (f.enter s) with
    | error failure u => simp [run, hbody] at hrun
    | ok b u =>
      simp only [run, steps, hbody] at hrun ⊢
      exact .within (ihBody hbody) (ihNext b hrun)
  | head body next ihBody ihNext =>
    cases hbody : body.run env (Frame.head.enter s) with
    | error failure u => simp [run, hbody] at hrun
    | ok b u =>
      simp only [run, steps, hbody] at hrun ⊢
      exact .head (ihBody hbody) (ihNext b hrun)
  | function shape params body next ihParams ihBody ihNext =>
    cases hparams : params.run env (s.enterScope .function) with
    | error failure u => simp [run, hparams] at hrun
    | ok x u =>
      cases hbody : body.run env (shape.enter u) with
      | error failure v => simp [run, hparams, hbody] at hrun
      | ok x v =>
        simp only [run, steps, hparams, hbody] at hrun ⊢
        exact .function (ihParams hparams) (ihBody hbody) (ihNext v.innermost hrun)

/-- The relation has no other runs. -/
theorem Runs.run_eq {env : EmitEnv} {h : Bool} {α : Type} {m : Script h α} {s t : EmitState} {a : α}
    {xs : List Step} (hr : Runs env m s a t xs) : m.run env s = .ok a t ∧ m.steps env s = xs := by
  induction hr with
  | pure a s => exact ⟨rfl, rfl⟩
  | ask _ ih => exact ih
  | act _ ih => exact ⟨ih.1, by rw [steps, ih.2]⟩
  | separate _ ih => exact ⟨ih.1, by rw [steps, ih.2]⟩
  | within _ _ ihInner ihRest => simp [run, steps, ihInner, ihRest]
  | head _ _ ihInner ihRest => simp [run, steps, ihInner, ihRest]
  | function _ _ _ ihFirst ihInner ihRest => simp [run, steps, ihFirst, ihInner, ihRest]

section Bind

variable {env : EmitEnv} {h : Bool} {α β : Type} {s t u : EmitState} {xs ys : List Step}

/-- One script after another runs as the one and then the other. -/
theorem Runs.bind {m : Script h α} {f : α → Script h β} {a : α} {b : β} (hm : Runs env m s a u xs)
    (hf : Runs env (f a) u b t ys) : Runs env (m >>= f) s b t (xs ++ ys) := by
  induction hm with
  | pure a s => exact hf
  | ask _ ih => exact .ask (ih hf)
  | act _ ih => exact .act (ih hf)
  | separate _ ih => exact .separate (ih hf)
  | within inner _ _ ih =>
    simp only [List.cons_append, List.append_assoc]
    exact .within inner (ih hf)
  | head inner _ _ ih =>
    simp only [List.cons_append, List.append_assoc]
    exact .head inner (ih hf)
  | function first inner _ _ _ ih =>
    simp only [List.cons_append, List.append_assoc]
    exact .function first inner (ih hf)

/-- There is no other way. -/
theorem Runs.of_bind {m : Script h α} {f : α → Script h β} {b : β}
    (hr : Runs env (m >>= f) s b t xs) :
    ∃ a u ys zs, Runs env m s a u ys ∧ Runs env (f a) u b t zs ∧ xs = ys ++ zs := by
  induction m generalizing s xs with
  | pure a => exact ⟨a, s, [], xs, .pure a s, hr, rfl⟩
  | fail failure => cases hr
  | ask q next ih =>
    cases hr with
    | ask rest =>
      obtain ⟨a, u, ys, zs, hm, hf, rfl⟩ := ih _ rest
      exact ⟨a, u, ys, zs, .ask hm, hf, rfl⟩
  | act x next ih =>
    cases hr with
    | act rest =>
      obtain ⟨a, u, ys, zs, hm, hf, rfl⟩ := ih rest
      exact ⟨a, u, _, zs, .act hm, hf, rfl⟩
  | separate next ih =>
    cases hr with
    | separate rest =>
      obtain ⟨a, u, ys, zs, hm, hf, rfl⟩ := ih rest
      exact ⟨a, u, _, zs, .separate hm, hf, rfl⟩
  | within f body next ihBody ih =>
    cases hr with
    | within inner rest =>
      obtain ⟨a, u, ys, zs, hm, hf, rfl⟩ := ih _ rest
      exact ⟨a, u, _, zs, .within inner hm, hf, by simp⟩
  | head body next ihBody ih =>
    cases hr with
    | head inner rest =>
      obtain ⟨a, u, ys, zs, hm, hf, rfl⟩ := ih _ rest
      exact ⟨a, u, _, zs, .head inner hm, hf, by simp⟩
  | function shape params body next ihParams ihBody ih =>
    cases hr with
    | function first inner rest =>
      obtain ⟨a, u, ys, zs, hm, hf, rfl⟩ := ih _ rest
      exact ⟨a, u, _, zs, .function first inner hm, hf, by simp⟩

theorem Runs.of_pure {a b : α} (hr : Runs env (Pure.pure a : Script h α) s b t xs) :
    a = b ∧ s = t ∧ xs = [] := by
  cases hr
  exact ⟨rfl, rfl, rfl⟩

theorem Runs.of_act {x : Action} {a : Unit} (hr : Runs env (EmitM.act x : Script h Unit) s a t xs) :
    t = x.apply s ∧ xs = [.action x s] := by
  cases hr with
  | act rest =>
    obtain ⟨-, rfl, rfl⟩ := rest.of_pure
    exact ⟨rfl, rfl⟩

theorem Runs.of_ask {q : Query α} {a : α} (hr : Runs env (EmitM.ask q : Script h α) s a t xs) :
    q.answer env s = a ∧ s = t ∧ xs = [] := by
  cases hr with
  | ask rest => exact rest.of_pure

theorem Runs.of_within {f : Frame} {body : Script h α} {a : α}
    (hr : Runs env (EmitM.within f body) s a t xs) :
    ∃ u ys, Runs env body (f.enter s) a u ys ∧ t = f.exit s u ∧ xs = .frame f body s :: ys := by
  cases hr with
  | within inner rest =>
    obtain ⟨rfl, rfl, rfl⟩ := rest.of_pure
    exact ⟨_, _, inner, rfl, by simp⟩

/-- What follows a question gets the answer. -/
theorem Runs.of_ask_bind {q : Query α} {k : α → Script h β} {b : β}
    (hr : Runs env (EmitM.ask q >>= k) s b t xs) : Runs env (k (q.answer env s)) s b t xs := by
  cases hr with
  | ask rest => exact rest

/-- What follows an action begins in the state that it leaves. -/
theorem Runs.of_act_bind {x : Action} {k : Unit → Script h β} {b : β}
    (hr : Runs env (EmitM.act x >>= k) s b t xs) :
    ∃ ys, Runs env (k ()) (x.apply s) b t ys ∧ xs = .action x s :: ys := by
  cases hr with
  | act rest => exact ⟨_, rest, rfl⟩

theorem Runs.of_need {n : Node} {f : Field} {k : Part n → EmitM β} {b : β}
    (hr : Runs env (EmitM.need n f >>= k) s b t xs) :
    ∃ p, n.part? f = some p ∧ Runs env (k p) s b t xs := by
  rw [EmitM.need] at hr
  cases hp : n.part? f with
  | none =>
    rw [hp] at hr
    cases hr
  | some p =>
    rw [hp] at hr
    exact ⟨p, rfl, hr⟩

theorem Runs.of_around {n : Node} {parens : Parens} {body : Script h Unit}
    (hr : Runs env (EmitM.around n parens body) s () t xs) :
    ∃ wrapped u ys, Runs env body (Frame.enter (.node n wrapped) s) () u ys ∧
      t = Frame.exit (.node n wrapped) s u ∧ xs = .frame (.node n wrapped) body s :: ys := by
  obtain ⟨u, ys, hbody, rfl, rfl⟩ := hr.of_ask_bind.of_within
  exact ⟨_, u, ys, hbody, rfl, rfl⟩

/-- A loop runs up to an element, then for the element, and then for the others. -/
theorem Runs.of_forM {f : α → Script h Unit} {before after : List α} {a : α}
    (hr : Runs env ((before ++ a :: after).forM f) s () t xs) :
    ∃ u v ys zs ws, Runs env (before.forM f) s () u ys ∧ Runs env (f a) u () v zs ∧
      Runs env (after.forM f) v () t ws ∧ xs = ys ++ (zs ++ ws) := by
  induction before generalizing s xs with
  | nil =>
    have hr : Runs env (f a >>= fun _ => after.forM f) s () t xs := hr
    obtain ⟨_, v, zs, ws, hstep, hrest, rfl⟩ := hr.of_bind
    exact ⟨s, v, [], zs, ws, .pure () s, hstep, hrest, rfl⟩
  | cons b rest ih =>
    have hr : Runs env (f b >>= fun _ => (rest ++ a :: after).forM f) s () t xs := hr
    obtain ⟨_, w, ys, zs, hfirst, hrest, rfl⟩ := hr.of_bind
    obtain ⟨u, v, ys', zs', ws, hbefore, hstep, hafter, rfl⟩ := ih hrest
    exact ⟨u, v, ys ++ ys', zs', ws, hfirst.bind hbefore, hstep, hafter, by simp⟩

/-- What happens in a loop happens for one of its elements. -/
theorem Runs.exists_of_mem_forM {f : α → Script h Unit} {as : List α} {x : Step}
    (hr : Runs env (as.forM f) s () t xs) (hx : x ∈ xs) :
    ∃ a ∈ as, ∃ u v ys, Runs env (f a) u () v ys ∧ x ∈ ys := by
  induction as generalizing s xs with
  | nil =>
    have hr : Runs env (Pure.pure () : Script h Unit) s () t xs := hr
    obtain ⟨-, -, rfl⟩ := hr.of_pure
    cases hx
  | cons a rest ih =>
    have hr : Runs env (f a >>= fun _ => rest.forM f) s () t xs := hr
    obtain ⟨_, u, ys, zs, hstep, hrest, rfl⟩ := hr.of_bind
    rcases List.mem_append.mp hx with hx | hx
    · exact ⟨a, List.mem_cons_self, s, u, ys, hstep, hx⟩
    · obtain ⟨b, hb, hrun⟩ := ih hrest hx
      exact ⟨b, List.mem_cons_of_mem a hb, hrun⟩

end Bind

end Script
end EcmaPhp
