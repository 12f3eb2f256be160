import EcmaPhp.Proofs.Shorthand

/-! The texts that a script writes, one after another, without the layout around them. -/
namespace EcmaPhp
open EmitM Emit

/-- The text that a step writes. -/
def Step.text? : Step → Option (List Char)
  | .action (.edit (.text cs)) _ => some cs
  | _ => none

namespace Script

variable {h : Bool} {α β : Type} {env : EmitEnv} {s : EmitState}

/-- The texts that a script writes until it ends or fails. -/
def texts (m : Script h α) (env : EmitEnv) (s : EmitState) : List (List Char) :=
  (m.steps env s).filterMap Step.text?

theorem steps_bind (m : Script h α) (f : α → Script h β) :
    (m >>= f).steps env s = m.steps env s ++
      match m.run env s with
      | .ok a t => (f a).steps env t
      | .error _ _ => [] := by
  induction m generalizing s with
  | pure a => rfl
  | fail failure => rfl
  | ask q next ih => exact ih _ f
  | act x next ih => exact congrArg (Step.action x s :: ·) (ih f)
  | separate next ih => exact congrArg (Step.separation s :: ·) (ih f)
  | within frame body next _ ih =>
    change (Script.within frame body fun b => next b >>= f).steps env s = _
    simp only [steps, run]
    cases body.run env (frame.enter s) with
    | ok b t => simp [ih]
    | error failure t => simp
  | head body next _ ih =>
    change (Script.head body fun b => next b >>= f).steps env s = _
    simp only [steps, run]
    cases body.run env (Frame.head.enter s) with
    | ok b t => simp [ih]
    | error failure t => simp
  | function shape params body next _ _ ih =>
    change (Script.function shape params body fun b => next b >>= f).steps env s = _
    simp only [steps, run]
    cases params.run env (s.enterScope .function) with
    | error failure t => simp
    | ok _ u =>
      dsimp only
      cases body.run env (shape.enter u) with
      | error failure t => simp
      | ok _ t => simp [ih]

theorem texts_bind (m : Script h α) (f : α → Script h β) :
    (m >>= f).texts env s = m.texts env s ++
      match m.run env s with
      | .ok a t => (f a).texts env t
      | .error _ _ => [] := by
  rw [texts, steps_bind, List.filterMap_append]
  cases m.run env s <;> rfl

/-- What is written first stays first. -/
theorem head?_texts_bind {m : Script h α} {f : α → Script h β} {cs : List Char}
    (hm : (m.texts env s).head? = some cs) : ((m >>= f).texts env s).head? = some cs := by
  rw [texts_bind, List.head?_append, hm]
  rfl

theorem steps_pure (a : α) : (Pure.pure a : Script h α).steps env s = [] := rfl

theorem texts_pure_bind (a : α) (f : α → Script h β) :
    ((Pure.pure a : Script h α) >>= f).texts env s = (f a).texts env s := rfl

theorem texts_emit (text : String) : (EmitM.emit text : Script h Unit).texts env s = [text.toList] :=
  rfl

theorem texts_within (f : Frame) (body : Script h α) :
    (EmitM.within f body).texts env s = body.texts env (f.enter s) := by
  have hsteps : (EmitM.within f body).steps env s = .frame f body s :: body.steps env (f.enter s) := by
    simp only [EmitM.within, steps]
    cases body.run env (f.enter s) <;> simp [steps_pure]
  rw [texts, hsteps]
  rfl

theorem texts_around (n : Node) (parens : Parens) (body : Script h Unit) :
    (EmitM.around n parens body : Script h Unit).texts env s =
      body.texts env (Frame.enter (.node n (parens.wraps env.tokens n)) s) :=
  texts_within _ body

end Script

variable {env : EmitEnv} {s : EmitState} {n : Node}

/-- A node writes what the rule for its kind writes. -/
theorem texts_emitNode {rule : Rule} {context : Context} (hrule : rule? n.kind = some rule) :
    (emitNode n context).texts env s = (rule n (fun p c => emitNode p.node c) context).texts env
      (s.onOutput (·.beginNode (context.parens.wraps env.tokens n) n)) := by
  rw [emitNode, hrule]
  exact Script.texts_around n context.parens _

end EcmaPhp
