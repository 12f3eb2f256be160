import EcmaPhp.Proofs.Script.Balance
import EcmaPhp.Proofs.Script.References

/-! Scripts that find what they need: a name and a scope for what they declare, a point for what
they insert. What such a script fails with is known from its text. -/
namespace EcmaPhp
open Script EmitM

/-- What is known of the states in which a script runs: at least how many insertion points there
are, and that there is a scope. -/
structure Ground where
  points : Nat := 0
  inScope : Bool := false

namespace Ground

variable {k : Ground} {s t : EmitState}

structure Holds (k : Ground) (s : EmitState) : Prop where
  points : k.points ≤ s.output.points.length
  scopes : k.inScope = true → s.scopes ≠ []

/-- What is known inside a frame. -/
@[simp]
def inside (k : Ground) : Frame → Ground
  | .point => { k with points := k.points + 1 }
  | .scope _ => { k with inScope := true }
  | _ => k

/-- Whether an action finds what it needs. -/
@[simp]
def Admits (k : Ground) : Action → Prop
  | .register n => n.hasNames = true ∧ k.inScope = true
  | .edit (.insert _) => 0 < k.points
  | _ => True

theorem Holds.of_length (h : k.Holds s) (hpoints : s.output.points.length ≤ t.output.points.length)
    (hscopes : t.scopes.length = s.scopes.length) : k.Holds t := by
  refine ⟨h.points.trans hpoints, ?_⟩
  intro hscope
  rw [← List.length_pos_iff, hscopes, List.length_pos_iff]
  exact h.scopes hscope

theorem Holds.restored (h : k.Holds s) (hr : s.Restored t) : k.Holds t :=
  h.of_length hr.points.ge hr.scopes.length_eq

theorem Holds.apply (h : k.Holds s) (x : Action) : k.Holds (x.apply s) := by
  have hheight := (x.shifts_apply s).height
  exact h.of_length (by omega) (x.evolves s).length_eq

theorem Holds.enter (h : k.Holds s) (f : Frame) : (k.inside f).Holds (f.enter s) := by
  have hwrites {o' : Output} {w : Writing} {i : Int} (hw : Output.Writes w i s.output o') :
      k.Holds { s with output := o' } :=
    h.of_length hw.length_points.ge rfl
  cases f with
  | node n wrapped => exact hwrites (Output.writes_beginNode _ wrapped n)
  | indent => exact hwrites (Output.writes_increaseIndent _)
  | block opening inline closing => exact hwrites (Output.writes_openBlock _ opening)
  | point => exact ⟨Nat.succ_le_succ h.points, h.scopes⟩
  | scope kind => exact ⟨h.points, fun _ => List.cons_ne_nil _ _⟩
  | fields keys => exact ⟨h.points, h.scopes⟩
  | unsourced => exact h

theorem Holds.enterFunction (h : k.Holds s) :
    ({ k with inScope := true } : Ground).Holds (s.enterScope .function) :=
  ⟨h.points, fun _ => List.cons_ne_nil _ _⟩

theorem Holds.openBraces (h : k.Holds s) (shape : FunctionShape) :
    ({ k with points := k.points + 2 } : Ground).Holds (shape.enter s) := by
  have hheight : ((shape.enter s).output.points.length : Int) = s.output.points.length + 2 :=
    (Output.Shifts.openBraces s.output shape).height
  have hpoints := h.points
  exact ⟨show k.points + 2 ≤ _ by omega, h.scopes⟩

end Ground

/-- Whether what happens finds what it needs: a declaration its names and a scope, an insertion its
point, and the end of a function the points on both sides of its brace. -/
def Step.Sound : Step → Prop
  | .action (.register n) s => s.scopes.accepts n = true
  | .action (.edit (.insert _)) s => 0 < s.output.points.length
  | .function r => 2 ≤ r.stop.output.points.length
  | _ => True

theorem Ground.Admits.sound {k : Ground} {s : EmitState} {x : Action} (hx : k.Admits x)
    (hs : k.Holds s) : (Step.action x s).Sound := by
  cases x with
  | register n =>
    have hscopes : s.scopes.isEmpty = false := List.isEmpty_eq_false_iff.mpr (hs.scopes hx.2)
    show s.scopes.accepts n = true
    simp [Scopes.accepts, hx.1, hscopes]
  | edit e =>
    cases e with
    | insert cs => exact Nat.lt_of_lt_of_le hx hs.points
    | _ => trivial
  | _ => trivial

namespace Script

variable {h : Bool} {α β : Type} {R : Failure → Prop} {k : Ground}

/-- A script that, on its ground, finds what it needs and has no failures but those of `R`. -/
def Sound (R : Failure → Prop) {h : Bool} {α : Type} : Ground → Script h α → Prop
  | _, .pure _ => True
  | _, .fail failure => R failure
  | k, .ask _ next => ∀ b, (next b).Sound R k
  | k, .act x next => k.Admits x ∧ next.Sound R k
  | k, .separate next => next.Sound R k
  | k, .within f body next => body.Sound R (k.inside f) ∧ ∀ b, (next b).Sound R k
  | k, .head body next => body.Sound R k ∧ ∀ b, (next b).Sound R k
  | k, .function _ params body next =>
    params.Sound R { k with inScope := true } ∧ body.Sound R ⟨k.points + 2, true⟩ ∧
      ∀ b, (next b).Sound R k

@[simp]
theorem sound_bind (m : Script h α) (f : α → Script h β) :
    (m >>= f).Sound R k ↔ m.Sound R k ∧ ∀ a, m.Gives a → (f a).Sound R k := by
  induction m with
  | pure a => simp [Sound, Gives, Bind.bind, Script.bind]
  | fail e => simp [Sound, Gives, Bind.bind, Script.bind]
  | ask q next ih =>
    change (∀ b, (next b >>= f).Sound R k) ↔ _
    simp only [ih, Sound, Gives]
    grind
  | act x next ih =>
    change (_ ∧ (next >>= f).Sound R k) ↔ _
    rw [ih, Sound, and_assoc]
    rfl
  | separate next ih => exact ih f
  | within fr body next _ ih =>
    change (_ ∧ ∀ b, (next b >>= f).Sound R k) ↔ _
    simp only [ih, Sound, Gives]
    grind
  | head body next _ ih =>
    change (_ ∧ ∀ b, (next b >>= f).Sound R k) ↔ _
    simp only [ih, Sound, Gives]
    grind
  | function shape params body next _ _ ih =>
    change (_ ∧ _ ∧ ∀ b, (next b >>= f).Sound R k) ↔ _
    simp only [ih, Sound, Gives]
    grind

theorem Sound.inHead {m : Script h α} (hm : m.Sound R k) : m.inHead.Sound R k := by
  induction m generalizing k with
  | pure a => trivial
  | fail e => exact hm
  | ask q next ih => exact fun b => ih b (hm b)
  | act x next ih => exact ⟨hm.1, ih hm.2⟩
  | separate next ih => exact hm
  | within f body next ihBody ih => exact ⟨ihBody hm.1, fun b => ih b (hm.2 b)⟩
  | head body next _ ih => exact ⟨hm.1, fun b => ih b (hm.2 b)⟩
  | function shape params body next ihParams ihBody ih =>
    exact ⟨ihParams hm.1, ihBody hm.2.1, fun b => ih b (hm.2.2 b)⟩

variable {env : EmitEnv} {s : EmitState}

/-- Each step of a run finds what it needs, and if the run fails, its failure is one of `R`. -/
def Safe (R : Failure → Prop) (env : EmitEnv) (m : Script h α) (s : EmitState) : Prop :=
  (∀ x ∈ m.steps env s, x.Sound) ∧
    ∀ failure t, m.run env s = .error failure t → R failure

theorem safe_within {f : Frame} {body : Script h β} {next : β → Script h α}
    (hbody : body.Safe R env (f.enter s))
    (hnext : ∀ b t, body.run env (f.enter s) = .ok b t → (next b).Safe R env (f.exit s t)) :
    (Script.within f body next).Safe R env s := by
  unfold Safe
  cases hrun : body.run env (f.enter s) with
  | error failure t =>
    simp only [steps, run, hrun, List.append_nil, List.forall_mem_cons]
    refine ⟨⟨trivial, hbody.1⟩, ?_⟩
    rintro _ _ ⟨⟩
    exact hbody.2 failure t hrun
  | ok b t =>
    simp only [steps, run, hrun, List.forall_mem_cons, List.forall_mem_append]
    exact ⟨⟨trivial, hbody.1, (hnext b t hrun).1⟩, (hnext b t hrun).2⟩

theorem safe_head {body : Script true β} {next : β → Script h α}
    (hbody : body.Safe R env (Frame.head.enter s))
    (hnext : ∀ b t, body.run env (Frame.head.enter s) = .ok b t →
      (next b).Safe R env (Frame.head.exit s t)) :
    (Script.head body next).Safe R env s := by
  unfold Safe
  cases hrun : body.run env (Frame.head.enter s) with
  | error failure t =>
    simp only [steps, run, hrun, List.append_nil, List.forall_mem_cons]
    refine ⟨⟨trivial, hbody.1⟩, ?_⟩
    rintro _ _ ⟨⟩
    exact hbody.2 failure t hrun
  | ok b t =>
    simp only [steps, run, hrun, List.forall_mem_cons, List.forall_mem_append]
    exact ⟨⟨trivial, hbody.1, (hnext b t hrun).1⟩, (hnext b t hrun).2⟩

theorem safe_function {shape : FunctionShape} {params body : Script h Unit}
    {next : Scope → Script h α} (hparams : params.Safe R env (s.enterScope .function))
    (hbody : ∀ u, params.run env (s.enterScope .function) = .ok () u →
      body.Safe R env (shape.enter u))
    (hnext : ∀ u t, params.run env (s.enterScope .function) = .ok () u →
      body.run env (shape.enter u) = .ok () t → 2 ≤ t.output.points.length ∧
        (next t.innermost).Safe R env (shape.exit u t).leaveScope) :
    (Script.function shape params body next).Safe R env s := by
  unfold Safe
  cases hrun : params.run env (s.enterScope .function) with
  | error failure u =>
    simp only [steps, run, hrun, List.append_nil]
    refine ⟨hparams.1, ?_⟩
    rintro _ _ ⟨⟩
    exact hparams.2 failure u hrun
  | ok _ u =>
    have hinner := hbody u hrun
    cases hrun' : body.run env (shape.enter u) with
    | error failure t =>
      simp only [steps, run, hrun, hrun', List.append_nil, List.forall_mem_append]
      refine ⟨⟨hparams.1, hinner.1⟩, ?_⟩
      rintro _ _ ⟨⟩
      exact hinner.2 failure t hrun'
    | ok _ t =>
      obtain ⟨hpoints, hrest⟩ := hnext u t hrun hrun'
      simp only [steps, run, hrun, hrun', List.forall_mem_cons, List.forall_mem_append]
      exact ⟨⟨hparams.1, hinner.1, hpoints, hrest.1⟩, hrest.2⟩

/-- A sound script is safe wherever it runs on its ground. -/
theorem Sound.safe {m : Script h α} (hm : m.Sound R k) (hs : k.Holds s) : m.Safe R env s := by
  induction m generalizing k s with
  | pure a =>
    refine ⟨by simp [steps], ?_⟩
    rintro _ _ ⟨⟩
  | fail failure =>
    refine ⟨by simp [steps], ?_⟩
    rintro _ _ ⟨⟩
    exact hm
  | ask q next ih => exact ih _ (hm _) hs
  | act x next ih =>
    have hnext := ih hm.2 (hs.apply x)
    refine ⟨?_, hnext.2⟩
    rw [steps, List.forall_mem_cons]
    exact ⟨hm.1.sound hs, hnext.1⟩
  | separate next ih =>
    have hheight := (Output.Shifts.separation s.output).height
    have hseparated : k.Holds (s.onOutput Output.terminatorToSeparator) :=
      hs.of_length (show _ ≤ s.output.terminatorToSeparator.points.length by omega) rfl
    have hnext := ih hm hseparated
    refine ⟨?_, hnext.2⟩
    rw [steps, List.forall_mem_cons]
    exact ⟨trivial, hnext.1⟩
  | within f body next ihBody ihNext =>
    refine safe_within (ihBody hm.1 (hs.enter f)) ?_
    intro b t hrun
    -- A frame that was left again has closed all that it opened.
    have hframe := Runs.within (f := f) (runs_of_run hrun) (.pure b _)
    exact ihNext b (hm.2 b) (hs.restored hframe.restored)
  | head body next ihBody ihNext =>
    refine safe_head (ihBody hm.1 (hs.enter Frame.head)) ?_
    intro b t hrun
    have hframe := Runs.head (h := true) (runs_of_run hrun) (.pure b _)
    exact ihNext b (hm.2 b) (hs.restored hframe.restored)
  | function shape params body next ihParams ihBody ihNext =>
    have hinside {u : EmitState} (hrun : params.run env (s.enterScope .function) = .ok () u) :
        (⟨k.points + 2, true⟩ : Ground).Holds (shape.enter u) :=
      (hs.enterFunction.restored (runs_of_run hrun).restored).openBraces shape
    refine safe_function (ihParams hm.1 hs.enterFunction) ?_ ?_
    · intro u hrun
      exact ihBody hm.2.1 (hinside hrun)
    · intro u t hrun hrun'
      have hbody := (hinside hrun).restored (runs_of_run hrun').restored
      have hfunction := Runs.function (runs_of_run hrun) (runs_of_run hrun')
        (.pure t.innermost (shape.exit u t).leaveScope)
      exact ⟨le_trans (Nat.le_add_left 2 k.points) hbody.points,
        ihNext t.innermost (hm.2.2 _) (hs.restored hfunction.restored)⟩

end Script
end EcmaPhp
