import EcmaPhp.Proofs.Budget.Tariff
import EcmaPhp.Proofs.Script.Scopes

/-! Scripts that keep to a budget, and what the steps of their runs are charged. -/
namespace EcmaPhp
open Script

/-- Comments are charged where they are written. -/
def Edit.charge (τ : Tariff) : Edit → ℕ
  | .comments cs | .mark cs => τ.comments cs
  | _ => 0

def Action.charge (τ : Tariff) : Action → ℕ
  | .edit e => e.charge τ
  | _ => 0

/-- What has to be at hand for an action. -/
def Action.threshold (τ : Tariff) : Action → ℕ
  | .learnField _ => τ.learn
  | _ => 0

namespace Frame

/-- A node is charged for itself where it is entered. -/
def charge (τ : Tariff) : Frame → ℕ
  | .node n _ => τ.own n
  | _ => 0

/-- The charges inside a frame. -/
def inside (τ : Tariff) : Frame → Tariff
  | .fields _ => τ.inClass
  | _ => τ

end Frame

def Step.charge (τ : Tariff) : Step → ℕ
  | .action x _ => x.charge τ
  | .separation _ => τ.separation
  | .frame f _ _ => f.charge τ
  | .function _ => 0

theorem Step.charge_inside (τ : Tariff) (f : Frame) (x : Step) :
    x.charge (f.inside τ) = x.charge τ := by
  cases f <;> rfl

namespace Step

/-- What steps are charged together. -/
def total (τ : Tariff) (xs : List Step) : ℕ := (xs.map (charge τ)).sum

variable {τ : Tariff}

@[simp]
theorem total_nil : total τ [] = 0 := rfl

@[simp]
theorem total_cons (x : Step) (xs : List Step) : total τ (x :: xs) = x.charge τ + total τ xs := rfl

@[simp]
theorem total_append (xs ys : List Step) : total τ (xs ++ ys) = total τ xs + total τ ys := by
  simp [total]

@[simp]
theorem total_inside (f : Frame) (xs : List Step) : total (f.inside τ) xs = total τ xs := by
  rw [total, total, List.map_congr_left fun x _ => charge_inside τ f x]

end Step

namespace Script

variable {h : Bool} {α β : Type} {τ : Tariff} {A B C : ℕ}

/-- A script that keeps to a budget. The scope of a function that it gets has no name twice. -/
def Costs {h : Bool} {α : Type} : Tariff → ℕ → Script h α → Prop
  | _, _, .pure _ | _, _, .fail _ => True
  | τ, B, .ask _ next => ∀ x, (next x).Costs τ B
  | τ, B, .act x next => x.threshold τ ≤ B ∧ ∃ C, x.charge τ + C ≤ B ∧ next.Costs τ C
  | τ, B, .separate next => ∃ C, τ.separation + C ≤ B ∧ next.Costs τ C
  | τ, B, .within f body next =>
    ∃ C D, f.charge τ + C + D ≤ B ∧ body.Costs (f.inside τ) C ∧ ∀ x, (next x).Costs τ D
  | τ, B, .head body next => ∃ C D, C + D ≤ B ∧ body.Costs τ C ∧ ∀ x, (next x).Costs τ D
  | τ, B, .function _ params body next =>
    ∃ C D E, C + D + E ≤ B ∧ params.Costs τ C ∧ body.Costs τ D ∧
      ∀ scope : Scope, scope.Distinct → (next scope).Costs τ E

theorem Costs.mono {m : Script h α} (hm : m.Costs τ A) (hle : A ≤ B) : m.Costs τ B := by
  induction m generalizing A B with
  | pure x => trivial
  | fail failure => trivial
  | ask q next ih => exact fun x => ih x (hm x) hle
  | act x next ih =>
    obtain ⟨hthreshold, C, hC, hnext⟩ := hm
    exact ⟨Nat.le_trans hthreshold hle, C, Nat.le_trans hC hle, hnext⟩
  | separate next ih =>
    obtain ⟨C, hC, hnext⟩ := hm
    exact ⟨C, Nat.le_trans hC hle, hnext⟩
  | within f body next _ ih =>
    obtain ⟨C, D, hsum, hbody, hnext⟩ := hm
    exact ⟨C, D, Nat.le_trans hsum hle, hbody, hnext⟩
  | head body next _ ih =>
    obtain ⟨C, D, hsum, hbody, hnext⟩ := hm
    exact ⟨C, D, Nat.le_trans hsum hle, hbody, hnext⟩
  | function shape params body next _ _ ih =>
    obtain ⟨C, D, E, hsum, hparams, hbody, hnext⟩ := hm
    exact ⟨C, D, E, Nat.le_trans hsum hle, hparams, hbody, hnext⟩

theorem Costs.bind {m : Script h α} {f : α → Script h β} (hm : m.Costs τ A)
    (hf : ∀ x, (f x).Costs τ B) : (m >>= f).Costs τ (A + B) := by
  induction m generalizing A with
  | pure x => exact (hf x).mono (Nat.le_add_left ..)
  | fail failure => trivial
  | ask q next ih => exact fun x => ih x (hm x) hf
  | act x next ih =>
    obtain ⟨hthreshold, C, hC, hnext⟩ := hm
    exact ⟨by omega, C + B, by omega, ih hnext hf⟩
  | separate next ih =>
    obtain ⟨C, hC, hnext⟩ := hm
    exact ⟨C + B, by omega, ih hnext hf⟩
  | within frame body next _ ih =>
    obtain ⟨C, D, hsum, hbody, hnext⟩ := hm
    exact ⟨C, D + B, by omega, hbody, fun x => ih x (hnext x) hf⟩
  | head body next _ ih =>
    obtain ⟨C, D, hsum, hbody, hnext⟩ := hm
    exact ⟨C, D + B, by omega, hbody, fun x => ih x (hnext x) hf⟩
  | function shape params body next _ _ ih =>
    obtain ⟨C, D, E, hsum, hparams, hbody, hnext⟩ := hm
    exact ⟨C, D, E + B, by omega, hparams, hbody, fun x hx => ih x (hnext x hx) hf⟩

theorem Costs.inHead {m : Script h α} (hm : m.Costs τ A) : m.inHead.Costs τ A := by
  induction m generalizing τ A with
  | pure x => trivial
  | fail failure => trivial
  | ask q next ih => exact fun x => ih x (hm x)
  | act x next ih =>
    obtain ⟨hthreshold, C, hC, hnext⟩ := hm
    exact ⟨hthreshold, C, hC, ih hnext⟩
  | separate next ih => exact hm
  | within frame body next ihBody ih =>
    obtain ⟨C, D, hsum, hbody, hnext⟩ := hm
    exact ⟨C, D, hsum, ihBody hbody, fun x => ih x (hnext x)⟩
  | head body next _ ih =>
    obtain ⟨C, D, hsum, hbody, hnext⟩ := hm
    exact ⟨C, D, hsum, hbody, fun x => ih x (hnext x)⟩
  | function shape params body next ihParams ihBody ih =>
    obtain ⟨C, D, E, hsum, hparams, hbody, hnext⟩ := hm
    exact ⟨C, D, E, hsum, ihParams hparams, ihBody hbody, fun x hx => ih x (hnext x hx)⟩

end Script

namespace EmitState

/-- No scope has a name twice. -/
def Distinct (s : EmitState) : Prop := ∀ scope ∈ s.scopes, scope.Distinct

variable {s t : EmitState}

theorem Distinct.innermost (hs : s.Distinct) : s.innermost.Distinct := by
  unfold EmitState.innermost
  cases hscopes : s.scopes with
  | nil => exact List.nodup_nil
  | cons scope outer => exact hs scope (by simp [hscopes])

theorem Distinct.act (hs : s.Distinct) (x : Action) : (x.apply s).Distinct := by
  cases x with
  | register n => exact Scopes.distinct_register hs n
  | refer n => exact Scopes.distinct_refer hs n
  | learnField key =>
    simp only [Action.apply, learnField]
    split <;> exact hs
  | edit e => exact hs
  | note e => exact hs

theorem Distinct.enterScope (hs : s.Distinct) (kind : ScopeKind) : (s.enterScope kind).Distinct :=
  List.forall_mem_cons.mpr ⟨List.nodup_nil, hs⟩

theorem Distinct.enter (hs : s.Distinct) (f : Frame) : (f.enter s).Distinct := by
  cases f with
  | scope kind => exact hs.enterScope kind
  | _ => exact hs

theorem Distinct.leaveScope (hs : s.Distinct) : s.leaveScope.Distinct :=
  fun scope hscope => hs scope (List.mem_of_mem_drop hscope)

theorem Distinct.exit (ht : t.Distinct) (f : Frame) (start : EmitState) :
    (f.exit start t).Distinct := by
  cases f with
  | scope kind => exact ht.leaveScope
  | _ => exact ht

end EmitState

namespace Script

variable {h : Bool} {α : Type} {τ : Tariff} {B : ℕ} {env : EmitEnv} {s t : EmitState} {x : α}
  {xs : List Step}

theorem Runs.distinct {m : Script h α} (hr : Runs env m s x t xs) (hs : s.Distinct) :
    t.Distinct := by
  induction hr with
  | pure x s => exact hs
  | ask _ ih => exact ih hs
  | act _ ih => exact ih (hs.act _)
  | separate _ ih => exact ih hs
  | within _ _ ihInner ihRest => exact ihRest ((ihInner (hs.enter _)).exit _ _)
  | head _ _ ihInner ihRest => exact ihRest (ihInner hs)
  | function _ _ _ ihFirst ihInner ihRest =>
    exact ihRest (EmitState.Distinct.leaveScope (ihInner (ihFirst (hs.enterScope .function))))

/-- A run is charged no more than the budget of its script, whether it comes to its end or not. -/
theorem Costs.total_le {m : Script h α} (hm : m.Costs τ B) (hs : s.Distinct) :
    Step.total τ (m.steps env s) ≤ B := by
  induction m generalizing τ B s with
  | pure x => exact Nat.zero_le B
  | fail failure => exact Nat.zero_le B
  | ask q next ih => exact ih _ (hm _) hs
  | act x next ih =>
    obtain ⟨-, C, hC, hnext⟩ := hm
    have hrest := ih hnext (hs.act x)
    simp only [steps, Step.total_cons, Step.charge]
    omega
  | separate next ih =>
    obtain ⟨C, hC, hnext⟩ := hm
    have hrest := ih hnext (s := s.onOutput Output.terminatorToSeparator) hs
    simp only [steps, Step.total_cons, Step.charge]
    omega
  | within f body next ihBody ih =>
    obtain ⟨C, D, hsum, hbody, hnext⟩ := hm
    have hinner := ihBody hbody (hs.enter f)
    rw [Step.total_inside] at hinner
    simp only [steps, Step.total_cons, Step.total_append, Step.charge]
    cases hrun : body.run env (f.enter s) with
    | error failure t => simp only [Step.total_nil]; omega
    | ok y t =>
      have hrest := ih y (hnext y) (((runs_of_run hrun).distinct (hs.enter f)).exit f s)
      dsimp only
      omega
  | head body next ihBody ih =>
    obtain ⟨C, D, hsum, hbody, hnext⟩ := hm
    have hinner := ihBody hbody (hs.enter Frame.head)
    simp only [steps, Step.total_cons, Step.total_append, Step.charge]
    have hfree : Frame.head.charge τ = 0 := rfl
    cases hrun : body.run env (Frame.head.enter s) with
    | error failure t => simp only [Step.total_nil]; omega
    | ok y t =>
      have hrest := ih y (hnext y)
        (((runs_of_run hrun).distinct (hs.enter Frame.head)).exit Frame.head s)
      dsimp only
      omega
  | function shape params body next ihParams ihBody ih =>
    obtain ⟨C, D, E, hsum, hparams, hbody, hnext⟩ := hm
    have hfirst := ihParams hparams (hs.enterScope .function)
    simp only [steps, Step.total_append]
    cases hrun : params.run env (s.enterScope .function) with
    | error failure u => simp only [Step.total_nil]; omega
    | ok y u =>
      have hu : (shape.enter u).Distinct :=
        (runs_of_run hrun).distinct (hs.enterScope .function)
      have hinner := ihBody hbody hu
      simp only [Step.total_append]
      cases hrun' : body.run env (shape.enter u) with
      | error failure t => simp only [Step.total_nil]; omega
      | ok z t =>
        have ht : t.Distinct := (runs_of_run hrun').distinct hu
        have hrest := ih t.innermost (hnext _ ht.innermost)
          (s := (shape.exit u t).leaveScope) ht.leaveScope
        simp only [Step.total_cons, Step.charge]
        omega

/-- The classes around the innermost one keep the fields that are known of them. -/
theorem Runs.drop_declared {m : Script h α} (hr : Runs env m s x t xs) :
    t.declared.drop 1 = s.declared.drop 1 := by
  induction hr with
  | pure x s => rfl
  | ask _ ih => exact ih
  | @act _ _ y _ s _ _ _ _ ih =>
    rw [ih]
    cases y with
    | learnField key =>
      simp only [Action.apply, EmitState.learnField]
      split <;> simp_all
    | _ => rfl
  | separate _ ih => exact ih
  | @within _ _ _ f _ _ s _ u _ _ _ _ _ _ ihInner ihRest =>
    rw [ihRest]
    cases f with
    | fields keys => exact congrArg (List.drop 1) ihInner
    | _ => exact ihInner
  | head _ _ ihInner ihRest => exact ihRest.trans ihInner
  | function _ _ _ ihFirst ihInner ihRest => exact (ihRest.trans ihInner).trans ihFirst

/-- A script with too little at hand learns nothing of the class around it. -/
theorem Costs.declared_eq {m : Script h α} (hm : m.Costs τ B) (hB : B < τ.learn)
    (hr : Runs env m s x t xs) (hs : s.Distinct) : t.declared = s.declared := by
  induction hr generalizing B with
  | pure x s => rfl
  | ask _ ih => exact ih (hm _) hB hs
  | @act _ _ y _ s _ _ _ _ ih =>
    obtain ⟨hthreshold, C, hC, hnext⟩ := hm
    rw [ih hnext (by omega) (hs.act y)]
    cases y with
    | learnField key => exact absurd hthreshold (by simpa [Action.threshold] using hB)
    | _ => rfl
  | separate _ ih =>
    obtain ⟨C, hC, hnext⟩ := hm
    exact ih hnext (by omega) hs
  | @within _ _ _ f _ _ s _ u _ _ _ _ inner _ ihInner ihRest =>
    obtain ⟨C, D, hsum, hbody, hnext⟩ := hm
    rw [ihRest (hnext _) (by omega) ((inner.distinct (hs.enter f)).exit f s)]
    cases f with
    | fields keys => exact inner.drop_declared
    | _ => exact ihInner hbody (by omega) (hs.enter _)
  | head inner _ ihInner ihRest =>
    obtain ⟨C, D, hsum, hbody, hnext⟩ := hm
    exact (ihRest (hnext _) (by omega) (inner.distinct hs)).trans (ihInner hbody (by omega) hs)
  | @function _ _ shape _ _ _ s _ u v _ _ _ _ first inner _ ihFirst ihInner ihRest =>
    obtain ⟨C, D, E, hsum, hparams, hbody, hnext⟩ := hm
    have hopened := hs.enterScope .function
    have hbrace : (shape.enter u).Distinct := first.distinct hopened
    have hstop := inner.distinct hbrace
    calc
      _ = v.declared := ihRest (hnext _ hstop.innermost) (by omega) hstop.leaveScope
      _ = u.declared := ihInner hbody (by omega) hbrace
      _ = s.declared := ihFirst hparams (by omega) hopened

end Script
end EcmaPhp
