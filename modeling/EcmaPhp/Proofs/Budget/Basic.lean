import EcmaPhp.Emit.Rules
import EcmaPhp.Proofs.Budget.Costs
import EcmaPhp.Proofs.Script.Alike

/-! Scripts that keep to a budget and write their arrays either way, put together step by step. -/
namespace EcmaPhp
open Script EmitM

namespace Script

variable {h : Bool} {α β γ : Type} {τ : Tariff} {A B C : ℕ}

/-- A script that keeps to a budget and does the same however arrays are written. -/
structure Fits (τ : Tariff) (B : ℕ) (m : Script h α) : Prop where
  costs : m.Costs τ B
  alike : ∀ a b, Alike a b m m

namespace Fits

theorem mono {m : Script h α} (hm : m.Fits τ A) (hle : A ≤ B) : m.Fits τ B :=
  ⟨hm.costs.mono hle, hm.alike⟩

theorem free {m : Script h α} (hm : m.Fits τ 0) : m.Fits τ B := hm.mono (Nat.zero_le B)

theorem bind {m : Script h α} {f : α → Script h β} (hm : m.Fits τ A) (hf : ∀ x, (f x).Fits τ B) :
    (m >>= f).Fits τ (A + B) :=
  ⟨hm.costs.bind fun x => (hf x).costs, fun a b => (hm.alike a b).bind fun x => (hf x).alike a b⟩

/-- What costs nothing may go before anything. -/
theorem after {m : Script h α} {f : α → Script h β} (hm : m.Fits τ 0)
    (hf : ∀ x, (f x).Fits τ B) : (m >>= f).Fits τ B :=
  (hm.bind hf).mono (Nat.le_of_eq (Nat.zero_add B))

/-- And after anything. -/
theorem before {m : Script h α} {f : α → Script h β} (hm : m.Fits τ B)
    (hf : ∀ x, (f x).Fits τ 0) : (m >>= f).Fits τ B :=
  hm.bind hf

theorem inHead {m : Script h α} (hm : m.Fits τ B) : m.inHead.Fits τ B :=
  ⟨hm.costs.inHead, fun a b => (hm.alike a b).inHead⟩

theorem liftM {m : EmitM α} (hm : m.Fits τ B) : (liftM m : Script true α).Fits τ B := hm.inHead

end Fits

section Steps

theorem fits_pure (x : α) : (Pure.pure x : Script h α).Fits τ B :=
  ⟨trivial, fun _ _ => .pure x⟩

theorem fits_fail (failure : Failure) : (EmitM.fail failure : EmitM α).Fits τ B :=
  ⟨trivial, fun _ _ => .fail failure⟩

theorem fits_unsupported (n : Node) (reason : String) :
    (EmitM.unsupported n reason : EmitM α).Fits τ B :=
  fits_fail _

theorem fits_act (x : Action) (hthreshold : x.threshold τ = 0) :
    (EmitM.act x : Script h Unit).Fits τ (x.charge τ) :=
  ⟨⟨by omega, 0, by omega, trivial⟩, fun _ _ => .act x (.pure ())⟩

theorem fits_edit (e : Edit) : (EmitM.edit e : Script h Unit).Fits τ (e.charge τ) :=
  fits_act (.edit e) rfl

theorem fits_emitChars (text : List Char) : (EmitM.emitChars text : Script h Unit).Fits τ 0 :=
  fits_edit (.text text)

theorem fits_emit (text : String) : (EmitM.emit text : Script h Unit).Fits τ 0 :=
  fits_emitChars text.toList

theorem fits_ensureTerminator : (EmitM.ensureTerminator : Script h Unit).Fits τ 0 :=
  fits_edit .terminator

theorem fits_note (e : Event) : (EmitM.note e).Fits τ 0 := fits_act (.note e) rfl

theorem fits_register (n : Node) : (EmitM.register n).Fits τ 0 := fits_act (.register n) rfl

theorem fits_ask {q : Query α} (hq : q.IsShared) : (EmitM.ask q : Script h α).Fits τ 0 :=
  ⟨fun _ => trivial, fun _ _ => .ask hq .pure⟩

theorem fits_getScopes : EmitM.getScopes.Fits τ 0 := fits_ask trivial

theorem fits_getTokens : (EmitM.getTokens : Script h TokenIndex).Fits τ 0 := fits_ask trivial

theorem fits_inProgramScope : EmitM.inProgramScope.Fits τ 0 :=
  fits_getScopes.after fun _ => fits_pure _

theorem fits_resolve (n : Node) : (EmitM.resolve n).Fits τ 0 :=
  fits_getScopes.after fun _ => (fits_act (.refer n) rfl).after fun _ => fits_pure _

theorem Fits.arrays {f : Options → EmitM α} (hcosts : ∀ o, (f o).Costs τ B)
    (halike : ∀ (o : Options) a b, Alike a b (f (o.withArrays a)) (f (o.withArrays b))) :
    (EmitM.getOptions >>= f).Fits τ B :=
  ⟨hcosts, fun a b => .options fun o => halike o a b⟩

/-- What does not ask how arrays are written may ask for the other options. -/
theorem Fits.options {f : Options → EmitM α} (hf : ∀ o, (f o).Fits τ B)
    (heq : ∀ o a, f (o.withArrays a) = f o) : (EmitM.getOptions >>= f).Fits τ B := by
  refine Fits.arrays (fun o => (hf o).costs) fun o a b => ?_
  rw [heq, heq]
  exact (hf o).alike a b

theorem Fits.need {n : Node} {f : Field} {k : Part n → EmitM α}
    (hk : ∀ p, n.part? f = some p → (k p).Fits τ B) : (EmitM.need n f >>= k).Fits τ B := by
  rw [EmitM.need]
  cases hp : n.part? f with
  | none => exact fits_fail _
  | some p => exact hk p hp

theorem Fits.needOf {n : Node} {p : Part n} {f : Field} {k : Part n → EmitM α}
    (hk : ∀ q, p.part? f = some q → (k q).Fits τ B) : (EmitM.needOf p f >>= k).Fits τ B := by
  rw [EmitM.needOf]
  cases hq : p.part? f with
  | none => exact fits_fail _
  | some q => exact hk q hq

theorem Fits.needFirst {n : Node} {k : Part n → EmitM α}
    (hk : ∀ p rest, n.parts = p :: rest → (k p).Fits τ B) :
    (EmitM.needFirst n >>= k).Fits τ B := by
  rw [EmitM.needFirst]
  cases hp : n.parts with
  | nil => exact fits_fail _
  | cons p rest => exact hk p rest hp

theorem fits_ite {c : Prop} [Decidable c] {m m' : Script h α} (hm : c → m.Fits τ B)
    (hm' : ¬ c → m'.Fits τ B) : (if c then m else m').Fits τ B := by
  split
  · exact hm ‹_›
  · exact hm' ‹_›

end Steps

section Frames

theorem Fits.within (f : Frame) {m : Script h α} (hm : m.Fits (f.inside τ) B) :
    (EmitM.within f m).Fits τ (f.charge τ + B) :=
  ⟨⟨B, 0, Nat.le_refl _, hm.costs, fun _ => trivial⟩, fun a b => .within f (hm.alike a b) .pure⟩

theorem Fits.inFrame {f : Frame} {m : Script h α} (hm : m.Fits τ B) (hcharge : f.charge τ = 0)
    (hinside : f.inside τ = τ) : (EmitM.within f m).Fits τ B := by
  have hbody : m.Fits (f.inside τ) B := hinside.symm ▸ hm
  have hframe := hbody.within f
  rwa [hcharge, Nat.zero_add] at hframe

theorem Fits.around {n : Node} {m : Script h Unit} (hm : m.Fits τ B) (parens : Parens) :
    (EmitM.around n parens m).Fits τ (τ.own n + B) :=
  fits_getTokens.after fun tokens => Fits.within (.node n (parens.wraps tokens n)) hm

theorem Fits.inScope {m : EmitM Unit} (hm : m.Fits τ B) (kind : ScopeKind) :
    (EmitM.inScope kind m).Fits τ B :=
  hm.inFrame rfl rfl

theorem Fits.asHead {m : Script true α} (hm : m.Fits τ B) :
    (EmitM.inHead m : Script h α).Fits τ B :=
  ⟨⟨B, 0, Nat.le_refl _, hm.costs, fun _ => trivial⟩, fun a b => .head (hm.alike a b) .pure⟩

theorem fits_separate : EmitM.separate.Fits τ τ.separation :=
  ⟨⟨0, Nat.le_refl _, trivial⟩, fun _ _ => .separate (.pure ())⟩

/-- A function, and what is done with its scope, which has no name twice. -/
theorem Fits.inFunction (shape : FunctionShape) {params body : EmitM Unit}
    {f : Scope → EmitM α} (hparams : params.Fits τ A) (hbody : body.Fits τ B)
    (hcosts : ∀ scope, scope.Distinct → (f scope).Costs τ C)
    (halike : ∀ scope a b, Alike a b (f scope) (f scope)) :
    (EmitM.inFunction shape params body >>= f).Fits τ (A + B + C) :=
  ⟨⟨A, B, C, Nat.le_refl _, hparams.costs, hbody.costs, hcosts⟩, fun a b =>
    .function shape (hparams.alike a b) (hbody.alike a b) fun scope => halike scope a b⟩

end Frames

section Lists

theorem fits_forM (xs : List γ) (f : γ → Script h PUnit) (cost : γ → ℕ)
    (hf : ∀ x ∈ xs, (f x).Fits τ (cost x)) : (forM xs f).Fits τ (xs.map cost).sum := by
  induction xs with
  | nil => exact fits_pure _
  | cons x rest ih =>
    rw [List.forM_cons, List.map_cons, List.sum_cons]
    exact (hf x (by simp)).bind fun _ => ih fun y hy => hf y (by simp [hy])

/-- Steps that cost nothing, one for each element. -/
theorem fits_forM_free (xs : List γ) (f : γ → Script h PUnit) (hf : ∀ x ∈ xs, (f x).Fits τ 0) :
    (forM xs f).Fits τ 0 :=
  (fits_forM xs f (fun _ => 0) hf).mono (by simp)

theorem fits_mapM_free (xs : List γ) (f : γ → Script h β) (hf : ∀ x ∈ xs, (f x).Fits τ 0) :
    (xs.mapM f).Fits τ 0 := by
  have hloop (acc : List β) : (List.mapM.loop f xs acc).Fits τ 0 := by
    induction xs generalizing acc with
    | nil => exact fits_pure _
    | cons x rest ih =>
      rw [List.mapM.loop]
      exact (hf x (by simp)).after fun y => ih (fun z hz => hf z (by simp [hz])) (y :: acc)
  exact hloop []

end Lists

end Script

namespace Emit

section Layout

variable {τ : Tariff} {A B : ℕ}

theorem fits_separated {γ : Type} (separator : String) (xs : List γ) (step : γ → EmitM Unit)
    (cost : γ → ℕ) (hsteps : ∀ x ∈ xs, (step x).Fits τ (cost x)) :
    (separated separator (xs.map step)).Fits τ (xs.map cost).sum := by
  induction xs with
  | nil => exact fits_pure _
  | cons x rest ih =>
    have hx := hsteps x (by simp)
    have hrest := ih fun y hy => hsteps y (by simp [hy])
    cases rest with
    | nil => exact hx.mono (by simp)
    | cons y more => exact hx.bind fun _ => (fits_emit separator).after fun _ => hrest

theorem fits_indented {m : EmitM Unit} (hm : m.Fits τ B) : (indented m).Fits τ B :=
  hm.inFrame rfl rfl

theorem fits_block {m : EmitM Unit} (hm : m.Fits τ B) (opening closing : String) :
    (block opening m closing).Fits τ B :=
  hm.inFrame rfl rfl

theorem fits_padded {m : EmitM Unit} (hm : m.Fits τ B) (opening closing : String) :
    (padded opening m closing).Fits τ B :=
  Fits.inFrame ((fits_emit " ").after fun _ => hm) rfl rfl

theorem fits_hoist (statement : Node) : (hoist statement).Fits τ 0 := by
  rw [hoist]
  split
  · rename_i declaration _
    refine fits_ite (fun _ => fits_inProgramScope.after fun inProgram => ?_) fun _ => fits_pure _
    refine fits_ite (fun _ => fits_register _) fun _ => ?_
    split
    · exact fits_register _
    · exact fits_fail _
  · exact fits_pure _

variable {n : Node} {visit : Visit n}

theorem fits_bracedBody {body : Part n} (hbody : ∀ c, (visit body c).Fits τ B) :
    (bracedBody visit body).Fits τ B :=
  fits_ite (fun _ => fits_block (hbody _) _ _) fun _ => fits_padded (hbody _) _ _

theorem fits_condition {test : Part n} (htest : ∀ c, (visit test c).Fits τ B) :
    (condition visit test).Fits τ B :=
  fits_block (htest _) _ _

variable (hv : ∀ p c, (visit p c).Fits τ (τ.spent p.node c))
include hv

/-- A part is charged with all that is below it. -/
theorem fits_visit (p : Part n) (context : Context) : (visit p context).Fits τ (τ.cost p.node) :=
  (hv p context).mono (τ.spent_le_cost p.node context)

theorem fits_visit_part {f : Field} {p : Part n} (hp : n.part? f = some p) (context : Context) :
    (visit p context).Fits τ (τ.inField n f) :=
  (fits_visit hv p context).mono (Tariff.cost_part?_le hp)

/-- The first child may take all that is there for the children. -/
theorem fits_visit_first {p : Part n} {rest : List (Part n)} (hp : n.parts = p :: rest)
    (context : Context) : (visit p context).Fits τ (τ.costAll n.children) := by
  refine (fits_visit hv p context).mono (Tariff.cost_le_costAll ?_)
  rw [← n.map_node_parts, hp]
  exact List.mem_cons_self

/-- A part of a part may take all that is there for the part. -/
theorem fits_visit_of_mem {p q : Part n} (hq : q ∈ p.parts) (hp : p.node.kind.hasMembers = false)
    (context : Context) : (visit q context).Fits τ (τ.cost p.node) := by
  have hmem : q.node ∈ p.node.children := by
    rw [← p.map_node_parts]
    exact List.mem_map_of_mem hq
  have hle := Nat.le_trans (Tariff.cost_le_costAll hmem) (τ.costAll_children_le hp)
  exact (fits_visit hv q context).mono hle

theorem fits_commaSeparated (context : Context) (parts : List (Part n)) :
    (commaSeparated visit context parts).Fits τ (τ.costAll (parts.map (·.node))) := by
  rw [Tariff.costAll_eq_sum, List.map_map]
  exact fits_separated _ parts _ _ fun p _ => fits_visit hv p context

/-- All children, separated by commas. -/
theorem fits_commaSeparated_parts (context : Context) :
    (commaSeparated visit context n.parts).Fits τ (τ.costAll n.children) := by
  have hparts := fits_commaSeparated hv context n.parts
  rwa [n.map_node_parts] at hparts

/-- The members of an object. -/
theorem fits_members :
    (commaSeparated visit { place := .objectMember } n.parts).Fits τ (τ.membersAll n.children) := by
  have hmembers := fits_separated ", " n.parts (visit · { place := .objectMember }) _
    fun p _ => (hv p _).mono (τ.spent_le_member p.node rfl)
  rw [← n.map_node_parts, Tariff.membersAll_eq_sum, List.map_map]
  exact hmembers

theorem fits_statements (parts : List (Part n)) :
    (statements visit parts).Fits τ (τ.costAll (parts.map (·.node))) := by
  rw [Tariff.costAll_eq_sum, List.map_map]
  refine (fits_forM_free parts _ fun p _ => fits_hoist p.node).after fun _ => ?_
  exact fits_forM parts _ _ fun p _ => fits_visit hv p {}

end Layout

end Emit
end EcmaPhp
