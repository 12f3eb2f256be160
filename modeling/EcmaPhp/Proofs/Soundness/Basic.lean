import EcmaPhp.Emit.Rules
import EcmaPhp.Proofs.Script.Soundness
import EcmaPhp.Proofs.Tree.Complete

/-! When a rule of emission finds what it needs: the parts of its node, a scope for its declarations
and a point for its insertions. The constructs that are refused. -/
namespace EcmaPhp
open Script EmitM

namespace Script

variable {h : Bool} {α β : Type} {R : Failure → Prop} {k : Ground}

@[simp]
theorem sound_pure (a : α) : (Pure.pure a : Script h α).Sound R k := trivial

@[simp]
theorem gives_pure (a b : α) : (Pure.pure a : Script h α).Gives b ↔ b = a := Iff.rfl

/-- What a sequence gives, its second script gives. -/
theorem exists_gives_of_bind {m : Script h α} {f : α → Script h β} {b : β}
    (hb : (m >>= f).Gives b) : ∃ a, (f a).Gives b := by
  induction m with
  | pure a => exact ⟨a, hb⟩
  | fail failure => cases hb
  | ask q next ih => exact hb.elim fun c hc => ih c hc
  | act x next ih => exact ih hb
  | separate next ih => exact ih hb
  | within frame body next _ ih => exact hb.elim fun c hc => ih c hc
  | head body next _ ih => exact hb.elim fun c hc => ih c hc
  | function shape params body next _ _ ih => exact hb.elim fun c hc => ih c hc

@[simp]
theorem sound_unsupported (n : Node) (reason : String) :
    (EmitM.unsupported n reason : EmitM α).Sound R k ↔ R (.unsupported n (some reason)) := Iff.rfl

@[simp]
theorem sound_act (x : Action) : (EmitM.act x : Script h Unit).Sound R k ↔ k.Admits x :=
  ⟨fun hx => hx.1, fun hx => ⟨hx, trivial⟩⟩

@[simp]
theorem sound_edit (e : Edit) : (EmitM.edit e : Script h Unit).Sound R k ↔ k.Admits (.edit e) :=
  sound_act _

@[simp]
theorem sound_emitChars (text : List Char) : (EmitM.emitChars text : Script h Unit).Sound R k :=
  ⟨trivial, trivial⟩

@[simp]
theorem sound_emit (text : String) : (EmitM.emit text : Script h Unit).Sound R k :=
  ⟨trivial, trivial⟩

@[simp]
theorem sound_ensureTerminator : (EmitM.ensureTerminator : Script h Unit).Sound R k :=
  ⟨trivial, trivial⟩

@[simp]
theorem sound_note (e : Event) : (EmitM.note e).Sound R k := ⟨trivial, trivial⟩

@[simp]
theorem sound_register (n : Node) :
    (EmitM.register n).Sound R k ↔ n.hasNames = true ∧ k.inScope = true :=
  sound_act _

@[simp]
theorem sound_ask (q : Query α) : (EmitM.ask q : Script h α).Sound R k := fun _ => trivial

@[simp]
theorem sound_getScopes : EmitM.getScopes.Sound R k := fun _ => trivial

@[simp]
theorem sound_getOptions : EmitM.getOptions.Sound R k := fun _ => trivial

@[simp]
theorem sound_getTokens : (EmitM.getTokens : Script h TokenIndex).Sound R k := fun _ => trivial

@[simp]
theorem sound_inProgramScope : EmitM.inProgramScope.Sound R k := fun _ => trivial

@[simp]
theorem sound_resolve (n : Node) : (EmitM.resolve n).Sound R k := fun _ => ⟨trivial, trivial⟩

@[simp]
theorem sound_ite (c : Prop) [Decidable c] (m m' : Script h α) :
    (if c then m else m').Sound R k ↔ (c → m.Sound R k) ∧ (¬ c → m'.Sound R k) := by
  split <;> simp_all

@[simp]
theorem sound_within (f : Frame) (m : Script h α) :
    (EmitM.within f m).Sound R k ↔ m.Sound R (k.inside f) :=
  ⟨fun hm => hm.1, fun hm => ⟨hm, fun _ => trivial⟩⟩

@[simp]
theorem sound_around (n : Node) (parens : Parens) {m : Script h Unit} (hm : m.Sound R k) :
    (EmitM.around n parens m).Sound R k :=
  fun _ => ⟨hm, fun _ => trivial⟩

@[simp]
theorem sound_inScope (kind : ScopeKind) (m : EmitM Unit) :
    (EmitM.inScope kind m).Sound R k ↔ m.Sound R { k with inScope := true } :=
  sound_within _ _

@[simp]
theorem sound_inFunction (shape : FunctionShape) (params body : EmitM Unit) :
    (EmitM.inFunction shape params body).Sound R k ↔
      params.Sound R { k with inScope := true } ∧ body.Sound R ⟨k.points + 2, true⟩ :=
  ⟨fun hm => ⟨hm.1, hm.2.1⟩, fun hm => ⟨hm.1, hm.2, fun _ => trivial⟩⟩

@[simp]
theorem sound_head (m : Script true α) :
    (EmitM.inHead m : Script h α).Sound R k ↔ m.Sound R k :=
  ⟨fun hm => hm.1, fun hm => ⟨hm, fun _ => trivial⟩⟩

@[simp]
theorem sound_liftM (m : EmitM α) (hm : m.Sound R k) : (liftM m : Script true α).Sound R k :=
  hm.inHead

@[simp]
theorem sound_separate : EmitM.separate.Sound R k := trivial

@[simp]
theorem sound_forM {γ : Type} (xs : List γ) (f : γ → Script h PUnit)
    (hf : ∀ x ∈ xs, (f x).Sound R k) : (forM xs f).Sound R k := by
  induction xs with
  | nil => trivial
  | cons x rest ih =>
    rw [List.forM_cons, sound_bind]
    exact ⟨hf x (by simp), fun _ _ => ih fun y hy => hf y (by simp [hy])⟩

@[simp]
theorem sound_mapM {γ δ : Type} (xs : List γ) (f : γ → Script h δ)
    (hf : ∀ x ∈ xs, (f x).Sound R k) : (xs.mapM f).Sound R k := by
  have hloop (acc : List δ) : (List.mapM.loop f xs acc).Sound R k := by
    induction xs generalizing acc with
    | nil => trivial
    | cons x rest ih =>
      rw [List.mapM.loop, sound_bind]
      exact ⟨hf x (by simp), fun y _ => ih (fun z hz => hf z (by simp [hz])) (y :: acc)⟩
  exact hloop []

theorem need_eq {n : Node} {f : Field} {p : Part n} (hp : n.part? f = some p) :
    EmitM.need n f = Pure.pure p := by
  rw [EmitM.need, hp]

theorem needOf_eq {n : Node} {f : Field} {p q : Part n} (hq : p.part? f = some q) :
    EmitM.needOf p f = Pure.pure q := by
  rw [EmitM.needOf, hq]

theorem needFirst_eq {n : Node} {p : Part n} {rest : List (Part n)} (hp : n.parts = p :: rest) :
    EmitM.needFirst n = Pure.pure p := by
  rw [EmitM.needFirst, hp]

end Script

/-- A construct that has no counterpart in PHP, with the reason that its refusal gives. -/
inductive Node.Refused : Node → Option String → Prop
  | kind {n : Node} (h : rule? n.kind = none) : Refused n none
  | patternDefault {n : Node}
      (h : n.kind = .assignmentPattern ∨ n.kind = .objectAssignmentPattern) :
    Refused n (some "destructuring default")
  | objectRest {n : Node} (h : n.kind = .restPattern) : Refused n (some "object rest")
  | taggedTemplate {n : Node} (h : (n.child? .arguments).any (·.kind = .templateString) = true) :
    Refused n (some "tagged template")
  | logicalAssignment {n : Node} (h : n.operator = "&&=" ∨ n.operator = "||=") :
    Refused n (some "logical assignment")
  | catchBinding {n : Node} (h : n.kind ≠ .identifier) :
    Refused n (some "destructured catch binding")
  | parameter {n : Node} (h : n.kind.isPattern = true ∨
      n.kind = .assignmentPattern ∧ (n.child? .left).any (·.kind.isPattern) = true) :
    Refused n (some "destructured parameter")
  | setterParameter {n : Node} (h : n.kind ≠ .identifier) :
    Refused n (some "destructured setter parameter")
  | superclass {n : Node} (h : n.kind = .classHeritage) (hbase : ∀ base ∈ n.children.head?,
      base.kind ≠ .identifier ∧ base.kind ≠ .memberExpression) :
    Refused n (some "computed superclass")
  | accessor {n : Node} (h : n.accessor?.isSome = true) :
    Refused n (some "accessor in object literal")
  | methodName {n : Node} (h : n.kind = .methodDefinition)
      (hname : (n.child? .name).any (·.kind = .computedPropertyName) = true) :
    Refused n (some "computed method name")
  | fieldName {n : Node} (h : n.kind = .fieldDefinition)
      (hname : (n.child? .property).any (·.kind = .computedPropertyName) = true) :
    Refused n (some "computed field name")
  | moduleName {n : Node} (h : n.kind ≠ .identifier) (hpattern : n.kind ≠ .objectPattern) :
    Refused n (some "module require binding")
  | moduleProperty {n : Node} (h : n.kind ≠ .shorthandPattern)
      (hvalue : n.kind = .pairPattern → ∀ value ∈ n.child? .value, value.kind ≠ .identifier) :
    Refused n (some "module require binding")

/-- A failure that refuses a construct. Only an import specifier at a location of `P` may lack its
name. -/
@[simp]
def Failure.Refuses (P : Location → Prop) : Failure → Prop
  | .unsupported n reason => n.Refused reason
  | .missingField n .name => n.kind = .importSpecifier ∧ P n.location
  | _ => False

open Failure (Refuses)

/-- Whether a node can be emitted at its place on a ground: a constructor that is no member of an
object declares fields at a point. -/
def Node.Fits (n : Node) (context : Context) (k : Ground) : Prop :=
  Emit.isConstructor n = true → context.place ≠ .objectMember → 0 < k.points

/-- What a rule may rely on: its parts are emitted soundly wherever there is a scope. -/
def Visit.Sound (P : Location → Prop) {n : Node} (visit : Visit n) : Prop :=
  ∀ (p : Part n) (context : Context) (k : Ground), k.inScope = true → p.node.Complete P →
    p.node.Fits context k → (visit p context).Sound (Refuses P) k

theorem Node.fits_of_ne {n : Node} (h : n.kind ≠ .methodDefinition) (context : Context)
    (k : Ground) : n.Fits context k := by
  intro hconstructor
  simp [Emit.isConstructor, h] at hconstructor

theorem Visit.Sound.placed {P : Location → Prop} {n : Node} {visit : Visit n}
    (hv : Visit.Sound P visit) {p : Part n} {context : Context} {k : Ground}
    (hp : p.node.Placed P) (hk : k.inScope = true) : (visit p context).Sound (Refuses P) k :=
  hv p context k hk hp.complete (Node.fits_of_ne hp.kind context k)

namespace Emit

variable {P : Location → Prop} {k : Ground} {n : Node} {visit : Visit n}

section Layout

@[simp]
theorem sound_separated (separator : String) (steps : List (EmitM Unit))
    (hsteps : ∀ m ∈ steps, m.Sound (Refuses P) k) :
    (separated separator steps).Sound (Refuses P) k := by
  induction steps with
  | nil => trivial
  | cons m rest ih =>
    have hm := hsteps m (by simp)
    have hrest := ih fun m' hm' => hsteps m' (by simp [hm'])
    cases rest with
    | nil => exact hm
    | cons m' rest' => simp [separated, hm, hrest]

@[simp]
theorem sound_indented (body : EmitM Unit) :
    (indented body).Sound (Refuses P) k ↔ body.Sound (Refuses P) k :=
  sound_within _ _

@[simp]
theorem sound_block (opening closing : String) (body : EmitM Unit) :
    (block opening body closing).Sound (Refuses P) k ↔ body.Sound (Refuses P) k :=
  sound_within _ _

@[simp]
theorem sound_padded (opening closing : String) (body : EmitM Unit)
    (hbody : body.Sound (Refuses P) k) : (padded opening body closing).Sound (Refuses P) k := by
  simp [padded, hbody]

theorem sound_hoist {statement : Node} (hs : statement.Complete P) (hk : k.inScope = true) :
    (hoist statement).Sound (Refuses P) k := by
  unfold hoist
  dsimp only
  split
  · rename_i declaration hdeclaration
    have hd : declaration.Complete P := by
      split at hdeclaration
      · exact hs.of_child? hdeclaration
      · cases hdeclaration
        exact hs
    simp only [sound_ite, sound_bind, sound_inProgramScope, sound_register, sound_pure, hd.hasNames,
      hk, implies_true, and_true, true_and]
    intro hfunction _ _ _
    have hname : .name ∈ declaration.kind.fields := by
      simp [Kind.fields_of_isFunctionDeclaration hfunction]
    obtain ⟨name, hchild⟩ := hd.shaped.exists_child? hname
    simp [hchild, (hd.of_child? hchild).hasNames, hk]
  · trivial

variable (hv : Visit.Sound P visit) (hk : k.inScope = true)
include hv hk

theorem sound_commaSeparated {context : Context} {parts : List (Part n)}
    (hparts : ∀ p ∈ parts, p.node.Placed P) :
    (commaSeparated visit context parts).Sound (Refuses P) k := by
  refine sound_separated _ _ fun m hm => ?_
  obtain ⟨p, hp, rfl⟩ := List.mem_map.mp hm
  exact hv.placed (hparts p hp) hk

theorem sound_bracedBody {body : Part n} (hbody : body.node.Placed P) :
    (bracedBody visit body).Sound (Refuses P) k := by
  simp [bracedBody, hv.placed hbody hk]

theorem sound_condition {test : Part n} (htest : test.node.Placed P) :
    (condition visit test).Sound (Refuses P) k := by
  simp [condition, hv.placed htest hk]

theorem sound_statements {parts : List (Part n)} (hparts : ∀ p ∈ parts, p.node.Placed P) :
    (statements visit parts).Sound (Refuses P) k := by
  simp only [statements, sound_bind]
  refine ⟨?_, fun _ _ => ?_⟩
  · exact sound_forM _ _ fun p hp => sound_hoist (hparts p hp).complete hk
  · exact sound_forM _ _ fun p hp => hv.placed (hparts p hp) hk

end Layout

end Emit
end EcmaPhp
