import EcmaPhp.Proofs.Budget.Statement

/-! What a constructor learns of its class. As long as constructors stand in classes and objects only,
as the grammar has it, none of those inside a constructor declares fields of the class around it. -/
namespace EcmaPhp
open Emit

namespace Node

/-- A child that stands where the grammar has it: a constructor in the body of a class or in an
object, the body of a class in a class, and a class or an object neither in place of a list nor in
place of the statements of an accessor. -/
structure Admits (n c : Node) : Prop where
  member : isConstructor c = true → n.kind = .classBody ∨ n.kind = .object
  classBody : c.kind = .classBody → n.kind.isClass = true
  closed : c.kind.hasMembers = true → c.field.any Tariff.openFields.contains = false
  statements : c.kind.hasMembers = true → n.accessor?.isSome = true → c.field ≠ some .body

instance (n c : Node) : Decidable (n.Admits c) :=
  decidable_of_iff
    ((isConstructor c = true → n.kind = .classBody ∨ n.kind = .object) ∧
      (c.kind = .classBody → n.kind.isClass = true) ∧
      (c.kind.hasMembers = true → c.field.any Tariff.openFields.contains = false) ∧
      (c.kind.hasMembers = true → n.accessor?.isSome = true → c.field ≠ some .body))
    ⟨fun h => ⟨h.1, h.2.1, h.2.2.1, h.2.2.2⟩, fun h => ⟨h.1, h.2, h.3, h.4⟩⟩

/-- A tree in which everything stands where the grammar has it. -/
def Orderly (n : Node) : Prop := ∀ m ∈ n.preorder, ∀ c ∈ m.children, m.Admits c

instance (n : Node) : Decidable n.Orderly :=
  inferInstanceAs (Decidable (∀ m ∈ n.preorder, ∀ c ∈ m.children, m.Admits c))

variable {n c : Node}

theorem Orderly.admits (h : n.Orderly) (hc : c ∈ n.children) : n.Admits c :=
  h n (by rw [preorder_eq]; exact List.mem_cons_self) c hc

theorem Orderly.child (h : n.Orderly) (hc : c ∈ n.children) : c.Orderly := by
  intro m hm
  apply h
  rw [preorder_eq]
  exact List.mem_cons_of_mem n (mem_preorderAll.mpr ⟨c, hc, hm⟩)

theorem Orderly.opensMembers_eq (h : n.Orderly) : n.opensMembers = false := by
  cases hbody : n.child? .body with
  | none => simp [opensMembers, hbody]
  | some body =>
    have hadmits := h.admits (mem_children_of_child? hbody)
    have hfield : body.field = some .body := by simpa using List.find?_some hbody
    cases hmembers : body.kind.hasMembers with
    | false => simp [opensMembers, hbody, hmembers]
    | true =>
      have haccessor := mt (hadmits.statements hmembers) (not_not_intro hfield)
      simp [opensMembers, Bool.eq_false_iff.mpr haccessor]

end Node

namespace Tariff

/-- Charges nothing but the fields of a constructor. -/
def ofLearning : Tariff := ⟨0, fun _ => 0, 0, 1⟩

@[simp] theorem own_ofLearning (n : Node) : ofLearning.own n = 0 := by
  simp [own, comments, ofLearning]

theorem extra_ofLearning {n : Node} (h : n.Orderly) : ofLearning.extra n = 0 := by
  simp [extra, ofLearning, h.opensMembers_eq]

/-- A class takes nothing from the class around it. -/
theorem costAll_inClass_ofLearning (ns : List Node) : ofLearning.inClass.costAll ns = 0 := by
  rw [costAll_eq_sum_preorder rfl]
  simp [own, extra, comments, inClass, ofLearning]

theorem costAll_eq_zero {ns : List Node} (hns : ∀ c ∈ ns, ofLearning.cost c = ofLearning.promotion c)
    (hordinary : ∀ c ∈ ns, ¬ isConstructor c = true) : ofLearning.costAll ns = 0 := by
  rw [costAll_eq_sum, List.sum_eq_zero_iff]
  intro x hx
  obtain ⟨c, hc, rfl⟩ := List.mem_map.mp hx
  rw [hns c hc, promotion, if_neg (hordinary c hc)]

/-- The members of an object declare nothing, whatever they are. -/
theorem membersAll_eq_zero {ns : List Node}
    (hns : ∀ c ∈ ns, ofLearning.cost c = ofLearning.promotion c) : ofLearning.membersAll ns = 0 := by
  rw [membersAll_eq_sum, List.sum_eq_zero_iff]
  intro x hx
  obtain ⟨c, hc, rfl⟩ := List.mem_map.mp hx
  rw [hns c hc, Nat.sub_self]

theorem within_ofLearning {n : Node} (h : n.Orderly) (hkind : n.kind ≠ .classBody)
    (hclosed : n.kind.hasMembers = true → n.field.any openFields.contains = false)
    (hchildren : n.kind.isClass = false →
      ∀ c ∈ n.children, ofLearning.cost c = ofLearning.promotion c) :
    ofLearning.within n = 0 := by
  unfold within holdsMembers below
  cases hclass : n.kind.isClass with
  | true =>
    have hmembers : n.kind.hasMembers = true := by simp [Kind.hasMembers, hclass]
    have hobject : n.kind ≠ .object := fun hobject => by simp [hobject, Kind.isClass] at hclass
    simp [hobject, hclosed hmembers, costAll_inClass_ofLearning]
  | false =>
    by_cases hobject : n.kind = .object
    · have hmembers : n.kind.hasMembers = true := by simp [Kind.hasMembers, hobject]
      simp [hobject, hclosed hmembers, membersAll_eq_zero (hchildren hclass)]
    · have hordinary : ∀ c ∈ n.children, ¬ isConstructor c = true := fun c hc hmember =>
        ((h.admits hc).member hmember).elim hkind hobject
      simp [hobject, costAll_eq_zero (hchildren hclass) hordinary]

/-- All that is charged for a node is what it declares itself. -/
theorem cost_ofLearning {n : Node} (h : n.Orderly) (hkind : n.kind ≠ .classBody)
    (hclosed : n.kind.hasMembers = true → n.field.any openFields.contains = false) :
    ofLearning.cost n = ofLearning.promotion n := by
  induction hw : n.weight using Nat.strongRecOn generalizing n with
  | ind w ih =>
    have hchildren (hclass : n.kind.isClass = false) (c : Node) (hc : c ∈ n.children) :
        ofLearning.cost c = ofLearning.promotion c := by
      have hadmits := h.admits hc
      have hbody : c.kind ≠ .classBody := fun hbody => by simp [hadmits.classBody hbody] at hclass
      exact ih _ (hw ▸ Node.weight_lt_of_mem hc) (h.child hc) hbody hadmits.closed rfl
    rw [cost_eq, own_ofLearning, extra_ofLearning h, within_ofLearning h hkind hclosed hchildren]
    omega

/-- What is inside a method declares no fields of the class around it. -/
theorem costAll_ofLearning {n : Node} (h : n.Orderly) (hkind : n.kind = .methodDefinition) :
    ofLearning.costAll n.children = 0 := by
  apply costAll_eq_zero
  · intro c hc
    have hadmits := h.admits hc
    have hbody : c.kind ≠ .classBody := fun hbody => by
      simpa [hkind, Kind.isClass] using hadmits.classBody hbody
    exact cost_ofLearning (h.child hc) hbody hadmits.closed
  · intro c hc hmember
    simpa [hkind] using (h.admits hc).member hmember

end Tariff

section Functions

variable {env : EmitEnv} {n : Node} {body : Part n} {scope : Scope} {s t : EmitState}
  {xs : List Step}

theorem fits_constructorFunction (τ : Tariff) (hbody : n.part? .body = some body)
    (known : List String) (header : String) (form : FunctionForm) :
    (function (fun p c => emitNode p.node c) header form (parametersOf n)
      (body.withoutFieldComments known).1 >>= Pure.pure).Fits τ (τ.costAll n.children) := by
  have hvisit (p : Part n) (c : Context) := fits_emitNode τ p.node c
  have hstatements (c : Context) : (emitNode (body.withoutFieldComments known).1.node c).Fits τ
      (τ.inField n .body) := by
    apply (fits_visit hvisit _ c).mono
    have hheld := τ.cost_withoutFieldComments body known
    have hpart := Tariff.cost_part?_le (τ := τ) hbody
    omega
  apply (fits_function (fits_parametersOf hvisit) hstatements
    (fun _ _ => (Script.fits_pure (B := 0) _).costs) (fun _ _ _ => .pure _) header form).mono
  exact τ.inField_parameters_le n

/-- While the function of a constructor is emitted, no field of its class becomes known. -/
theorem declared_constructorFunction {known : List String} {header : String} {form : FunctionForm}
    (h : n.Orderly) (hkind : n.kind = .methodDefinition) (hbody : n.part? .body = some body)
    (hr : Script.Runs env (function (fun p c => emitNode p.node c) header form (parametersOf n)
      (body.withoutFieldComments known).1) s scope t xs) (hs : s.Distinct) :
    t.declared = s.declared := by
  have hcosts := (fits_constructorFunction Tariff.ofLearning hbody known header form).costs
  rw [Tariff.costAll_ofLearning h hkind] at hcosts
  exact hcosts.declared_eq Nat.one_pos hr hs

/-- Nor does one while other members of the class are emitted. -/
theorem declared_classMembers {members : List (Part n)} (h : n.Orderly) (hkind : n.kind = .classBody)
    (hmembers : ∀ m ∈ members, m.node ∈ n.children ∧ ¬ isConstructor m.node = true)
    (hr : Script.Runs env (members.forM (classMember fun p c => emitNode p.node c)) s () t xs)
    (hs : s.Distinct) : t.declared = s.declared := by
  have hmember : ∀ m ∈ members,
      (classMember (fun p c => emitNode p.node c) m).Fits Tariff.ofLearning 0 := by
    intro m hm
    obtain ⟨hchild, hordinary⟩ := hmembers m hm
    have hadmits := h.admits hchild
    have hbody : m.node.kind ≠ .classBody := fun hbody => by
      simpa [hkind, Kind.isClass] using hadmits.classBody hbody
    have hfree := Tariff.cost_ofLearning (h.child hchild) hbody hadmits.closed
    rw [Tariff.promotion, if_neg hordinary] at hfree
    have hspent := Tariff.ofLearning.spent_le_cost m.node {}
    rw [classMember, if_neg hordinary]
    exact (fits_emitNode _ m.node {}).mono (by omega)
  exact (Script.fits_forM_free members _ hmember).costs.declared_eq Nat.one_pos hr hs

end Functions
end EcmaPhp
