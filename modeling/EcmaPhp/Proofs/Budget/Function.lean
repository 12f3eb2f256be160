import EcmaPhp.Proofs.Budget.Basic
import Mathlib.Algebra.Order.BigOperators.Group.List
import Mathlib.Algebra.Order.Group.Nat

/-! The rules for functions and classes keep to what their nodes may be charged. An accessor is
charged where the common function has its body, a comment that moves where it goes. -/
namespace EcmaPhp

namespace Tariff

variable {τ : Tariff}

theorem inField_parameters_le (τ : Tariff) (n : Node) :
    τ.inField n .parameters + τ.inField n .parameter + τ.inField n .body ≤
      τ.costAll n.children := by
  have hsum := τ.inField_add_add_le n (f := .parameters) (g := .parameter) (k := .body) (by decide)
  omega

/-- The comments that are taken from a statement are no longer charged with it. -/
theorem cost_takeBlockComments (τ : Tariff) (s : Node) :
    τ.cost s.takeBlockComments.1 + τ.comments s.takeBlockComments.2 = τ.cost s := by
  have hsplit : τ.comments (s.leading.filter Comment.isBlock) +
      τ.comments (s.leading.filter (!·.isBlock)) = τ.comments s.leading := by
    rw [← comments_append]
    exact ((List.filter_append_perm Comment.isBlock s.leading).map τ.comment).sum_nat
  unfold Node.takeBlockComments
  dsimp only
  split
  · rename_i first rest last hfilter hlast
    rw [cost_eq, cost_eq τ s]
    have hextra (leading : List Comment) (skipped : Option (Int × Int)) :
        τ.extra { s with leading, skipped } = τ.extra s := rfl
    have hpromotion (leading : List Comment) (skipped : Option (Int × Int)) :
        τ.promotion { s with leading, skipped } = τ.promotion s := rfl
    have hwithin (leading : List Comment) (skipped : Option (Int × Int)) :
        τ.within { s with leading, skipped } = τ.within s := rfl
    rw [hextra, hpromotion, hwithin]
    simp only [own]
    omega
  · simp

theorem promotion_takeBlockComments (τ : Tariff) (s : Node) :
    τ.promotion s.takeBlockComments.1 = τ.promotion s := by
  unfold Node.takeBlockComments
  dsimp only
  split <;> rfl

theorem costAll_takeFieldComments (τ : Tariff) (known : List String) (ns : List Node) :
    τ.costAll (Node.takeFieldComments known ns).1 +
      τ.comments ((Node.takeFieldComments known ns).2.flatMap (·.2)) = τ.costAll ns := by
  induction ns generalizing known with
  | nil => rfl
  | cons s rest ih =>
    unfold Node.takeFieldComments
    split
    · have hrest := ih known
      simp only [costAll_cons]
      omega
    · rename_i key _
      split
      · have hrest := ih known
        simp only [costAll_cons]
        omega
      · have hrest := ih (key :: known)
        have hs := τ.cost_takeBlockComments s
        simp only [costAll_cons, List.flatMap_cons, comments_append]
        omega

theorem membersAll_takeFieldComments (τ : Tariff) (known : List String) (ns : List Node) :
    τ.membersAll (Node.takeFieldComments known ns).1 +
      τ.comments ((Node.takeFieldComments known ns).2.flatMap (·.2)) = τ.membersAll ns := by
  induction ns generalizing known with
  | nil => rfl
  | cons s rest ih =>
    unfold Node.takeFieldComments
    split
    · have hrest := ih known
      simp only [membersAll]
      omega
    · rename_i key _
      split
      · have hrest := ih known
        simp only [membersAll]
        omega
      · have hrest := ih (key :: known)
        have hs := τ.cost_takeBlockComments s
        have hle := τ.promotion_le_cost s.takeBlockComments.1
        simp only [membersAll, List.flatMap_cons, comments_append]
        rw [τ.promotion_takeBlockComments] at hle ⊢
        omega

end Tariff

namespace Node

/-- A node without what a constructor may take from it. -/
def unled (n : Node) : Node := { n with leading := [], skipped := none }

theorem unled_takeBlockComments (s : Node) : s.takeBlockComments.1.unled = s.unled := by
  unfold takeBlockComments
  dsimp only
  split <;> rfl

theorem map_unled_takeFieldComments (known : List String) (ns : List Node) :
    (takeFieldComments known ns).1.map unled = ns.map unled := by
  induction ns generalizing known with
  | nil => rfl
  | cons s rest ih =>
    unfold takeFieldComments
    split
    · simp [ih]
    · split
      · simp [ih]
      · simp [ih, unled_takeBlockComments]

variable {n : Node} {children : List Node}

theorem map_unled_child? (h : children.map unled = n.children.map unled) (f : Field) :
    ({ n with children }.child? f).map unled = (n.child? f).map unled := by
  have hfind (ns : List Node) : (ns.find? (·.field = some f)).map unled =
      (ns.map unled).find? (·.field = some f) := by
    rw [List.find?_map]
    rfl
  rw [child?, child?, hfind, hfind, h]

theorem isConstructor_of_unled (h : children.map unled = n.children.map unled) :
    Emit.isConstructor { n with children } = Emit.isConstructor n := by
  have hany (m : Option Node) : m.any (·.text = "constructor") =
      (m.map unled).any (·.text = "constructor") := by
    cases m <;> rfl
  unfold Emit.isConstructor
  rw [hany, hany (n.child? .name), map_unled_child? h]
  rfl

theorem opensMembers_of_unled (h : children.map unled = n.children.map unled) :
    { n with children }.opensMembers = n.opensMembers := by
  have hany (m : Option Node) :
      m.any (·.kind.hasMembers) = (m.map unled).any (·.kind.hasMembers) := by
    cases m <;> rfl
  unfold opensMembers
  rw [hany, hany (n.child? .body), map_unled_child? h]
  rfl

theorem constructorsAll_of_unled (h : children.map unled = n.children.map unled) :
    constructorsAll children = constructorsAll n.children := by
  have hmap (ns : List Node) : constructorsAll (ns.map unled) = constructorsAll ns := by
    induction ns with
    | nil => rfl
    | cons m rest ih =>
      have hunled : m.unled.constructors = m.constructors := by
        rw [constructors_eq, constructors_eq m]
        rfl
      rw [List.map_cons, constructorsAll, constructorsAll, hunled, ih]
  rw [← hmap, h, hmap]

theorem separations_of_unled (h : children.map unled = n.children.map unled) :
    { n with children }.separations = n.separations := by
  have hcount (m : Option Node) : ((m.filter (·.kind.isDeclaration)).elim 0 fun d =>
      (d.childrenOf .variableDeclarator).length) =
      ((m.map unled).filter (·.kind.isDeclaration)).elim 0 fun d =>
        (d.childrenOf .variableDeclarator).length := by
    cases m with
    | none => rfl
    | some d =>
      have hkind : d.unled.kind = d.kind := rfl
      simp only [Option.filter_some, Option.map_some, hkind]
      split <;> rfl
  unfold separations headDeclarators
  rw [hcount, hcount (n.child? .initializer), map_unled_child? h]

end Node

namespace Tariff

/-- The comments that are taken from a constructor are no longer charged with its body. -/
theorem cost_withoutFieldComments (τ : Tariff) {n : Node} (body : Part n) (known : List String) :
    τ.cost (body.withoutFieldComments known).1.node +
      τ.comments ((body.withoutFieldComments known).2.flatMap (·.2)) = τ.cost body.node := by
  have hchildren := Node.map_unled_takeFieldComments known body.node.children
  have hextra : τ.extra (body.withoutFieldComments known).1.node = τ.extra body.node := by
    unfold extra Part.withoutFieldComments
    dsimp only
    rw [Node.separations_of_unled hchildren, Node.opensMembers_of_unled hchildren,
      Node.constructorsAll_of_unled hchildren]
  have hpromotion : τ.promotion (body.withoutFieldComments known).1.node =
      τ.promotion body.node := by
    unfold promotion Part.withoutFieldComments
    dsimp only
    rw [Node.isConstructor_of_unled hchildren]
  have hwithin : τ.within (body.withoutFieldComments known).1.node +
      τ.comments ((body.withoutFieldComments known).2.flatMap (·.2)) = τ.within body.node := by
    have hcomments : (τ.below body.node).comments = τ.comments := by
      unfold below
      split <;> rfl
    change (if holdsMembers body.node then (τ.below body.node).membersAll _ else
      (τ.below body.node).costAll _) + _ = _
    rw [← hcomments, within]
    split
    · exact membersAll_takeFieldComments _ known body.node.children
    · exact costAll_takeFieldComments _ known body.node.children
  have hown : τ.own (body.withoutFieldComments known).1.node = τ.own body.node := rfl
  rw [cost_eq, cost_eq τ body.node, hextra, hpromotion, hown]
  omega

theorem sum_ite_le {keys : List String} (hkeys : keys.Nodup) (key : String) (c : ℕ) :
    (keys.map fun k => if k = key then c else 0).sum ≤ c := by
  induction keys with
  | nil => simp
  | cons k rest ih =>
    obtain ⟨hk, hrest⟩ := List.nodup_cons.mp hkeys
    rw [List.map_cons, List.sum_cons]
    split
    · rename_i heq
      have hzero : (rest.map fun k => if k = key then c else 0) = rest.map fun _ => 0 := by
        refine List.map_congr_left fun j hj => if_neg ?_
        rintro rfl
        exact hk (heq ▸ hj)
      simp [hzero]
    · simpa using ih hrest

/-- An accessor is visited for itself alone, so that there is enough left for what is in it. -/
theorem spent_add_le {τ : Tariff} {m : Node} {a : Accessor} (h : m.accessor? = some a) :
    τ.spent m {} + (τ.extra m + τ.costAll m.children) ≤ τ.cost m := by
  have hkind : m.kind = .methodDefinition := by
    by_contra hkind
    simp [Node.accessor?, hkind] at h
  rw [spent, content, if_pos (by simp [h]), cost_eq, within_eq τ (by rw [hkind]; rfl)]
  omega

/-- What is in the body of an accessor may be a class or an object, so its constructors are charged
again. -/
theorem costAll_accessorBody_le (τ : Tariff) {m body : Node} (h : m.accessor?.isSome = true)
    (hbody : m.child? .body = some body) :
    τ.costAll body.children + τ.comments body.inner ≤ τ.extra m + τ.costAll m.children := by
  have hcost := Nat.le_trans (cost_child?_le (τ := τ) hbody) (τ.inField_le _ .body)
  cases hmembers : body.kind.hasMembers with
  | false =>
    rw [cost_eq, within_eq τ hmembers, own] at hcost
    omega
  | true =>
    have hopens : m.opensMembers = true := by simp [Node.opensMembers, h, hbody, hmembers]
    have hmember := Node.constructors_le_constructorsAll (Node.mem_children_of_child? hbody)
    have hconstructors : Node.constructorsAll body.children * τ.learn ≤ τ.extra m := by
      rw [Node.constructors_eq body] at hmember
      rw [extra, hopens, if_pos rfl]
      apply Nat.le_add_left_of_le
      apply Nat.mul_le_mul_right
      omega
    have hopen := τ.costAll_le_inClass body.children
    have hclosed := τ.costAll_inClass_le_within body
    rw [cost_eq, own] at hcost
    omega

theorem sum_spent_le (τ : Tariff) {n : Node} (parts : List (Part n)) :
    (parts.map fun p => τ.spent p.node {}).sum +
        (((parts.filter (·.node.accessor? = some .getter)).map
            fun a => τ.extra a.node + τ.costAll a.node.children).sum +
          ((parts.filter (·.node.accessor? = some .setter)).map
            fun a => τ.extra a.node + τ.costAll a.node.children).sum) ≤
      τ.costAll (parts.map (·.node)) := by
  induction parts with
  | nil => simp
  | cons p rest ih =>
    simp only [List.map_cons, List.sum_cons, costAll_cons, List.filter_cons]
    cases hp : p.node.accessor? with
    | none =>
      have hle := τ.spent_le_cost p.node {}
      simp only [reduceCtorEq, decide_false, Bool.false_eq_true, if_false]
      omega
    | some a =>
      have hle := spent_add_le (τ := τ) hp
      cases a with
      | getter =>
        simp only [decide_true, if_true, Option.some.injEq, reduceCtorEq, decide_false,
          Bool.false_eq_true, if_false, List.map_cons, List.sum_cons]
        omega
      | setter =>
        simp only [decide_true, if_true, Option.some.injEq, reduceCtorEq, decide_false,
          Bool.false_eq_true, if_false, List.map_cons, List.sum_cons]
        omega

/-- Different keys hold different comments. -/
theorem sum_comments_lookup_le (τ : Tariff) {keys : List String} (hkeys : keys.Nodup)
    (held : List (String × List Comment)) :
    (keys.map fun key => τ.comments ((held.lookup key).getD [])).sum ≤
      τ.comments (held.flatMap (·.2)) := by
  induction held with
  | nil => simp
  | cons x rest ih =>
    have hlookup : ∀ key ∈ keys, τ.comments (((x :: rest).lookup key).getD []) ≤
        (if key = x.1 then τ.comments x.2 else 0) + τ.comments ((rest.lookup key).getD []) := by
      intro key _
      obtain ⟨k, cs⟩ := x
      rw [List.lookup_cons]
      by_cases hk : key = k
      · simp [hk]
      · simp [hk, beq_eq_false_iff_ne.mpr hk]
    have hsum := List.sum_le_sum hlookup
    have hone := sum_ite_le hkeys x.1 (τ.comments x.2)
    rw [List.sum_map_add] at hsum
    rw [List.flatMap_cons, comments_append]
    omega

end Tariff

namespace Emit
open Script EmitM

variable {τ : Tariff} {A B C : ℕ} {n : Node} {visit : Visit n}

section Functions

theorem fits_registerParameter (param : Node) : (registerParameter param).Fits τ 0 := by
  unfold registerParameter
  exact fits_ite (fun _ => fits_unsupported _ _) fun _ => fits_register _

theorem fits_function {α : Type} {params : Option (Part n)} {body : Part n} {f : Scope → EmitM α}
    (hparams : (parameters visit params).Fits τ A) (hbody : ∀ c, (visit body c).Fits τ B)
    (hcosts : ∀ scope, scope.Distinct → (f scope).Costs τ C)
    (halike : ∀ scope a b, Alike a b (f scope) (f scope)) (header : String)
    (form : FunctionForm) :
    (function visit header form params body >>= f).Fits τ (A + B + C) := by
  refine Fits.inFunction _ ((fits_emit _).after fun _ => fits_indented hparams) ?_ hcosts halike
  refine (hbody _).before fun _ => fits_ite (fun _ => ?_) fun _ => fits_pure _
  exact (fits_edit (.insert _)).after fun _ => fits_emit _

variable (hv : ∀ p c, (visit p c).Fits τ (τ.spent p.node c))
include hv

/-- Parameters may be emitted as a list without the node around them. -/
theorem fits_parameters {params : Option (Part n)} (hcost : ∀ p ∈ params, τ.cost p.node ≤ B)
    (hall : ∀ p ∈ params, τ.costAll p.node.children ≤ B) :
    (parameters visit params).Fits τ B := by
  cases params with
  | none => exact fits_pure _
  | some p =>
    refine fits_ite (fun _ => ?_) fun _ => ?_
    · exact (fits_register _).after fun _ => (fits_visit hv p _).mono (hcost p rfl)
    · refine (fits_forM_free _ _ fun q _ => fits_registerParameter q.node).after fun _ => ?_
      have hlist := fits_commaSeparated hv
        { place := if p.node.kind = .formalParameters then .parameter else .other
          parens := if p.parts.length = 1 then .omitted else .asSource } p.parts
      rw [p.map_node_parts] at hlist
      exact hlist.mono (hall p rfl)

theorem fits_parametersOf : (parameters visit (parametersOf n)).Fits τ
    (τ.inField n .parameters + τ.inField n .parameter) := by
  have hfield : ∀ p ∈ parametersOf n,
      n.child? .parameters = some p.node ∨ n.child? .parameter = some p.node := by
    intro p hp
    rcases Option.or_eq_some_iff.mp hp with hp | ⟨-, hp⟩
    · exact .inl (Node.child?_of_part? hp)
    · exact .inr (Node.child?_of_part? hp)
  refine fits_parameters hv (fun p hp => ?_) fun p hp => ?_
  · rcases hfield p hp with hchild | hchild
    · exact Nat.le_add_right_of_le (Tariff.cost_child?_le hchild)
    · exact Nat.le_add_left_of_le (Tariff.cost_child?_le hchild)
  · rcases hfield p hp with hchild | hchild
    · exact Nat.le_add_right_of_le (Tariff.costAll_children_le_inField hchild (by decide))
    · exact Nat.le_add_left_of_le (Tariff.costAll_children_le_inField hchild (by decide))

theorem fits_functionNode (header : String) (form : FunctionForm) :
    (functionNode n visit header form).Fits τ (τ.costAll n.children) := by
  refine Fits.mono ?_ (τ.inField_parameters_le n)
  refine .need fun body hbody => ?_
  exact fits_function (fits_parametersOf hv) (fits_visit_part hv hbody)
    (fun _ _ => (fits_pure (B := 0) ()).costs) (fun _ _ _ => .pure ()) header form

theorem fits_functionDeclaration :
    (functionDeclaration n visit).Fits τ (τ.costAll n.children) := by
  refine .need fun name _ => fits_inProgramScope.after fun inProgram => ?_
  refine fits_ite (fun _ => fits_functionNode hv _ _) fun _ => (fits_emit _).after fun _ => ?_
  exact (fits_functionNode hv _ _).before fun _ => fits_emit _

end Functions

section Classes

theorem fits_superclass (heritage : Node) : (superclass heritage).Fits τ 0 := by
  unfold superclass
  split
  · exact fits_ite (fun _ => fits_emit _) fun _ => fits_unsupported _ _
  · exact fits_unsupported _ _

theorem fits_fieldKey (field : Node) : (fieldKey field).Fits τ 0 := by
  unfold fieldKey
  split
  · exact fits_pure _
  · exact fits_fail _

theorem fits_accessorParameter (accessor : Part n) : (accessorParameter accessor).Fits τ 0 := by
  unfold accessorParameter
  split
  · dsimp only
    refine fits_ite (fun _ => fits_unsupported _ _) fun _ => (fits_register _).after fun _ => ?_
    refine fits_ite (fun _ => ?_) fun _ => fits_pure _
    exact (fits_edit .newline).after fun _ => fits_emit _
  · exact fits_pure _

theorem fits_modifiers (m : Node) : (modifiers m).Fits τ 0 :=
  (fits_emit _).after fun _ => fits_ite (fun _ => fits_emit _) fun _ => fits_pure _

/-- A class has its own charges inside. -/
theorem fits_classDeclaration
    (hv : ∀ p c, (visit p c).Fits τ.inClass (τ.inClass.spent p.node c)) :
    (classDeclaration n visit).Fits τ (τ.inClass.costAll n.children) := by
  refine .need fun name _ => .need fun body hbody => (fits_register n).after fun _ => ?_
  refine (fits_emit _).after fun _ => ?_
  refine (fits_forM_free _ _ fun heritage _ => fits_superclass heritage).after fun _ => ?_
  refine (fits_mapM_free _ _ fun field _ => fits_fieldKey field).after fun keys => ?_
  have hbody := (fits_visit_part hv hbody {}).mono (τ.inClass.inField_le n .body)
  have hclass := Fits.within (.fields keys) (τ := τ) (((fits_block hbody "\x7b" "\x7d")).inScope
    .classBody)
  exact hclass.mono (by simp [Frame.charge])

variable (hv : ∀ p c, (visit p c).Fits τ (τ.spent p.node c))
include hv

/-- The body of an accessor is emitted without the node around it, with the comments in it. -/
theorem fits_accessorBody {accessor : Part n} (haccessor : accessor.node.accessor?.isSome = true) :
    (accessorBody visit accessor).Fits τ
      (τ.extra accessor.node + τ.costAll accessor.node.children) := by
  apply (fits_accessorParameter accessor).after
  intro _
  apply Fits.needOf
  intro body hbody
  have hchild := Part.child?_of_part? hbody
  have hbudget := τ.costAll_accessorBody_le haccessor hchild
  split
  · exact fits_pure _
  · refine (fits_edit .newline).after fun _ => (fits_edit (.realign _)).after fun _ => ?_
    have hstatements := fits_statements hv body.parts
    rw [body.map_node_parts] at hstatements
    exact (hstatements.bind fun _ => fits_edit (.comments body.node.inner)).mono hbudget

theorem fits_accessorFunction (signature : Signature) (accessors : List (Part n))
    (haccessors : ∀ a ∈ accessors, a.node.accessor?.isSome = true) :
    (accessorFunction visit signature accessors).Fits τ
      (accessors.map fun a => τ.extra a.node + τ.costAll a.node.children).sum := by
  cases accessors with
  | nil => exact fits_pure _
  | cons first rest =>
    refine (fits_edit .ensureNewline).after fun _ => ?_
    refine Fits.mono (Fits.inFunction _ (fits_pure (B := 0) _) (fits_forM _ _
      (fun a => τ.extra a.node + τ.costAll a.node.children) fun a ha => ?_) (C := 0)
      (fun _ _ => trivial) fun _ _ _ => .pure ()) (Nat.le_of_eq (Nat.zero_add _))
    refine (fits_edit .newline).after fun _ => .needOf fun name _ => (fits_emit _).after fun _ => ?_
    exact fits_block (fits_accessorBody hv (haccessors a ha)) _ _

omit hv in
theorem isSome_accessor? {a : Accessor} {m : Part n} (h : m ∈ accessors n a) :
    m.node.accessor?.isSome = true := by
  have heq : m.node.accessor? = some a := of_decide_eq_true (List.mem_filter.mp h).2
  rw [heq]
  rfl

theorem fits_classMember (m : Part n) : (classMember visit m).Fits τ (τ.spent m.node {}) :=
  fits_ite (fun _ => (hv m {}).inFrame rfl rfl) fun _ => hv m {}

/-- An accessor is charged for itself among the members, and for the rest in the common
function. -/
theorem fits_classBody : (classBody n visit).Fits τ (τ.costAll n.children) := by
  have hmembers := fits_forM n.parts (classMember visit) _ fun m _ => fits_classMember hv m
  have hgetters := fits_accessorFunction hv .getter _ fun _ => isSome_accessor? (a := .getter)
  have hsetters := fits_accessorFunction hv .setter _ fun _ => isSome_accessor? (a := .setter)
  refine (hmembers.bind fun _ => Fits.inFrame (hgetters.bind fun _ => hsetters) rfl rfl).mono ?_
  rw [← n.map_node_parts]
  exact τ.sum_spent_le n.parts

omit hv in
/-- As long as there is enough to learn a field, more can be learned. -/
theorem fits_learnFields (keys : List String) (comments : String → List Comment) :
    (forM keys fun key => do
      edit (.mark (comments key))
      act (.learnField key)
      note (.promoted key) : EmitM Unit).Fits τ
        (τ.learn + (keys.map fun key => τ.comments (comments key)).sum) := by
  induction keys with
  | nil => exact fits_pure _
  | cons key rest ih =>
    rw [List.forM_cons, List.map_cons, List.sum_cons]
    generalize (rest.map fun key => τ.comments (comments key)).sum = R at ih
    refine ⟨⟨Nat.zero_le _, τ.learn + R, ?_, ?_⟩, fun a b => ?_⟩
    · simp only [Action.charge, Edit.charge]
      omega
    · refine ⟨by simp only [Action.threshold]; omega, τ.learn + R, ?_, ?_⟩
      · simp [Action.charge]
      · exact ((fits_note _).after fun _ => ih).costs
    · exact .act _ (.act _ (.act _ (ih.alike a b)))

omit hv in
/-- The declarations of the fields are the same however arrays are written. -/
theorem alike_promoteFields (scope : Scope) (held : List (String × List Comment)) (a b : Bool) :
    Alike a b (promoteFields scope held) (promoteFields scope held) := by
  refine .ask (q := .fields) trivial fun known => .output fun d => ?_
  have hstart : (d.output a).pointAtLineStart 0 = (d.output b).pointAtLineStart 0 :=
    Output.steady_pointAtLineStart d a b
  have hfields (keys : List String) (comments : String → List Comment) :=
    (fits_learnFields (τ := ⟨0, fun _ => 0, 0, 0⟩) keys comments).alike a b
  change Alike a b (_ >>= fun _ => edit (.insert _)) (_ >>= fun _ => edit (.insert _))
  rw [hstart]
  exact (hfields _ _).bind fun _ => .act _ (.pure ())

omit hv in
theorem costs_promoteFields {scope : Scope} (hscope : scope.Distinct)
    (held : List (String × List Comment)) :
    (promoteFields scope held).Costs τ (τ.learn + τ.comments (held.flatMap (·.2))) := by
  intro known o
  have hkeys : ((scope.definitions.map (·.1)).filter fun key =>
      Node.isThisKey key && !known.contains key).Nodup := hscope.filter _
  have hsum := τ.sum_comments_lookup_le hkeys held
  have hlearn := (fits_learnFields _ _).mono (Nat.add_le_add_left hsum τ.learn)
  exact (hlearn.before fun _ => fits_edit (.insert _)).costs

theorem fits_constructorMethod :
    (constructorMethod n visit).Fits τ (τ.costAll n.children + τ.learn) := by
  refine .need fun body hbody => (fits_ask (q := .fields) trivial).after fun known => ?_
  have hle := τ.inField_parameters_le n
  have hcost := Tariff.cost_part?_le (τ := τ) hbody
  have htaken := τ.cost_withoutFieldComments body known
  change (function visit _ _ _ (body.withoutFieldComments known).1 >>= fun scope =>
    promoteFields scope (body.withoutFieldComments known).2).Fits τ _
  refine Fits.mono (fits_function (fits_parametersOf hv) (fits_visit hv _)
    (fun scope hscope => costs_promoteFields hscope _) (fun scope => alike_promoteFields scope _)
    _ _) ?_
  omega

/-- A constructor may learn the fields of its class, a method of an object may not. -/
theorem fits_method (context : Context) : (method n visit context).Fits τ
    (if n.accessor?.isSome then 0
      else τ.costAll n.children +
        if context.place = .objectMember then 0 else τ.promotion n) := by
  refine .need fun name _ => ?_
  by_cases haccessor : n.accessor?.isSome = true
  · rw [if_pos haccessor, if_pos haccessor]
    exact fits_ite (fun _ => fits_unsupported _ _) fun _ => fits_register _
  · rw [if_neg haccessor, if_neg haccessor]
    refine fits_ite (fun _ => fits_unsupported _ _) fun _ => fits_ite (fun _ => ?_) fun hplace => ?_
    · refine (fits_emit _).after fun _ => (fits_functionNode hv _ _).mono (Nat.le_add_right ..)
    · refine (fits_register n).after fun _ => (fits_modifiers n).after fun _ => ?_
      rw [if_neg (by simpa using hplace), Tariff.promotion]
      by_cases hconstructor : isConstructor n = true
      · rw [if_pos hconstructor, if_pos hconstructor]
        exact fits_constructorMethod hv
      · rw [if_neg hconstructor, if_neg hconstructor]
        exact fits_functionNode hv _ _

theorem fits_fieldDefinition : (fieldDefinition n visit).Fits τ (τ.costAll n.children) := by
  refine Fits.mono ?_ (τ.inField_le n .value)
  refine .need fun property _ => ?_
  dsimp only
  refine fits_ite (fun _ => fits_unsupported _ _) fun _ => (fits_register n).after fun _ => ?_
  refine (fits_modifiers n).after fun _ => (fits_emit _).after fun _ => ?_
  split
  · rename_i value hvalue
    refine (fits_emit _).after fun _ => (fits_visit_part hv hvalue _).before fun _ => fits_emit _
  · exact (fits_emit _).mono (Nat.zero_le _)

end Classes

end Emit
end EcmaPhp
