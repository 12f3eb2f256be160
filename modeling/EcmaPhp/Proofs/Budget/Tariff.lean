import EcmaPhp.Emit.Class
import EcmaPhp.Proofs.Builtin.Operands
import Mathlib.Algebra.GroupWithZero.Nat
import Mathlib.Data.List.Nodup

/-! What the emission of a tree may be charged: so much for each node, each comment and each
separation. A node is charged for itself and for its children, each of which it has once. -/
namespace EcmaPhp

/-- The charges of an emission. `learn` is no charge but a threshold: without as much at hand, no
field can become known. -/
structure Tariff where
  node : ℕ
  comment : Comment → ℕ
  separation : ℕ
  learn : ℕ

/-- The number of variables that the head of a loop declares. -/
def Node.headDeclarators (n : Node) : ℕ :=
  ((n.child? .initializer).filter (·.kind.isDeclaration)).elim 0 fun d =>
    (d.childrenOf .variableDeclarator).length

/-- The number of separations that the head of a loop needs. -/
def Node.separations (n : Node) : ℕ :=
  if n.kind = .forStatement then n.headDeclarators - 1 else 0

/-- A class that is declared, or one that stands in an expression. -/
def Kind.isClass : Kind → Bool
  | .classDeclaration => true
  | .other name => name = "class"
  | _ => false

/-- A class or an object, in which methods stand as members. -/
def Kind.hasMembers (k : Kind) : Bool := k.isClass || k = .object

/-- An accessor with a class or an object in place of its statements. -/
def Node.opensMembers (n : Node) : Bool :=
  n.accessor?.isSome && (n.child? .body).any (·.kind.hasMembers)

mutual
/-- The number of constructors. Those of a class in place of statements count twice. -/
def Node.constructors : Node → ℕ
  | ⟨kind, location, start, stop, text, field, tokens, attrs, leading, trailing, inner, skipped,
      children⟩ =>
    let n : Node := ⟨kind, location, start, stop, text, field, tokens, attrs, leading, trailing,
      inner, skipped, children⟩
    (if Emit.isConstructor n then 1 else 0) +
      (if n.opensMembers then Node.constructorsAll children else 0) + Node.constructorsAll children
def Node.constructorsAll : List Node → ℕ
  | [] => 0
  | n :: rest => Node.constructors n + Node.constructorsAll rest
end

theorem Node.constructors_eq (n : Node) :
    n.constructors = (if Emit.isConstructor n then 1 else 0) +
      (if n.opensMembers then constructorsAll n.children else 0) + constructorsAll n.children := by
  cases n
  rw [constructors]

theorem Node.constructors_le_constructorsAll {n : Node} {ns : List Node} (h : n ∈ ns) :
    n.constructors ≤ constructorsAll ns := by
  induction ns with
  | nil => cases h
  | cons m rest ih =>
    rw [constructorsAll]
    rcases List.mem_cons.mp h with rfl | h
    · omega
    · have := ih h
      omega

@[simp]
theorem Part.map_node_parts {n : Node} (p : Part n) : p.parts.map (·.node) = p.node.children := by
  rw [Part.parts, List.map_map]
  exact p.node.map_node_parts

namespace Tariff

def comments (τ : Tariff) (cs : List Comment) : ℕ := (cs.map τ.comment).sum

/-- What a node is charged for itself. -/
def own (τ : Tariff) (n : Node) : ℕ :=
  τ.node + τ.comments n.leading + τ.comments n.inner + τ.comments n.trailing

/-- What a node is charged for the way in which it is emitted. -/
def extra (τ : Tariff) (n : Node) : ℕ :=
  n.separations * τ.separation +
    (if n.opensMembers then Node.constructorsAll n.children else 0) * τ.learn

/-- What a constructor is charged for the fields that it declares. -/
def promotion (τ : Tariff) (n : Node) : ℕ := if Emit.isConstructor n then τ.learn else 0

/-- A class keeps to itself what becomes known of its fields. -/
def inClass (τ : Tariff) : Tariff := { τ with learn := 0 }

/-- The fields that may be emitted without their node, as a list of what is in it. -/
def openFields : List Field := [.arguments, .parameters, .parameter]

/-- The charges inside a node. -/
def below (τ : Tariff) (n : Node) : Tariff :=
  if n.kind.isClass && !(n.field.any openFields.contains) then τ.inClass else τ

/-- Whether the children of a node are emitted as members of an object, which declare no fields. -/
def holdsMembers (n : Node) : Bool := n.kind = .object && !(n.field.any openFields.contains)

mutual
/-- What a node is charged with all that is below it. -/
def cost (τ : Tariff) : Node → ℕ
  | ⟨kind, location, start, stop, text, field, tokens, attrs, leading, trailing, inner, skipped,
      children⟩ =>
    let n : Node := ⟨kind, location, start, stop, text, field, tokens, attrs, leading, trailing,
      inner, skipped, children⟩
    τ.own n + τ.extra n + τ.promotion n +
      if holdsMembers n then membersAll (τ.below n) children else costAll (τ.below n) children
def costAll (τ : Tariff) : List Node → ℕ
  | [] => 0
  | n :: rest => cost τ n + costAll τ rest
def membersAll (τ : Tariff) : List Node → ℕ
  | [] => 0
  | n :: rest => cost τ n - τ.promotion n + membersAll τ rest
end

/-- What a node is charged for its children. -/
def within (τ : Tariff) (n : Node) : ℕ :=
  if holdsMembers n then (τ.below n).membersAll n.children else (τ.below n).costAll n.children

/-- What a node is charged for its children in a field. -/
def inField (τ : Tariff) (n : Node) (f : Field) : ℕ := τ.costAll (n.childrenIn f)

/-- What the rule of a node is charged. An accessor is not emitted where it stands. -/
def content (τ : Tariff) (n : Node) (context : Context) : ℕ :=
  if n.accessor?.isSome then 0
  else τ.extra n + (if context.place = .objectMember then 0 else τ.promotion n) + τ.within n

/-- What the visit of a node is charged. -/
def spent (τ : Tariff) (n : Node) (context : Context) : ℕ := τ.own n + τ.content n context

variable {τ : Tariff} {n : Node}

@[simp] theorem comments_nil : τ.comments [] = 0 := rfl

@[simp] theorem comments_append (cs ds : List Comment) :
    τ.comments (cs ++ ds) = τ.comments cs + τ.comments ds := by
  simp [comments]

theorem cost_eq (τ : Tariff) (n : Node) :
    τ.cost n = τ.own n + τ.extra n + τ.promotion n + τ.within n := by
  cases n
  rw [cost, within]

theorem own_le_cost (τ : Tariff) (n : Node) : τ.own n ≤ τ.cost n := by
  rw [cost_eq]
  omega

theorem promotion_le_cost (τ : Tariff) (n : Node) : τ.promotion n ≤ τ.cost n := by
  rw [cost_eq]
  omega

theorem spent_le_cost (τ : Tariff) (n : Node) (context : Context) :
    τ.spent n context ≤ τ.cost n := by
  rw [spent, content, cost_eq]
  split
  · omega
  · split <;> omega

/-- A member of an object declares no fields. -/
theorem spent_le_member (τ : Tariff) (n : Node) {context : Context}
    (h : context.place = .objectMember) : τ.spent n context ≤ τ.cost n - τ.promotion n := by
  rw [spent, content, if_pos h, cost_eq]
  split <;> omega

@[simp] theorem costAll_nil : τ.costAll [] = 0 := rfl

@[simp] theorem costAll_cons (m : Node) (ms : List Node) :
    τ.costAll (m :: ms) = τ.cost m + τ.costAll ms := rfl

theorem below_inClass (τ : Tariff) (n : Node) : τ.inClass.below n = τ.inClass := by
  unfold below
  split <;> rfl

theorem below_cases (τ : Tariff) (n : Node) : τ.below n = τ ∨ τ.below n = τ.inClass := by
  unfold below
  split
  · exact .inr rfl
  · exact .inl rfl

theorem own_inClass (τ : Tariff) (n : Node) : τ.inClass.own n = τ.own n := rfl

theorem extra_eq (τ : Tariff) (n : Node) :
    τ.extra n = τ.inClass.extra n +
      (if n.opensMembers then Node.constructorsAll n.children else 0) * τ.learn := rfl

theorem promotion_eq (τ : Tariff) (n : Node) :
    τ.promotion n = (if Emit.isConstructor n then 1 else 0) * τ.learn := by
  unfold promotion
  split <;> simp

theorem promotion_of_learn (h : τ.learn = 0) (n : Node) : τ.promotion n = 0 := by
  unfold promotion
  split
  · exact h
  · rfl

mutual
/-- Inside a class nothing is charged that is not charged outside, and no field is declared. -/
theorem cost_inClass_le (τ : Tariff) : ∀ n : Node, τ.inClass.cost n + τ.promotion n ≤ τ.cost n
  | ⟨kind, location, start, stop, text, field, tokens, attrs, leading, trailing, inner, skipped,
      children⟩ => by
    have hchildren := costAll_inClass_le τ children
    have hmembers := membersAll_inClass_le τ children
    rw [cost, cost, below_inClass, extra_eq τ, own_inClass, promotion_of_learn rfl]
    rcases τ.below_cases ⟨kind, location, start, stop, text, field, tokens, attrs, leading,
      trailing, inner, skipped, children⟩ with hbelow | hbelow
    · rw [hbelow]
      split <;> omega
    · rw [hbelow]
      split <;> omega
theorem costAll_inClass_le (τ : Tariff) : ∀ ns : List Node, τ.inClass.costAll ns ≤ τ.costAll ns
  | [] => Nat.le_refl 0
  | n :: rest => by
    have hn := cost_inClass_le τ n
    have hrest := costAll_inClass_le τ rest
    rw [costAll, costAll]
    omega
theorem membersAll_inClass_le (τ : Tariff) :
    ∀ ns : List Node, τ.inClass.membersAll ns ≤ τ.membersAll ns
  | [] => Nat.le_refl 0
  | n :: rest => by
    have hn := cost_inClass_le τ n
    have hrest := membersAll_inClass_le τ rest
    rw [membersAll, membersAll]
    omega
end

mutual
/-- Outside a class its constructors are charged, but nothing more. -/
theorem cost_le_inClass (τ : Tariff) :
    ∀ n : Node, τ.cost n ≤ τ.inClass.cost n + n.constructors * τ.learn
  | ⟨kind, location, start, stop, text, field, tokens, attrs, leading, trailing, inner, skipped,
      children⟩ => by
    have hchildren := costAll_le_inClass τ children
    have hmembers := membersAll_le_inClass τ children
    rw [cost, cost, below_inClass, extra_eq τ, own_inClass, Node.constructors]
    rw [promotion_of_learn (τ := τ.inClass) rfl, promotion_eq]
    simp only [Nat.add_mul]
    rcases τ.below_cases ⟨kind, location, start, stop, text, field, tokens, attrs, leading,
      trailing, inner, skipped, children⟩ with hbelow | hbelow
    · rw [hbelow]
      generalize holdsMembers _ = members
      cases members with
      | true =>
        simp only [if_true]
        omega
      | false =>
        simp only [Bool.false_eq_true, if_false]
        omega
    · rw [hbelow]
      omega
theorem costAll_le_inClass (τ : Tariff) :
    ∀ ns : List Node, τ.costAll ns ≤ τ.inClass.costAll ns + Node.constructorsAll ns * τ.learn
  | [] => Nat.zero_le _
  | n :: rest => by
    have hn := cost_le_inClass τ n
    have hrest := costAll_le_inClass τ rest
    rw [costAll, costAll, Node.constructorsAll, Nat.add_mul]
    omega
theorem membersAll_le_inClass (τ : Tariff) :
    ∀ ns : List Node, τ.membersAll ns ≤ τ.inClass.membersAll ns + Node.constructorsAll ns * τ.learn
  | [] => Nat.zero_le _
  | n :: rest => by
    have hn := cost_le_inClass τ n
    have hrest := membersAll_le_inClass τ rest
    rw [membersAll, membersAll, Node.constructorsAll, Nat.add_mul,
      promotion_of_learn (τ := τ.inClass) rfl]
    omega
end

theorem below_eq (h : τ.learn = 0) (n : Node) : τ.below n = τ := by
  obtain ⟨node, comment, separation, learn⟩ := τ
  cases h
  simp [below, inClass]

theorem membersAll_eq (h : τ.learn = 0) (ns : List Node) : τ.membersAll ns = τ.costAll ns := by
  induction ns with
  | nil => rfl
  | cons n rest ih => rw [membersAll, costAll, promotion_of_learn h, ih, Nat.sub_zero]

mutual
/-- Where there is nothing to learn, each node of a tree is charged once. -/
theorem cost_eq_sum (h : τ.learn = 0) :
    ∀ n : Node, τ.cost n = (n.preorder.map fun m => τ.own m + τ.extra m).sum
  | ⟨kind, location, start, stop, text, field, tokens, attrs, leading, trailing, inner, skipped,
      children⟩ => by
    rw [cost, below_eq h, membersAll_eq h, ite_self, promotion_of_learn h,
      costAll_eq_sum_preorder h children, Node.preorder, List.map_cons, List.sum_cons, Nat.add_zero]
theorem costAll_eq_sum_preorder (h : τ.learn = 0) : ∀ ns : List Node,
    τ.costAll ns = ((Node.preorderAll ns).map fun m => τ.own m + τ.extra m).sum
  | [] => rfl
  | n :: rest => by
    rw [costAll, Node.preorderAll, List.map_append, List.sum_append, cost_eq_sum h n,
      costAll_eq_sum_preorder h rest]
end

@[simp] theorem costAll_append (ms ns : List Node) :
    τ.costAll (ms ++ ns) = τ.costAll ms + τ.costAll ns := by
  induction ms with
  | nil => simp
  | cons m rest ih => simp [ih, Nat.add_assoc]

theorem costAll_le_of_sublist {ms ns : List Node} (h : ms.Sublist ns) :
    τ.costAll ms ≤ τ.costAll ns := by
  induction h with
  | slnil => exact Nat.le_refl _
  | cons m _ ih => simp only [costAll_cons]; omega
  | cons_cons m _ ih => simp only [costAll_cons]; omega

theorem costAll_perm {ms ns : List Node} (h : ms.Perm ns) : τ.costAll ms = τ.costAll ns := by
  induction h with
  | nil => rfl
  | cons m _ ih => simp [ih]
  | swap m m' rest => simp only [costAll_cons]; omega
  | trans _ _ ih ih' => exact ih.trans ih'

theorem costAll_eq_sum (ns : List Node) : τ.costAll ns = (ns.map τ.cost).sum := by
  induction ns with
  | nil => rfl
  | cons m rest ih => simp [ih]

theorem membersAll_eq_sum (ns : List Node) :
    τ.membersAll ns = (ns.map fun m => τ.cost m - τ.promotion m).sum := by
  induction ns with
  | nil => rfl
  | cons m rest ih => rw [membersAll, ih, List.map_cons, List.sum_cons]

theorem cost_le_costAll {m : Node} {ms : List Node} (h : m ∈ ms) : τ.cost m ≤ τ.costAll ms := by
  have hle := costAll_le_of_sublist (τ := τ) (List.singleton_sublist.mpr h)
  simpa using hle

theorem costAll_filter_add (p : Node → Bool) (ns : List Node) :
    τ.costAll (ns.filter p) + τ.costAll (ns.filter fun m => !p m) = τ.costAll ns := by
  rw [← costAll_append]
  exact costAll_perm (List.filter_append_perm p ns)

/-- Different fields hold different children. -/
theorem sum_inField_le (τ : Tariff) (n : Node) {fields : List Field} (h : fields.Nodup) :
    (fields.map (τ.inField n)).sum ≤ τ.costAll n.children := by
  unfold inField Node.childrenIn
  generalize n.children = ns
  induction fields generalizing ns with
  | nil => simp
  | cons f more ih =>
    obtain ⟨hf, hmore⟩ := List.nodup_cons.mp h
    -- The other fields have nothing of this one.
    have hothers : ∀ g ∈ more, ns.filter (·.field = some g) =
        (ns.filter fun m => !decide (m.field = some f)).filter (·.field = some g) := by
      intro g hg
      rw [List.filter_filter]
      refine List.filter_congr fun m _ => ?_
      by_cases hm : m.field = some g
      · have hne : g ≠ f := fun heq => hf (heq ▸ hg)
        simp [hm, hne]
      · simp [hm]
    have hrest := ih hmore (ns.filter fun m => !decide (m.field = some f))
    have hsplit := costAll_filter_add (τ := τ) (fun m => decide (m.field = some f)) ns
    rw [List.map_cons, List.sum_cons,
      List.map_congr_left fun g hg => congrArg τ.costAll (hothers g hg)]
    omega

theorem inField_le (τ : Tariff) (n : Node) (f : Field) : τ.inField n f ≤ τ.costAll n.children := by
  have hsum := τ.sum_inField_le n (List.nodup_singleton f)
  simpa using hsum

theorem inField_add_le (τ : Tariff) (n : Node) {f g : Field} (h : f ≠ g) :
    τ.inField n f + τ.inField n g ≤ τ.costAll n.children := by
  have hsum : ([f, g].map (τ.inField n)).sum ≤ _ := τ.sum_inField_le n (by simpa using h)
  simpa using hsum

theorem inField_add_add_le (τ : Tariff) (n : Node) {f g k : Field} (h : [f, g, k].Nodup) :
    τ.inField n f + (τ.inField n g + τ.inField n k) ≤ τ.costAll n.children := by
  have hsum := τ.sum_inField_le n h
  simpa using hsum

theorem cost_child?_le {f : Field} {m : Node} (h : n.child? f = some m) :
    τ.cost m ≤ τ.inField n f := by
  apply cost_le_costAll
  exact List.mem_filter.mpr ⟨Node.mem_children_of_child? h, by simpa using List.find?_some h⟩

theorem cost_part?_le {f : Field} {p : Part n} (h : n.part? f = some p) :
    τ.cost p.node ≤ τ.inField n f :=
  cost_child?_le (Node.child?_of_part? h)

/-- What has no members is charged for its children as they are. -/
theorem within_eq (τ : Tariff) (h : n.kind.hasMembers = false) :
    τ.within n = τ.costAll n.children := by
  obtain ⟨hclass, hobject⟩ := Bool.or_eq_false_iff.mp h
  simp [within, holdsMembers, below, hclass, of_decide_eq_false hobject]

theorem costAll_children_le (τ : Tariff) (h : n.kind.hasMembers = false) :
    τ.costAll n.children ≤ τ.cost n := by
  rw [cost_eq, within_eq τ h]
  omega

/-- So is what stands in an open field. -/
theorem costAll_children_le_of_open {f : Field} (h : n.field = some f) (hf : f ∈ openFields) :
    τ.costAll n.children ≤ τ.cost n := by
  have hwithin : τ.within n = τ.costAll n.children := by
    simp [within, holdsMembers, below, h, hf]
  rw [cost_eq, hwithin]
  omega

/-- Members are never charged more than other children, and a class and an object no less for their
children than a class is inside. -/
theorem membersAll_le (τ : Tariff) (ns : List Node) : τ.membersAll ns ≤ τ.costAll ns := by
  induction ns with
  | nil => exact Nat.le_refl 0
  | cons n rest ih =>
    rw [membersAll, costAll]
    omega

theorem costAll_inClass_le_within (τ : Tariff) (n : Node) :
    τ.inClass.costAll n.children ≤ τ.within n := by
  have hchildren := τ.costAll_inClass_le n.children
  have hmembers := τ.membersAll_inClass_le n.children
  rw [membersAll_eq rfl] at hmembers
  unfold within
  rcases τ.below_cases n with hbelow | hbelow
  · rw [hbelow]
    split <;> omega
  · have hinside : τ.inClass.membersAll n.children = τ.inClass.costAll n.children :=
      membersAll_eq rfl n.children
    simp [hbelow, hinside]

/-- In an open field there is enough for the children of the first node. -/
theorem costAll_children_le_inField {f : Field} {m : Node} (h : n.child? f = some m)
    (hf : f ∈ openFields) : τ.costAll m.children ≤ τ.inField n f := by
  have hfield : m.field = some f := by simpa using List.find?_some h
  exact Nat.le_trans (costAll_children_le_of_open hfield hf) (cost_child?_le h)

theorem cost_child?_le_cost {f : Field} {m : Node} (hkind : n.kind.hasMembers = false)
    (h : n.child? f = some m) : τ.cost m ≤ τ.cost n :=
  calc
    τ.cost m ≤ τ.inField n f := cost_child?_le h
    _ ≤ τ.costAll n.children := τ.inField_le n f
    _ ≤ τ.cost n := τ.costAll_children_le hkind

theorem cost_holder_le (τ : Tariff) (n : Node) : τ.cost n.holder ≤ τ.cost n := by
  unfold Node.holder
  split
  · rename_i object property hkind hobject hproperty
    split
    · exact Nat.le_refl _
    · exact cost_child?_le_cost (by rw [hkind]; rfl) hobject
  · exact Nat.le_refl _

/-- What a call starts from is in its function. -/
theorem cost_origin?_le_of_call {m : Node} (hkind : n.kind = .callExpression)
    (h : n.origin? = some m) : τ.cost m ≤ τ.inField n .function := by
  simp only [Node.origin?, hkind] at h
  cases hmember : n.calledMember? with
  | none =>
    rw [hmember] at h
    exact cost_child?_le h
  | some callee =>
    obtain ⟨hcallee, hcalleeKind⟩ := Option.filter_eq_some_iff.mp hmember
    rw [hmember] at h
    have hne : callee.kind.hasMembers = false := by
      rw [of_decide_eq_true hcalleeKind]
      rfl
    exact Nat.le_trans (cost_child?_le_cost hne h) (cost_child?_le hcallee)

theorem costAll_callArguments_le (τ : Tariff) (n : Node) :
    τ.costAll n.callArguments ≤ τ.inField n .arguments := by
  unfold Node.callArguments
  cases hargs : n.child? .arguments with
  | none => exact Nat.zero_le _
  | some args => exact costAll_children_le_inField hargs (by decide)

/-- The operands of a call or a member are in its children, each once. -/
theorem costAll_operands_le (τ : Tariff) (n : Node) :
    τ.costAll n.operands ≤ τ.costAll n.children := by
  have hfirst (f : Field) (hf : ∀ m, n.origin? = some m → τ.cost m ≤ τ.inField n f) :
      τ.costAll (if n.callsIndirectly then n.origin?.map Node.holder else n.origin?).toList ≤
        τ.inField n f := by
    cases horigin : n.origin? with
    | none => simp
    | some m =>
      have hm := hf m horigin
      have hholder := τ.cost_holder_le m
      split <;> simp <;> omega
  unfold Node.operands
  rw [costAll_append]
  by_cases hcall : n.kind = .callExpression
  · have horigin := hfirst .function fun m hm => cost_origin?_le_of_call hcall hm
    have hargs := τ.costAll_callArguments_le n
    have hsum := τ.inField_add_le n (f := .function) (g := .arguments) (by decide)
    rw [if_pos hcall]
    omega
  · rw [if_neg hcall, costAll_nil, Nat.add_zero]
    refine Nat.le_trans (hfirst .object fun m hm => ?_) (τ.inField_le n .object)
    unfold Node.origin? at hm
    split at hm
    · exact absurd ‹_› hcall
    · exact cost_child?_le hm
    · cases hm

/-- Nor does a replacement add to them. -/
theorem costAll_sources_le {scopes : Scopes} {place : Place} {r : Replacement n}
    {e : Option Event} (h : Builtin.replacement? scopes place n = some (r, e)) :
    τ.costAll r.sources ≤ τ.costAll n.children := by
  obtain ⟨dropped, hperm, -⟩ := (Builtin.replacement?_keepsOperands h).once
  have heq := costAll_perm (τ := τ) hperm
  rw [costAll_append] at heq
  have hoperands := τ.costAll_operands_le n
  omega

end Tariff
end EcmaPhp
