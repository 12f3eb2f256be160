import EcmaPhp.Builtin.Replacement
import EcmaPhp.Proofs.Builtin.Purity
import Mathlib.Data.List.Perm.Basic

/-! What a replacement does with the operands of the call or member that it stands for: it has each
of them once, and those that can have an effect in the order of the source. -/
namespace EcmaPhp

namespace Node

/-- The member that a call calls. -/
def calledMember? (n : Node) : Option Node :=
  (n.child? .function).filter (·.kind = .memberExpression)

/-- What a call or a member starts from: the object of the member, or else the function. -/
def origin? (n : Node) : Option Node :=
  match n.kind with
  | .callExpression => n.calledMember?.elim (n.child? .function) (·.child? .object)
  | .memberExpression => n.child? .object
  | _ => none

def callArguments (n : Node) : List Node := (n.child? .arguments).elim [] (·.children)

/-- The methods that call the function whose methods they are. -/
def isIndirection (method : String) : Bool := method = "call" || method = "apply"

/-- A call through the `call` or the `apply` of a function. -/
def callsIndirectly (n : Node) : Bool :=
  n.kind = .callExpression &&
    (n.calledMember?.bind (·.child? .property)).any fun property => isIndirection property.text

/-- What is evaluated to get at a function: for a method the object that has it. -/
def holder (n : Node) : Node :=
  match n.kind, n.child? .object, n.child? .property with
  | .memberExpression, some object, some _ => if n.isOptionalChain then n else object
  | _, _, _ => n

/-- The operands of a call or a member in the order of their evaluation. -/
def operands (n : Node) : List Node :=
  let first := if n.callsIndirectly then n.origin?.map holder else n.origin?
  first.toList ++ if n.kind = .callExpression then n.callArguments else []

end Node

/-- The parts of the source in an operand, in the order of their evaluation. -/
def Operand.sources {n : Node} : Operand n → List Node
  | .source part _ => [part.node]
  | .literal .. | .emptyArray => []
  | .method object _ => [object.node]
  | .element container index => [container.node, index.node]

def Replacement.sources {n : Node} : Replacement n → List Node
  | .call _ operands => operands.flatMap Operand.sources
  | .constant _ => []

/-- Each operand is there once, except that a pure one may be missing; those that are not pure are
in their order. -/
structure KeepsOperands (droppable : Node → Prop) (old new : List Node) : Prop where
  once : ∃ dropped : Option Node, (new ++ dropped.toList).Perm old ∧
    ∀ d ∈ dropped, d.isPure = true ∧ droppable d
  ordered : new.filter (fun a => !a.isPure) = old.filter fun a => !a.isPure

namespace KeepsOperands

variable {droppable : Node → Prop}

theorem refl (operands : List Node) : KeepsOperands droppable operands operands :=
  ⟨⟨none, by simp, by simp⟩, rfl⟩

/-- A pure operand is dropped from its place. -/
theorem drop {d : Node} (before after : List Node) (hpure : d.isPure = true) (hd : droppable d) :
    KeepsOperands droppable (before ++ d :: after) (before ++ after) := by
  refine ⟨⟨some d, ?_, ?_⟩, ?_⟩
  · have hmove : (before ++ after ++ [d]).Perm (before ++ ([d] ++ after)) := by
      rw [List.append_assoc]
      exact List.perm_append_comm.append_left before
    exact hmove
  · rintro _ ⟨⟩
    exact ⟨hpure, hd⟩
  · simp [hpure]

/-- An operand moves behind pure ones. -/
theorem rotate (first : Node) {rest : List Node} (hpure : ∀ a ∈ rest, a.isPure = true) :
    KeepsOperands droppable (first :: rest) (rest ++ [first]) := by
  refine ⟨⟨none, ?_, by simp⟩, ?_⟩
  · rw [Option.toList_none, List.append_nil]
    exact List.perm_append_comm
  · have hnone : rest.filter (fun a => !a.isPure) = [] := by
      apply List.filter_eq_nil_iff.mpr
      intro a ha
      simp [hpure a ha]
    simp only [List.filter_append, List.filter_cons, List.filter_nil, hnone, List.nil_append]

theorem mono {droppable' : Node → Prop} {old new : List Node}
    (h : KeepsOperands droppable old new) (himp : ∀ d, droppable d → droppable' d) :
    KeepsOperands droppable' old new := by
  obtain ⟨dropped, hperm, hall⟩ := h.once
  exact ⟨⟨dropped, hperm, fun d hd => (hall d hd).imp_right (himp d)⟩, h.ordered⟩

theorem subset {old new : List Node} (h : KeepsOperands droppable old new) : new ⊆ old := by
  obtain ⟨dropped, hperm, -⟩ := h.once
  intro a ha
  exact hperm.subset (List.mem_append_left dropped.toList ha)

end KeepsOperands

namespace Node

theorem isPure_of_identifier {n : Node} (h : n.kind = .identifier) : n.isPure = true := by
  rw [isPure, h]

theorem holder_of_ne_member {n : Node} (h : n.kind ≠ .memberExpression) : n.holder = n := by
  unfold holder
  split
  · contradiction
  · rfl

theorem calledMember?_of_function {n callee : Node} (hfunction : n.child? .function = some callee)
    (hcallee : callee.kind ≠ .memberExpression) : n.calledMember? = none := by
  simp [calledMember?, hfunction, hcallee]

theorem calledMember?_of_method {n callee : Node} (hfunction : n.child? .function = some callee)
    (hcallee : callee.kind = .memberExpression) : n.calledMember? = some callee := by
  simp [calledMember?, hfunction, hcallee]

section Calls

variable {n callee : Node} (hkind : n.kind = .callExpression)
  (hfunction : n.child? .function = some callee)

include hkind hfunction

theorem origin?_of_function (hcallee : callee.kind ≠ .memberExpression) :
    n.origin? = some callee := by
  simp [origin?, hkind, calledMember?_of_function hfunction hcallee, hfunction]

theorem operands_of_function (hcallee : callee.kind ≠ .memberExpression) :
    n.operands = callee :: n.callArguments := by
  simp [operands, callsIndirectly, hkind, calledMember?_of_function hfunction hcallee,
    origin?_of_function hkind hfunction hcallee]

variable (hcallee : callee.kind = .memberExpression)

include hcallee

theorem origin?_of_method {object : Node} (hobject : callee.child? .object = some object) :
    n.origin? = some object := by
  simp [origin?, hkind, calledMember?_of_method hfunction hcallee, hobject]

theorem callsIndirectly_of_method {property : Node}
    (hproperty : callee.child? .property = some property) :
    n.callsIndirectly = isIndirection property.text := by
  simp [callsIndirectly, hkind, calledMember?_of_method hfunction hcallee, hproperty]

theorem operands_of_method {object property : Node} (hobject : callee.child? .object = some object)
    (hproperty : callee.child? .property = some property) :
    n.operands = (if isIndirection property.text then object.holder else object) ::
      n.callArguments := by
  unfold operands
  rw [callsIndirectly_of_method hkind hfunction hcallee hproperty,
    origin?_of_method hkind hfunction hcallee hobject, if_pos hkind]
  cases isIndirection property.text <;> rfl

end Calls

/-- What a replacement may leave out: a name from which it starts, or the receiver that an indirect
call sets. -/
def MayOmit (n d : Node) : Prop :=
  (d.kind = .identifier ∧ n.origin? = some d) ∨
    (n.callsIndirectly = true ∧ n.callArguments.head? = some d)

end Node

theorem Part.map_node_part? {n : Node} (p : Part n) (f : Field) :
    (p.part? f).map (·.node) = p.node.child? f := by
  rw [← Node.map_node_part?, Part.part?, Option.map_map]
  rfl

theorem Part.child?_of_part? {n : Node} {p q : Part n} {f : Field} (h : p.part? f = some q) :
    p.node.child? f = some q.node := by
  rw [← p.map_node_part? f, h, Option.map_some]

namespace Builtin

variable {n : Node}

theorem sources_operands (args : List (Part n)) :
    (operands args).flatMap Operand.sources = args.map (·.node) := by
  simp [operands, List.flatMap_map, Operand.sources, ← List.map_eq_flatMap]

theorem sources_callable (target : Part n) :
    (callable target).sources = [target.node.holder] := by
  unfold callable Node.holder
  rw [← target.map_node_part? .object]
  split
  · rename_i object property hkind hobject hproperty
    rw [hkind, hobject, hproperty]
    simp only [Option.map_some]
    split <;> rfl
  · rename_i hnot
    split
    · rename_i object property hkind hobject hproperty
      obtain ⟨part, hpart, -⟩ := Option.map_eq_some_iff.mp hobject
      exact absurd hproperty (hnot part property hkind hpart)
    · rfl

theorem map_node_argumentParts? {args : List (Part n)} (h : argumentParts? n = some args) :
    args.map (·.node) = n.callArguments := by
  unfold argumentParts? at h
  rw [Node.callArguments, ← Node.map_node_part?]
  split at h
  · rename_i hnone
    obtain rfl := Option.some.inj h
    rw [hnone]
    rfl
  · rename_i arguments hsome
    split at h
    · obtain rfl := Option.some.inj h
      rw [hsome, Part.parts, List.map_map]
      exact arguments.node.map_node_parts
    · cases h

theorem kind_of_isUnbound {scopes : Scopes} {m : Node} (h : scopes.isUnbound m = true) :
    m.kind = .identifier := by
  simpa using (Bool.and_eq_true_iff.mp h).1

/-- An indirect call keeps all but the receiver that it sets, and that one is pure. -/
theorem indirect?_sources {target : Part n} {method : String} {args : List (Part n)}
    {r : Replacement n} {e : Event} (h : indirect? target method args = some (r, e)) :
    r.sources = target.node.holder :: (args.drop 1).map (·.node) ∧
      ∀ a ∈ args.take 1, a.node.isPure = true := by
  unfold indirect? at h
  dsimp only at h
  split at h
  · cases h
  · rename_i hpure
    have hinvoked {function : String} {rest : List (Operand n)}
        (heq : some (indirect?.invoked target function rest) = some (r, e)) :
        r.sources = target.node.holder :: rest.flatMap Operand.sources := by
      obtain ⟨rfl, -⟩ := Prod.mk.inj (Option.some.inj heq)
      rw [Replacement.sources, List.flatMap_cons, sources_callable]
      rfl
    refine ⟨?_, by simpa using hpure⟩
    split at h
    · split at h
      · rename_i hrest
        rw [hinvoked h, hrest]
        rfl
      · rename_i hrest
        rw [hinvoked h, hrest]
        rfl
      · cases h
    · rw [hinvoked h, List.flatMap_map]
      simp [Operand.sources, ← List.map_eq_flatMap]

/-- Where the receiver goes last, the arguments are pure and go before it. -/
theorem receiverLast?_sources {method function : String} {args : List (Part n)}
    {before after : List (Operand n)}
    (h : receiverLast? method args = some (function, before, after)) :
    (∀ a ∈ args, a.node.isPure = true) ∧
      before.flatMap Operand.sources = args.map (·.node) ∧ after.flatMap Operand.sources = [] := by
  unfold receiverLast? at h
  split at h
  · cases h
  split at h
  · cases h
  rename_i hpure
  refine ⟨by simpa using hpure, ?_⟩
  split at h
  · rename_i hjoin
    obtain rfl : args = [] := by simpa using (Bool.and_eq_true_iff.mp hjoin).2
    cases h
    exact ⟨rfl, rfl⟩
  split at h
  · split at h
    · cases h
      exact ⟨sources_operands _, rfl⟩
    · cases h
  split at h
  · cases h
  · cases h
    refine ⟨sources_operands args, ?_⟩
    split <;> rfl

theorem method?_keepsOperands {scopes : Scopes} {receiver : Part n} {method : String}
    {args : List (Part n)} {r : Replacement n} {e : Event}
    (h : method? scopes receiver method args = some (r, e)) :
    KeepsOperands
      (fun d => (d.kind = .identifier ∧ receiver.node = d) ∨
        (Node.isIndirection method = true ∧ (args.map (·.node)).head? = some d))
      ((if Node.isIndirection method then receiver.node.holder else receiver.node) ::
        args.map (·.node)) r.sources := by
  unfold method? at h
  dsimp only at h
  split at h
  · rename_i function hstatic
    cases h
    split at hstatic
    · rename_i hunbound
      have hname := kind_of_isUnbound hunbound
      have hholder : receiver.node.holder = receiver.node :=
        Node.holder_of_ne_member (by simp [hname])
      rw [hholder, ite_self, Replacement.sources, sources_operands]
      exact .drop [] _ (Node.isPure_of_identifier hname) (.inl ⟨hname, rfl⟩)
    · cases hstatic
  split at h
  · -- the first argument is the receiver that the call sets, and it is left out
    rename_i hindirect
    obtain ⟨hsources, hpure⟩ := indirect?_sources h
    have hindirection : Node.isIndirection method = true := hindirect
    rw [hsources, hindirection, if_pos rfl]
    cases args with
    | nil => exact .refl _
    | cons first rest =>
      apply KeepsOperands.drop [receiver.node.holder] (rest.map (·.node))
      · exact hpure first List.mem_cons_self
      · exact .inr ⟨rfl, rfl⟩
  rename_i hdirect
  have hindirection : Node.isIndirection method = false := Bool.eq_false_iff.mpr hdirect
  rw [hindirection]
  split at h
  · cases h
  split at h
  · cases h
    rw [Replacement.sources, List.flatMap_cons, sources_operands]
    exact .refl _
  · obtain ⟨⟨function, before, after⟩, hlast, heq⟩ := Option.map_eq_some_iff.mp h
    obtain ⟨hpure, hbefore, hafter⟩ := receiverLast?_sources hlast
    cases heq
    rw [Replacement.sources, List.flatMap_append, List.flatMap_cons, hbefore, hafter]
    apply KeepsOperands.rotate
    simpa using hpure

theorem call?_keepsOperands {scopes : Scopes} {r : Replacement n} {e : Event}
    (hkind : n.kind = .callExpression) (h : call? scopes n = some (r, e)) :
    KeepsOperands n.MayOmit n.operands r.sources := by
  unfold call? at h
  split at h
  case h_2 => cases h
  rename_i callee args hcallee hargs
  have hfunction := Node.child?_of_part? hcallee
  have harguments := map_node_argumentParts? hargs
  split at h
  · rename_i hname
    split at h
    · obtain ⟨function, -, heq⟩ := Option.map_eq_some_iff.mp h
      cases heq
      rw [Node.operands_of_function hkind hfunction (by simp [hname]), ← harguments,
        Replacement.sources, sources_operands]
      apply KeepsOperands.drop [] _ (Node.isPure_of_identifier hname)
      exact .inl ⟨hname, Node.origin?_of_function hkind hfunction (by simp [hname])⟩
    · cases h
  · rename_i hmember
    split at h
    · rename_i receiver property hreceiver hproperty
      split at h
      · cases h
      · have hobject := Part.child?_of_part? hreceiver
        rw [Node.operands_of_method hkind hfunction hmember hobject hproperty, ← harguments]
        apply (method?_keepsOperands h).mono
        rintro d (⟨hname, rfl⟩ | ⟨hindirect, hhead⟩)
        · exact .inl ⟨hname, Node.origin?_of_method hkind hfunction hmember hobject⟩
        · rw [harguments] at hhead
          refine .inr ⟨?_, hhead⟩
          rw [Node.callsIndirectly_of_method hkind hfunction hmember hproperty]
          exact hindirect
    · cases h
  · cases h

theorem member?_keepsOperands {scopes : Scopes} {r : Replacement n} {e : Event}
    (hkind : n.kind = .memberExpression) (h : member? scopes n = some (r, e)) :
    KeepsOperands n.MayOmit n.operands r.sources := by
  unfold member? at h
  dsimp only at h
  split at h
  case h_2 => cases h
  rename_i receiver property hreceiver _
  have hobject := Node.child?_of_part? hreceiver
  have horigin : n.origin? = some receiver.node := by rw [Node.origin?, hkind]; exact hobject
  have hoperands : n.operands = [receiver.node] := by
    simp [Node.operands, Node.callsIndirectly, hkind, horigin]
  rw [hoperands]
  split at h
  · rename_i name hstatic
    cases h
    split at hstatic
    · rename_i hunbound
      have hname := kind_of_isUnbound hunbound
      exact .drop [] [] (Node.isPure_of_identifier hname) (.inl ⟨hname, horigin⟩)
    · cases hstatic
  · split at h
    · cases h
      exact .refl _
    · cases h

theorem replacement?_keepsOperands {scopes : Scopes} {place : Place} {r : Replacement n}
    {e : Option Event} (h : replacement? scopes place n = some (r, e)) :
    KeepsOperands n.MayOmit n.operands r.sources := by
  unfold replacement? at h
  split at h
  · rename_i hkind
    obtain ⟨⟨r', e'⟩, hcall, heq⟩ := Option.map_eq_some_iff.mp h
    cases heq
    exact call?_keepsOperands hkind hcall
  · rename_i hkind
    split at h
    · cases h
    · obtain ⟨⟨r', e'⟩, hmember, heq⟩ := Option.map_eq_some_iff.mp h
      cases heq
      exact member?_keepsOperands hkind hmember
  · rename_i hkind
    obtain ⟨name, -, heq⟩ := Option.map_eq_some_iff.mp h
    cases heq
    have hoperands : n.operands = [] := by
      simp [Node.operands, Node.callsIndirectly, Node.origin?, hkind]
    rw [hoperands]
    exact .refl []
  · cases h

end Builtin

theorem Node.Grammatical.child? {n c : Node} {f : Field} (h : n.Grammatical)
    (hc : n.child? f = some c) : c.Grammatical :=
  h.child (mem_children_of_child? hc)

theorem Node.Grammatical.origin? {n a : Node} (h : n.Grammatical) (ha : n.origin? = some a) :
    a.Grammatical := by
  unfold Node.origin? at ha
  split at ha
  · cases hcalled : n.calledMember? with
    | none =>
      rw [hcalled] at ha
      exact h.child? ha
    | some member =>
      rw [hcalled] at ha
      exact (h.child? (Option.filter_eq_some_iff.mp hcalled).1).child? ha
  · exact h.child? ha
  · cases ha

theorem Node.Grammatical.holder {n : Node} (h : n.Grammatical) : n.holder.Grammatical := by
  unfold Node.holder
  split
  · rename_i hobject _
    split
    · exact h
    · exact h.child? hobject
  · exact h

theorem Node.Grammatical.operands {n a : Node} (h : n.Grammatical) (ha : a ∈ n.operands) :
    a.Grammatical := by
  unfold Node.operands at ha
  rcases List.mem_append.mp ha with hfirst | hrest
  · rw [Option.mem_toList] at hfirst
    split at hfirst
    · obtain ⟨origin, horigin, rfl⟩ := Option.map_eq_some_iff.mp hfirst
      exact (h.origin? horigin).holder
    · exact h.origin? hfirst
  · split at hrest
    · unfold Node.callArguments at hrest
      cases harguments : n.child? .arguments with
      | none =>
        rw [harguments] at hrest
        cases hrest
      | some arguments =>
        rw [harguments] at hrest
        exact (h.child? harguments).child hrest
    · cases hrest

/-- What has an effect is not pure, so it is kept in its order. -/
theorem filter_hasEffect {ns : List Node} (h : ∀ a ∈ ns, a.Grammatical) :
    ns.filter (·.hasEffect) = (ns.filter fun a => !a.isPure).filter (·.hasEffect) := by
  rw [List.filter_filter]
  apply List.filter_congr
  intro a ha
  cases hpure : a.isPure with
  | false => simp
  | true => simp [Node.hasEffect_of_isPure (h a ha) hpure]

theorem KeepsOperands.filter_hasEffect_eq {droppable : Node → Prop} {old new : List Node}
    (h : KeepsOperands droppable old new) (hold : ∀ a ∈ old, a.Grammatical) :
    new.filter (·.hasEffect) = old.filter (·.hasEffect) := by
  have hnew : ∀ a ∈ new, a.Grammatical := fun a ha => hold a (h.subset ha)
  rw [filter_hasEffect hnew, filter_hasEffect hold, h.ordered]

/-- The replacement of a call or a member has each operand once. It leaves out at most one, which is
pure: a name from which it starts, or the receiver that an indirect call sets. The operands that are
not pure come in the order of the source, and so do those that have an effect, since a pure
expression reaches none. -/
theorem Builtin.replacement_conserves_operands :
    (∀ (scopes : Scopes) (place : Place) (n : Node) (r : Replacement n) (e : Option Event),
      Builtin.replacement? scopes place n = some (r, e) →
        (∃ dropped : Option Node, (r.sources ++ dropped.toList).Perm n.operands ∧
          ∀ d ∈ dropped, d.isPure = true ∧
            ((d.kind = .identifier ∧ n.origin? = some d) ∨
              (n.callsIndirectly = true ∧ n.callArguments.head? = some d))) ∧
        r.sources.filter (fun a => !a.isPure) = n.operands.filter (fun a => !a.isPure) ∧
        (n.Grammatical → r.sources.filter (·.hasEffect) = n.operands.filter (·.hasEffect))) ∧
      ∀ n : Node, n.Grammatical → n.isPure = true → ∀ m ∈ n.reached, m.isEffect = false := by
  constructor
  · intro scopes place n r e h
    have hkeeps := Builtin.replacement?_keepsOperands h
    exact ⟨hkeeps.once, hkeeps.ordered,
      fun hshape => hkeeps.filter_hasEffect_eq fun _ => hshape.operands⟩
  · intro n hshape hpure m hm
    have hnone := List.any_eq_false.mp (Node.hasEffect_of_isPure hshape hpure) m hm
    exact Bool.eq_false_iff.mpr hnone

def receiverOfCall : Node :=
  { kind := .memberExpression, text := "t.u"
    children := [{ kind := .identifier, field := some .object, text := "t" },
      { kind := .propertyIdentifier, field := some .property, text := "u" }] }

/-- The call `o().m.call(t.u, f(), g)`. -/
def indirectCall : Node :=
  let called (name : String) (field : Option Field) : Node :=
    { kind := .callExpression, field, text := name ++ "()"
      children := [{ kind := .identifier, field := some .function, text := name },
        { kind := .arguments, field := some .arguments }] }
  let member (object : Node) (name : String) (field : Field) : Node :=
    { kind := .memberExpression, field := some field
      children := [object,
        { kind := .propertyIdentifier, field := some .property, text := name }] }
  { kind := .callExpression
    children := [member (member (called "o" (some .object)) "m" .object) "call" .function,
      { kind := .arguments, field := some .arguments
        children := [receiverOfCall, called "f" none, { kind := .identifier, text := "g" }] }] }

theorem Builtin.replacement_conserves_indirectCall :
    (∃ (r : Replacement indirectCall) (e : Option Event),
      Builtin.replacement? [] .other indirectCall = some (r, e) ∧
        indirectCall.operands.map (·.text) = ["o()", "t.u", "f()", "g"] ∧
        (∃ dropped : Option Node, (r.sources ++ dropped.toList).Perm indirectCall.operands) ∧
        (r.sources.filter (·.hasEffect)).map (·.text) = ["o()", "f()"]) ∧
      ∀ m ∈ receiverOfCall.reached, m.isEffect = false := by
  have hsome : (Builtin.replacement? [] .other indirectCall).isSome = true := by decide +kernel
  obtain ⟨⟨r, e⟩, h⟩ := Option.isSome_iff_exists.mp hsome
  obtain ⟨hcalls, hpure⟩ := Builtin.replacement_conserves_operands
  obtain ⟨⟨dropped, hperm, -⟩, -, heffects⟩ := hcalls [] .other indirectCall r e h
  refine ⟨⟨r, e, h, by decide +kernel, ⟨dropped, hperm⟩, ?_⟩,
    hpure receiverOfCall (by decide +kernel) (by decide +kernel)⟩
  rw [heffects (by decide +kernel)]
  decide +kernel

end EcmaPhp
