import EcmaPhp.Proofs.Builtin.Placed
import EcmaPhp.Proofs.Soundness.Basic

/-! The rules of expressions and literals find what they need. -/
namespace EcmaPhp.Emit
open Script EmitM
open Failure (Refuses)

variable {P : Location → Prop} {k : Ground} {n : Node} {visit : Visit n}

theorem sound_identifier (context : Context) : (identifier n context).Sound (Refuses P) k := by
  simp only [identifier, sound_ite, sound_emit, implies_true, true_and, sound_bind, sound_getScopes]
  intro _ _ scopes _
  split
  · simp
  · simp only [sound_bind, sound_resolve, true_and]
    intro definition _
    split <;> simp

@[simp]
theorem sound_refuseTemplate (m : Node) : (refuseTemplate m).Sound (Refuses P) k := by
  simpa [refuseTemplate] using Node.Refused.taggedTemplate (n := m)

theorem sound_stringText {text : String} (htext : text ≠ "") :
    (stringText n text).Sound (Refuses P) k := by
  unfold stringText
  split
  · rename_i hnil
    exact absurd (String.toList_eq_nil_iff.mp hnil) htext
  · simp

variable (hn : n.Complete P) (hv : Visit.Sound P visit) (hk : k.inScope = true)

section

include hn

/-- The arguments of a call or a construction. -/
theorem placed_arguments :
    ∀ a ∈ ((n.part? .arguments).map Part.parts).getD [], a.node.Placed P := by
  cases hargs : n.part? .arguments with
  | none => simp
  | some args =>
    have hchild := Node.child?_of_part? hargs
    exact Part.placed_parts (hn.of_child? hchild) (hn.holdsMethods_child? hchild rfl)

theorem sound_stringLiteral (hkind : n.kind = .string) : (stringLiteral n).Sound (Refuses P) k :=
  sound_stringText (hn.shaped.text hkind)

theorem sound_regexLiteral (hkind : n.kind = .regex) : (regexLiteral n).Sound (Refuses P) k := by
  obtain ⟨pattern, hpattern, -⟩ := hn.exists_placed hkind .pattern (by decide)
  simp [regexLiteral, need_eq hpattern]

include hk

theorem sound_registerTarget : (registerTarget n).Sound (Refuses P) k := by
  simp only [registerTarget, sound_ite, sound_register, hn.hasNames, hk, and_self, implies_true,
    true_and]
  intro _
  split
  · trivial
  · simp [hn.hasNames, hk]

end

include hv hk

theorem sound_key {p : Part n} (hp : p.node.Placed P) : (key visit p).Sound (Refuses P) k := by
  simp [key, hv.placed hp hk]

theorem sound_substitution {expression : Part n} (hexpression : expression.node.Placed P) :
    (substitution visit expression).Sound (Refuses P) k := by
  simp [substitution, hv.placed hexpression hk]

theorem sound_templateBody (start : Nat) (parts : List (Part n))
    (hparts : ∀ s ∈ parts, s.node.Complete P ∧ s.node.kind = .templateSubstitution) :
    (templateBody n visit start parts).Sound (Refuses P) k := by
  induction parts generalizing start with
  | nil => simp [templateBody, templateChunk]
  | cons s rest ih =>
    obtain ⟨⟨hs, hkind⟩, hrest⟩ := List.forall_mem_cons.mp hparts
    obtain ⟨p, others, hfirst, hplaced⟩ := hs.exists_first hkind rfl
    have hexpression : s.parts = s.trans p :: others.map s.trans := by
      rw [Part.parts, hfirst, List.map_cons]
    have hsubstitution : (substitution visit (s.trans p)).Sound (Refuses P) k :=
      sound_substitution hv hk hplaced
    simp [templateBody, templateChunk, hexpression, hsubstitution, ih _ hrest]

theorem sound_operand (alone : Bool) {o : Operand n} (ho : o.Placed P) :
    (operand visit alone o).Sound (Refuses P) k := by
  have hplaced := ho.sources
  cases o with
  | source part wasAlone => exact hv.placed (hplaced part.node (by simp [Operand.sources])) hk
  | literal kind text =>
    cases kind with
    | string => exact sound_stringText ho.quoted
    | _ => exact sound_emit text
  | emptyArray => simp [operand, arrayBlock]
  | method object name =>
    have hname : (stringText n ("'" ++ name ++ "'")).Sound (Refuses P) k :=
      sound_stringText (by simp)
    have hobject : object.node.Placed P := hplaced object.node (by simp [Operand.sources])
    simp [operand, arrayBlock, hname, hv.placed hobject hk]
  | element container index =>
    simp [operand, subscript, hv.placed (hplaced container.node (by simp [Operand.sources])) hk,
      hv.placed (hplaced index.node (by simp [Operand.sources])) hk]

theorem sound_phpCall (place : Place) (function : String) {operands : List (Operand n)}
    (hoperands : ∀ o ∈ operands, o.Placed P) :
    (phpCall visit place function operands).Sound (Refuses P) k := by
  have hemitted :
      ∀ m ∈ operands.map (operand visit (operands.length = 1)), m.Sound (Refuses P) k := by
    intro m hm
    obtain ⟨o, ho, rfl⟩ := List.mem_map.mp hm
    exact sound_operand hv hk _ (hoperands o ho)
  simp only [phpCall]
  split
  · simp_all
  · simp [argumentList, sound_separated _ _ hemitted]

theorem sound_replacement (place : Place) {r : Replacement n}
    (hr : ∀ o ∈ r.operands, o.Placed P) : (replacement visit place r).Sound (Refuses P) k := by
  cases r with
  | call function operands => exact sound_phpCall hv hk place function hr
  | constant name => exact sound_emit name

theorem sound_branch {b : Part n} (hb : b.node.Placed P) :
    (branch visit b).Sound (Refuses P) k := by
  simp [branch, hv.placed hb hk]

include hn

theorem sound_inlineCall (hkind : n.kind = .callExpression) (place : Place) {callee : Part n}
    (hcallee : callee.node.Placed P) : (inlineCall n visit place callee).Sound (Refuses P) k := by
  obtain ⟨args, hargs, hplaced⟩ := hn.exists_placed hkind .arguments (by decide)
  unfold inlineCall
  split
  · simp [need_eq hargs, hv.placed hcallee hk, hv.placed hplaced hk]
  · have hvisits : ∀ a ∈ ((n.part? .arguments).map Part.parts).getD [], ∀ context,
        (visit a context).Sound (Refuses P) k :=
      fun a ha context => hv.placed (placed_arguments hn a ha) hk
    simp +contextual [hv.placed hcallee hk, hvisits]

theorem sound_plainCall (hholds : n.kind.holdsMethods = false) (place : Place) {callee : Part n}
    (hcallee : callee.node.Placed P) : (plainCall n visit place callee).Sound (Refuses P) k := by
  have hparts := placed_arguments hn
  simp only [plainCall, sound_bind, sound_getScopes, true_and]
  intro scopes _
  split
  · rename_i list value _ hargs
    rw [hargs] at hparts
    simp [hv.placed (hparts list (by simp)) hk, hv.placed (hparts value (by simp)) hk]
  · cases hargs : n.part? .arguments with
    | some args => simp [hv.placed hcallee hk, hv.placed (hn.placed_part? hholds hargs) hk]
    | none => simp [hv.placed hcallee hk]

theorem sound_call (hkind : n.kind = .callExpression) (context : Context) :
    (call n visit context).Sound (Refuses P) k := by
  obtain ⟨callee, hcallee, hplaced⟩ := hn.exists_placed hkind .function (by decide)
  simp only [call, need_eq hcallee, sound_bind, sound_refuseTemplate, sound_pure, sound_ite,
    sound_getScopes, gives_pure, true_and]
  rintro _ _ _ rfl
  refine ⟨fun _ => sound_inlineCall hn hv hk hkind _ hplaced, fun _ scopes _ => ?_⟩
  split
  · rename_i r event hr
    cases event <;> simp [sound_replacement hv hk _ (Builtin.placed_replacement? hn hr)]
  · exact sound_plainCall hn hv hk (by rw [hkind]; rfl) _ hplaced

theorem sound_construction (hkind : n.kind = .newExpression) (context : Context) :
    (construction n visit context).Sound (Refuses P) k := by
  obtain ⟨callee, hcallee, hplaced⟩ := hn.exists_placed hkind .constructor (by decide)
  simp [construction, need_eq hcallee,
    sound_plainCall hn hv hk (by rw [hkind]; rfl) context.place hplaced]

theorem sound_member (hkind : n.kind = .memberExpression) (context : Context) :
    (member n visit context).Sound (Refuses P) k := by
  obtain ⟨object, hobject, hplaced⟩ := hn.exists_placed hkind .object (by decide)
  obtain ⟨property, hproperty, hplaced'⟩ := hn.exists_placed hkind .property (by decide)
  simp only [member, sound_bind, sound_getScopes, true_and]
  intro scopes _
  split
  · rename_i r event hr
    cases event <;> simp [sound_replacement hv hk _ (Builtin.placed_replacement? hn hr)]
  · simp [need_eq hobject, need_eq hproperty, accessor, hv.placed hplaced hk,
      hv.placed hplaced' hk]

theorem sound_subscriptExpression (hkind : n.kind = .subscriptExpression) :
    (subscriptExpression n visit).Sound (Refuses P) k := by
  obtain ⟨object, hobject, hplaced⟩ := hn.exists_placed hkind .object (by decide)
  obtain ⟨index, hindex, hplaced'⟩ := hn.exists_placed hkind .index (by decide)
  simp [subscriptExpression, subscript, need_eq hobject, need_eq hindex, hv.placed hplaced hk,
    hv.placed hplaced' hk]

theorem sound_binary (hkind : n.kind = .binaryExpression) (context : Context) :
    (binary n visit context).Sound (Refuses P) k := by
  obtain ⟨left, hleft, hplaced⟩ := hn.exists_placed hkind .left (by decide)
  obtain ⟨right, hright, hplaced'⟩ := hn.exists_placed hkind .right (by decide)
  have hisset : ∀ o ∈ [Operand.element right left], o.Placed P := by
    simp only [List.mem_singleton, forall_eq]
    exact ⟨by simp [Operand.sources, hplaced, hplaced'], trivial⟩
  simp [binary, need_eq hleft, need_eq hright, hv.placed hplaced hk, hv.placed hplaced' hk,
    sound_phpCall hv hk context.place "isset" hisset]

theorem sound_assignment (hkind : n.kind = .assignmentExpression) :
    (assignment n visit).Sound (Refuses P) k := by
  obtain ⟨left, hleft, hplaced⟩ := hn.exists_placed hkind .left (by decide)
  obtain ⟨right, hright, hplaced'⟩ := hn.exists_placed hkind .right (by decide)
  simp [assignment, need_eq hleft, need_eq hright, sound_registerTarget hplaced.complete hk,
    hv.placed hplaced hk, hv.placed hplaced' hk]

theorem sound_augmentedAssignment (hkind : n.kind = .augmentedAssignment) :
    (augmentedAssignment n visit).Sound (Refuses P) k := by
  obtain ⟨left, hleft, hplaced⟩ := hn.exists_placed hkind .left (by decide)
  obtain ⟨right, hright, hplaced'⟩ := hn.exists_placed hkind .right (by decide)
  simpa [augmentedAssignment, need_eq hleft, need_eq hright, hv.placed hplaced hk,
    hv.placed hplaced' hk] using Node.Refused.logicalAssignment (n := n)

theorem sound_conditional (hkind : n.kind = .ternaryExpression) :
    (conditional n visit).Sound (Refuses P) k := by
  obtain ⟨test, htest, hplaced⟩ := hn.exists_placed hkind .condition (by decide)
  obtain ⟨yes, hyes, hplaced'⟩ := hn.exists_placed hkind .consequence (by decide)
  obtain ⟨no, hno, hplaced''⟩ := hn.exists_placed hkind .alternative (by decide)
  simp [conditional, need_eq htest, need_eq hyes, need_eq hno, hv.placed hplaced hk,
    sound_branch hv hk hplaced', sound_branch hv hk hplaced'']

theorem sound_unary (hkind : n.kind = .unaryExpression) (context : Context) :
    (unary n visit context).Sound (Refuses P) k := by
  obtain ⟨argument, hargument, hplaced⟩ := hn.exists_placed hkind .argument (by decide)
  have hoperand : ∀ o ∈ [Operand.source argument false], o.Placed P := by
    simp only [List.mem_singleton, forall_eq]
    exact ⟨by simp [Operand.sources, hplaced], trivial⟩
  simp only [unary, need_eq hargument, sound_bind, sound_pure, gives_pure, true_and, forall_eq]
  split
  · exact sound_phpCall hv hk _ _ hoperand
  · exact sound_phpCall hv hk _ _ hoperand
  · simp [hv.placed hplaced hk]
  · simp [hv.placed hplaced hk]

theorem sound_update (hkind : n.kind = .updateExpression) :
    (update n visit).Sound (Refuses P) k := by
  obtain ⟨argument, hargument, hplaced⟩ := hn.exists_placed hkind .argument (by decide)
  simp [update, need_eq hargument, hv.placed hplaced hk]

theorem sound_yielded (hkind : n.kind = .yieldExpression) :
    (yielded n visit).Sound (Refuses P) k := by
  have hparts := hn.placed_parts (by rw [hkind]; rfl)
  cases hfirst : n.parts with
  | nil => simp [yielded, suspension, hfirst]
  | cons value rest =>
    simp [yielded, suspension, hfirst, hv.placed (hparts value (by simp [hfirst])) hk]

theorem sound_awaited (hkind : n.kind = .awaitExpression) :
    (awaited n visit).Sound (Refuses P) k := by
  obtain ⟨value, _, hfirst, hplaced⟩ := hn.exists_first hkind rfl
  simp [awaited, suspension, needFirst_eq hfirst, hv.placed hplaced hk]

theorem sound_computedName (hkind : n.kind = .computedPropertyName) :
    (computedName n visit).Sound (Refuses P) k := by
  obtain ⟨value, _, hfirst, hplaced⟩ := hn.exists_first hkind rfl
  simp [computedName, needFirst_eq hfirst, hv.placed hplaced hk]

theorem sound_template (hkind : n.kind = .templateString) :
    (template n visit).Sound (Refuses P) k := by
  have hparts : ∀ s ∈ n.partsOf .templateSubstitution,
      s.node.Complete P ∧ s.node.kind = .templateSubstitution := by
    intro s hs
    obtain ⟨hmem, hsubstitution⟩ := List.mem_filter.mp hs
    exact ⟨(hn.placed_parts (by rw [hkind]; rfl) s hmem).complete, by simpa using hsubstitution⟩
  simp [template, sound_templateBody hv hk _ _ hparts]

theorem sound_pair (hkind : n.kind = .pair) : (pair n visit).Sound (Refuses P) k := by
  obtain ⟨key, hkey, hplaced⟩ := hn.exists_placed hkind .key (by decide)
  obtain ⟨value, hvalue, hplaced'⟩ := hn.exists_placed hkind .value (by decide)
  simp [pair, need_eq hkey, need_eq hvalue, sound_key hv hk hplaced, hv.placed hplaced' hk]

theorem sound_objectLiteral : (objectLiteral n visit).Sound (Refuses P) k := by
  -- The methods of an object are its members.
  have hmembers :
      (commaSeparated visit { place := .objectMember } n.parts).Sound (Refuses P) k := by
    refine sound_separated _ _ fun m hm => ?_
    obtain ⟨p, hp, rfl⟩ := List.mem_map.mp hm
    exact hv p _ k hk (hn.child (Node.mem_children_of_mem_parts hp))
      fun _ hplace => absurd rfl hplace
  simp [objectLiteral, hmembers]

end EcmaPhp.Emit
