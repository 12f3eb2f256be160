import EcmaPhp.Proofs.Budget.Basic

/-! The rules for names, literals, calls and operators keep to what their nodes may be charged. -/
namespace EcmaPhp.Emit
open Script EmitM Piece

variable {τ : Tariff} {B : ℕ}

section Names

theorem fits_identifier (n : Node) (context : Context) : (identifier n context).Fits τ 0 := by
  rw [identifier]
  refine fits_ite (fun _ => fits_emit _) fun _ => fits_ite (fun _ => fits_emit _) fun _ => ?_
  refine fits_getScopes.after fun scopes => ?_
  split
  · exact fits_emit _
  · refine (fits_resolve n).after fun definition => ?_
    split
    · exact fits_emit _
    · exact fits_ite (fun _ => fits_emit _) fun _ =>
        fits_ite (fun _ => fits_emit _) fun _ => fits_emit _

theorem fits_shorthandProperty (n : Node) : (shorthandProperty n).Fits τ 0 :=
  (fits_resolve n).after fun _ => fits_emit _

theorem fits_stringText (n : Node) (text : String) : (stringText n text).Fits τ 0 := by
  rw [stringText]
  split
  · exact fits_fail _
  · exact fits_emitChars _

theorem fits_regexLiteral (n : Node) : (regexLiteral n).Fits τ 0 :=
  Fits.need fun _ _ => fits_emitChars _

theorem fits_hole (context : Context) : (hole context).Fits τ 0 :=
  fits_ite (fun _ => fits_pure _) fun _ => fits_emit _

theorem fits_refuseTemplate (n : Node) : (refuseTemplate n).Fits τ 0 :=
  fits_ite (fun _ => fits_unsupported _ _) fun _ => fits_pure _

theorem fits_registerTarget (target : Node) : (registerTarget target).Fits τ 0 := by
  rw [registerTarget]
  refine fits_ite (fun _ => fits_register _) fun _ => ?_
  split
  · exact fits_pure _
  · exact fits_getScopes.after fun _ => fits_ite (fun _ => fits_register _) fun _ => fits_pure _

end Names

section Arrays

theorem arrayOpen_withArrays (o : Options) (concise : Bool) :
    (o.withArrays concise).arrayOpen = .ofList (render concise [.opening]) := by
  cases concise <;> rfl

theorem arrayClose_withArrays (o : Options) (concise : Bool) :
    (o.withArrays concise).arrayClose = .ofList (render concise [.closing]) := by
  cases concise <;> rfl

/-- A list between the delimiters of arrays. -/
theorem fits_arrayBlock {m : EmitM Unit} (hm : m.Fits τ B) : (arrayBlock m).Fits τ B := by
  refine Fits.arrays (fun o => (fits_block hm _ _).costs) fun o a b => ?_
  rw [arrayOpen_withArrays, arrayOpen_withArrays, arrayClose_withArrays, arrayClose_withArrays]
  exact .array [.opening] [.closing] [.closing] (hm.alike a b) .pure

/-- Such a list with spaces inside the delimiters, or without anything between them. -/
theorem fits_objectLiteral {n : Node} {visit : Visit n}
    (hv : ∀ p c, (visit p c).Fits τ (τ.spent p.node c)) :
    (objectLiteral n visit).Fits τ (τ.membersAll n.children) := by
  have hmembers := fits_members hv
  have hinline (c : Bool) : " " ++ String.ofList (render c [.closing]) =
      .ofList (render c [.char ' ', .closing]) := by
    cases c <;> rfl
  have hempty (c : Bool) : (String.ofList (render c [.opening]) ++
      .ofList (render c [.closing])).toList = render c [.opening, .closing] := by
    cases c <;> rfl
  refine Fits.arrays (fun o => ?_) fun o a b => ?_
  · exact (fits_ite (fun _ => fits_padded hmembers _ _) fun _ => (fits_emit _).mono (by simp)).costs
  · rw [arrayOpen_withArrays, arrayOpen_withArrays, arrayClose_withArrays, arrayClose_withArrays]
    split
    · have hbody := (Fits.after (fits_emit " ") fun _ => hmembers).alike a b
      unfold padded
      rw [hinline, hinline]
      exact .array [.opening] [.char ' ', .closing] [.closing] hbody .pure
    · unfold emit
      rw [hempty, hempty]
      exact .text [.opening, .closing] (.pure ())

end Arrays

section Literals

variable {n : Node} {visit : Visit n} (hv : ∀ p c, (visit p c).Fits τ (τ.spent p.node c))
include hv

theorem fits_key (k : Part n) : (key visit k).Fits τ (τ.cost k.node) := by
  refine fits_ite (fun _ => ?_) fun _ => fits_visit hv k {}
  exact ((fits_emit _).around _).mono (τ.own_le_cost k.node)

theorem fits_key_part {f : Field} {k : Part n} (hk : n.part? f = some k) :
    (key visit k).Fits τ (τ.inField n f) :=
  (fits_key hv k).mono (Tariff.cost_part?_le hk)

theorem fits_computedName : (computedName n visit).Fits τ (τ.costAll n.children) :=
  .needFirst fun _ _ hp => fits_visit_first hv hp _

theorem fits_substitution (expression : Part n) :
    (substitution visit expression).Fits τ (τ.cost expression.node) := by
  unfold substitution
  refine fits_getScopes.after fun scopes => ?_
  refine (fits_forM_free _ _ fun e _ => fits_note e).after fun _ => ?_
  refine (fits_emit _).after fun _ => ?_
  exact (fits_visit hv expression _).before fun _ => fits_emit _

omit hv in
theorem fits_templateChunk (start stop : Nat) : (templateChunk n start stop).Fits τ 0 :=
  fits_edit (.verbatim _)

theorem fits_templateBody (start : Nat) (parts : List (Part n))
    (hparts : ∀ s ∈ parts, s.node.kind = .templateSubstitution) :
    (templateBody n visit start parts).Fits τ (τ.costAll (parts.map (·.node))) := by
  induction parts generalizing start with
  | nil => exact fits_templateChunk _ _
  | cons s rest ih =>
    have hrest := ih s.node.stop fun q hq => hparts q (by simp [hq])
    rw [templateBody, List.map_cons, Tariff.costAll_cons]
    refine Fits.after (fits_templateChunk _ _) fun _ => ?_
    split
    · rename_i expression more hs
      have hmem : expression ∈ s.parts := hs ▸ List.mem_cons_self
      have hplain : s.node.kind.hasMembers = false := by
        rw [hparts s List.mem_cons_self]
        rfl
      have hle := Tariff.cost_le_costAll (τ := τ) (s.map_node_parts ▸ List.mem_map_of_mem hmem)
      exact ((fits_substitution hv expression).mono
        (Nat.le_trans hle (τ.costAll_children_le hplain))).bind fun _ => hrest
    · exact fits_fail _

theorem fits_template : (template n visit).Fits τ (τ.costAll n.children) := by
  have hbody := fits_templateBody hv (n.start + 1) (n.partsOf .templateSubstitution) fun s hs =>
    of_decide_eq_true (List.mem_filter.mp hs).2
  have hle : τ.costAll ((n.partsOf .templateSubstitution).map (·.node)) ≤ τ.costAll n.children := by
    rw [← n.map_node_parts]
    exact Tariff.costAll_le_of_sublist (List.filter_sublist.map _)
  exact Fits.after (fits_emit _) fun _ => (hbody.mono hle).before fun _ => fits_emit _

theorem fits_arrayLiteral : (arrayLiteral n visit).Fits τ (τ.costAll n.children) :=
  fits_arrayBlock (fits_commaSeparated_parts hv {})

theorem fits_pair : (pair n visit).Fits τ (τ.costAll n.children) := by
  refine Fits.mono ?_ (τ.inField_add_le n (f := .key) (g := .value) (by decide))
  refine .need fun k hk => (fits_key_part hv hk).bind fun _ => ?_
  exact Fits.after (fits_emit _) fun _ => .need fun value hvalue => fits_visit_part hv hvalue _

end Literals

section Calls

variable {n : Node} {visit : Visit n}

theorem fits_argumentList {m : EmitM Unit} (hm : m.Fits τ B) : (argumentList m).Fits τ B :=
  Fits.after (fits_emit _) fun _ => (fits_indented hm).before fun _ => fits_emit _

theorem fits_accessor (m object : Node) (name : String) (context : Context) :
    (accessor m object name context).Fits τ 0 := by
  refine fits_getScopes.after fun scopes => ?_
  repeat' first | exact fits_pure _ | refine fits_ite (fun _ => ?_) fun _ => ?_

variable (hv : ∀ p c, (visit p c).Fits τ (τ.spent p.node c))
include hv

theorem fits_arguments : (arguments n visit).Fits τ (τ.costAll n.children) :=
  fits_argumentList (fits_commaSeparated_parts hv _)

theorem fits_subscript (object index : Part n) :
    (subscript visit object index).Fits τ (τ.cost object.node + τ.cost index.node) :=
  (fits_visit hv object _).bind fun _ => fits_block (fits_visit hv index _) _ _

/-- An operand is charged for the parts of the source in it. -/
theorem fits_operand (alone : Bool) (o : Operand n) :
    (operand visit alone o).Fits τ (τ.costAll o.sources) := by
  cases o with
  | source part wasAlone => exact fits_visit hv part _
  | literal kind text =>
    cases kind with
    | string => exact fits_stringText n text
    | _ => exact fits_emit text
  | emptyArray => exact fits_arrayBlock (fits_pure _)
  | method object name =>
    refine fits_arrayBlock ((fits_visit hv object {}).before fun _ => ?_)
    exact (fits_emit _).after fun _ => fits_stringText n _
  | element container index => exact fits_subscript hv container index

theorem fits_phpCall (place : Place) (function : String) (operands : List (Operand n)) :
    (phpCall visit place function operands).Fits τ
      (τ.costAll (operands.flatMap Operand.sources)) := by
  have hsum : τ.costAll (operands.flatMap Operand.sources) =
      (operands.map fun o => τ.costAll o.sources).sum := by
    induction operands with
    | nil => rfl
    | cons o rest ih => simp [ih]
  rw [hsum, phpCall]
  split
  · rename_i list value happend hemitted
    obtain ⟨o, o', rfl⟩ : ∃ o o', operands = [o, o'] := by
      have hlength := congrArg List.length hemitted
      rw [List.length_map] at hlength
      exact List.length_eq_two.mp hlength
    obtain ⟨rfl, rfl⟩ : operand visit _ o = list ∧ operand visit _ o' = value := by
      simpa using hemitted
    exact (fits_operand hv _ o).bind fun _ => (fits_emit _).after fun _ => fits_operand hv _ o'
  · refine Fits.after (fits_emit _) fun _ => fits_argumentList ?_
    exact fits_separated _ operands _ _ fun o _ => fits_operand hv _ o

theorem fits_replacement (place : Place) (r : Replacement n) :
    (replacement visit place r).Fits τ (τ.costAll r.sources) := by
  cases r with
  | call function operands => exact fits_phpCall hv place function operands
  | constant name => exact fits_emit name

omit hv in
theorem map_node_arguments :
    (((n.part? .arguments).map Part.parts).getD []).map (·.node) = n.callArguments := by
  rw [Node.callArguments, ← n.map_node_part?]
  cases n.part? .arguments with
  | none => rfl
  | some args => exact args.map_node_parts

theorem fits_inlineCall {callee : Part n} (hcallee : n.part? .function = some callee)
    (place : Place) : (inlineCall n visit place callee).Fits τ (τ.costAll n.children) := by
  refine Fits.mono ?_ (τ.inField_add_le n (f := .function) (g := .arguments) (by decide))
  unfold inlineCall
  split
  · refine (fits_visit_part hv hcallee _).bind fun _ => (fits_emit _).after fun _ => ?_
    refine (fits_edit .breakLine).after fun _ => (fits_emit _).after fun _ => ?_
    exact .need fun args hargs => fits_visit_part hv hargs _
  · refine Fits.after (fits_emit _) fun _ => (fits_visit_part hv hcallee _).bind fun _ => ?_
    refine Fits.before (Fits.mono (fits_forM _ _ _ fun a _ =>
      Fits.after (fits_emit _) fun _ => fits_visit hv a _) ?_) fun _ => fits_emit _
    have hle := τ.costAll_callArguments_le n
    rw [← map_node_arguments, Tariff.costAll_eq_sum, List.map_map] at hle
    exact hle

theorem fits_givenArguments : (match n.part? .arguments with
    | some args => visit args {}
    | none => emit "()" : EmitM Unit).Fits τ (τ.inField n .arguments) := by
  cases hp : n.part? .arguments with
  | none => exact (fits_emit _).mono (Nat.zero_le _)
  | some args => exact fits_visit_part hv hp _

theorem fits_plainCall (place : Place) (callee : Part n) :
    (plainCall n visit place callee).Fits τ (τ.cost callee.node + τ.inField n .arguments) := by
  refine fits_getScopes.after fun scopes => ?_
  dsimp only
  split
  · rename_i list value happend hargs
    have hle := τ.costAll_callArguments_le n
    rw [← map_node_arguments, hargs] at hle
    have happended := (fits_visit hv list {}).bind fun _ => (fits_emit "[] = ").after fun _ =>
      fits_visit hv value {}
    refine happended.mono ?_
    simp only [List.map_cons, List.map_nil, Tariff.costAll_cons, Tariff.costAll_nil] at hle
    omega
  · split
    · exact (((fits_emit _).around _).mono (τ.own_le_cost callee.node)).bind fun _ =>
        fits_givenArguments hv
    · exact (fits_visit hv callee _).bind fun _ => fits_givenArguments hv

theorem fits_call (context : Context) : (call n visit context).Fits τ (τ.costAll n.children) := by
  refine (fits_refuseTemplate n).after fun _ => .need fun callee hcallee => ?_
  refine fits_ite (fun _ => fits_inlineCall hv hcallee _) fun _ => ?_
  refine fits_getScopes.after fun scopes => ?_
  split
  · rename_i r event hr
    have hreplaced := (fits_replacement hv context.place r).mono (Tariff.costAll_sources_le hr)
    cases event with
    | none => exact hreplaced
    | some e => exact (fits_note e).after fun _ => hreplaced
  · refine (fits_plainCall hv _ callee).mono ?_
    have hle := τ.inField_add_le n (f := .function) (g := .arguments) (by decide)
    have hcost := Tariff.cost_part?_le (τ := τ) hcallee
    omega

theorem fits_construction (context : Context) :
    (construction n visit context).Fits τ (τ.costAll n.children) := by
  refine .need fun callee hcallee => (fits_emit _).after fun _ => ?_
  refine (fits_refuseTemplate _).after fun _ => (fits_plainCall hv _ callee).mono ?_
  have hle := τ.inField_add_le n (f := .constructor) (g := .arguments) (by decide)
  have hcost := Tariff.cost_part?_le (τ := τ) hcallee
  omega

theorem fits_member (context : Context) :
    (member n visit context).Fits τ (τ.costAll n.children) := by
  refine fits_getScopes.after fun scopes => ?_
  split
  · rename_i r event hr
    have hreplaced := (fits_replacement hv context.place r).mono (Tariff.costAll_sources_le hr)
    cases event with
    | none => exact hreplaced
    | some e => exact (fits_note e).after fun _ => hreplaced
  · refine Fits.mono ?_ (τ.inField_add_le n (f := .object) (g := .property) (by decide))
    refine .need fun object hobject => .need fun property hproperty => ?_
    refine (fits_accessor _ _ _ _).after fun between => fits_getScopes.after fun scopes => ?_
    refine (fits_visit_part hv hobject _).bind fun _ => (fits_emit _).after fun _ => ?_
    exact fits_visit_part hv hproperty _

theorem fits_subscriptExpression :
    (subscriptExpression n visit).Fits τ (τ.costAll n.children) := by
  refine .need fun object hobject => .need fun index hindex => (fits_subscript hv _ _).mono ?_
  have hle := τ.inField_add_le n (f := .object) (g := .index) (by decide)
  have hobject := Tariff.cost_part?_le (τ := τ) hobject
  have hindex := Tariff.cost_part?_le (τ := τ) hindex
  omega

end Calls

section Operators

variable {n : Node} {visit : Visit n} (hv : ∀ p c, (visit p c).Fits τ (τ.spent p.node c))
include hv

theorem fits_binary (context : Context) :
    (binary n visit context).Fits τ (τ.costAll n.children) := by
  have hle := τ.inField_add_le n (f := .left) (g := .right) (by decide)
  refine .need fun left hleft => .need fun right hright => fits_ite (fun _ => ?_) fun _ => ?_
  · refine (fits_phpCall hv _ _ _).mono ?_
    have hleft := Tariff.cost_part?_le (τ := τ) hleft
    have hright := Tariff.cost_part?_le (τ := τ) hright
    simp only [List.flatMap_cons, List.flatMap_nil, Operand.sources, List.append_nil,
      Tariff.costAll_cons, Tariff.costAll_nil]
    omega
  · refine fits_getScopes.after fun scopes => Fits.mono ?_ hle
    refine (fits_visit_part hv hleft _).bind fun _ => (fits_emit _).after fun _ => ?_
    exact fits_indented (fits_visit_part hv hright _)

theorem fits_assignment : (assignment n visit).Fits τ (τ.costAll n.children) := by
  refine Fits.mono ?_ (τ.inField_add_le n (f := .left) (g := .right) (by decide))
  refine .need fun left hleft => .need fun right hright => ?_
  refine (fits_registerTarget _).after fun _ => (fits_visit_part hv hleft _).bind fun _ => ?_
  exact (fits_emit _).after fun _ => fits_visit_part hv hright _

theorem fits_augmentedAssignment :
    (augmentedAssignment n visit).Fits τ (τ.costAll n.children) := by
  refine Fits.mono ?_ (τ.inField_add_le n (f := .left) (g := .right) (by decide))
  unfold augmentedAssignment
  split
  · exact fits_unsupported _ _
  · refine Fits.need fun left hleft => .need fun right hright => ?_
    refine fits_getScopes.after fun scopes => (fits_visit_part hv hleft _).bind fun _ => ?_
    exact (fits_emit _).after fun _ => fits_visit_part hv hright _

omit hv in
theorem fits_branch {b : Part n} (hb : ∀ c, (visit b c).Fits τ B) : (branch visit b).Fits τ B := by
  refine fits_getTokens.after fun tokens => ?_
  dsimp only
  split
  · exact (fits_emit _).after fun _ => (hb _).before fun _ => fits_emit _
  · exact (hb _).before fun _ => fits_pure _

theorem fits_conditional : (conditional n visit).Fits τ (τ.costAll n.children) := by
  refine Fits.mono ?_ (τ.inField_add_add_le n (f := .condition) (g := .consequence)
    (k := .alternative) (by decide))
  refine .need fun test htest => (fits_emit _).after fun _ => ?_
  refine (fits_visit_part hv htest _).bind fun _ => (fits_emit _).after fun _ => ?_
  refine .need fun yes hyes => (fits_branch (fits_visit_part hv hyes)).bind fun _ => ?_
  refine (fits_emit _).after fun _ => .need fun no hno => ?_
  exact fits_branch (fits_visit_part hv hno)

theorem fits_unary (context : Context) : (unary n visit context).Fits τ (τ.costAll n.children) := by
  refine Fits.mono ?_ (τ.inField_le n .argument)
  refine .need fun argument hargument => ?_
  have hvisit := fits_visit_part hv hargument
  have hcall (function : String) :
      (phpCall visit context.place function [.source argument false]).Fits τ
        (τ.inField n .argument) :=
    (fits_phpCall hv _ _ _).mono (by simpa [Operand.sources] using Tariff.cost_part?_le hargument)
  split
  · exact hcall "gettype"
  · exact hcall "unset"
  · refine fits_ite (fun _ => (fits_emit _).mono (Nat.zero_le _)) fun _ => ?_
    exact (fits_emit _).after fun _ => (hvisit _).before fun _ => fits_emit _
  · refine (fits_emit _).after fun _ => ?_
    dsimp only
    split
    · exact (fits_emit _).after fun _ => hvisit _
    · exact hvisit _

theorem fits_update : (update n visit).Fits τ (τ.costAll n.children) := by
  refine Fits.mono ?_ (τ.inField_le n .argument)
  refine .need fun argument hargument => fits_ite (fun _ => ?_) fun _ => ?_
  · exact (fits_emit _).after fun _ => fits_visit_part hv hargument _
  · exact (fits_visit_part hv hargument _).before fun _ => fits_emit _

omit hv in
theorem fits_suspension {m : EmitM Unit} (hm : m.Fits τ B) (keyword : String) :
    (suspension n keyword m).Fits τ B :=
  (fits_note _).after fun _ => (fits_emit _).after fun _ => hm

theorem fits_yielded : (yielded n visit).Fits τ (τ.costAll n.children) := by
  refine fits_suspension ?_ _
  split
  · exact fits_visit_first hv ‹_› _
  · exact (fits_emit _).mono (Nat.zero_le _)

theorem fits_awaited : (awaited n visit).Fits τ (τ.costAll n.children) :=
  fits_suspension (.needFirst fun _ _ hp => fits_visit_first hv hp _) _

theorem fits_spread (context : Context) :
    (spread n visit context).Fits τ (τ.costAll n.children) := by
  refine fits_ite (fun _ => fits_unsupported _ _) fun _ => (fits_emit _).after fun _ => ?_
  exact .needFirst fun _ _ hp => fits_visit_first hv hp _

end Operators

end EcmaPhp.Emit
