import EcmaPhp.Proofs.Builtin.Operands
import EcmaPhp.Proofs.Tree.Complete

/-! What stands for a built-in of a complete tree can be emitted: its operands are complete parts of
the node, and its string literals have their quotes. -/
namespace EcmaPhp

namespace Node

variable {P : Location → Prop} {n c : Node}

theorem Complete.placed_callArguments (h : n.Complete P) : ∀ a ∈ n.callArguments, a.Placed P := by
  unfold callArguments
  cases harguments : n.child? .arguments with
  | none => simp
  | some args =>
    intro a ha
    exact (h.of_child? harguments).placed (h.holdsMethods_child? harguments rfl) ha

theorem Complete.placed_origin? (h : n.Complete P) (hc : n.origin? = some c) : c.Placed P := by
  unfold origin? at hc
  split at hc
  · rename_i hkind
    have hholds : n.kind.holdsMethods = false := by rw [hkind]; rfl
    cases hmember : n.calledMember? with
    | none =>
      rw [hmember] at hc
      exact h.placed_child? hholds hc
    | some member =>
      obtain ⟨hfunction, hmemberKind⟩ := Option.filter_eq_some_iff.mp hmember
      rw [hmember] at hc
      have hmemberHolds : member.kind.holdsMethods = false := by
        rw [of_decide_eq_true hmemberKind]
        rfl
      exact (h.of_child? hfunction).placed_child? hmemberHolds hc
  · rename_i hkind
    exact h.placed_child? (by rw [hkind]; rfl) hc
  · cases hc

theorem Placed.holder (h : n.Placed P) : n.holder.Placed P := by
  unfold Node.holder
  split
  · rename_i object property hkind hobject _
    split
    · exact h
    · exact h.complete.placed_child? (by rw [hkind]; rfl) hobject
  · exact h

theorem Complete.placed_operands (h : n.Complete P) : ∀ m ∈ n.operands, m.Placed P := by
  intro m hm
  unfold operands at hm
  rcases List.mem_append.mp hm with hfirst | hargument
  · rw [Option.mem_toList] at hfirst
    split at hfirst
    · obtain ⟨origin, horigin, rfl⟩ := Option.map_eq_some_iff.mp hfirst
      exact (h.placed_origin? horigin).holder
    · exact h.placed_origin? hfirst
  · split at hargument
    · exact h.placed_callArguments m hargument
    · cases hargument

end Node

variable {n : Node}

/-- A string literal that begins with a quote. -/
def Operand.Quoted : Operand n → Prop
  | .literal .string text => text ≠ ""
  | _ => True

def Replacement.operands : Replacement n → List (Operand n)
  | .call _ operands => operands
  | .constant _ => []

namespace Builtin

theorem quoted_operands (args : List (Part n)) : ∀ o ∈ operands args, o.Quoted :=
  List.forall_mem_map.mpr fun _ _ => trivial

theorem quoted_callable (target : Part n) : (callable target).Quoted := by
  unfold callable
  split
  · split <;> trivial
  · trivial

theorem quoted_indirect? {target : Part n} {method : String} {args : List (Part n)}
    {r : Replacement n} {e : Event} (h : indirect? target method args = some (r, e)) :
    ∀ o ∈ r.operands, o.Quoted := by
  have hinvoked {function : String} {rest : List (Operand n)} (hrest : ∀ o ∈ rest, o.Quoted)
      (heq : some (indirect?.invoked target function rest) = some (r, e)) :
      ∀ o ∈ r.operands, o.Quoted := by
    cases heq
    exact List.forall_mem_cons.mpr ⟨quoted_callable target, hrest⟩
  unfold indirect? at h
  dsimp only at h
  split at h
  · cases h
  split at h
  · split at h
    · exact hinvoked (by simp [Operand.Quoted]) h
    · exact hinvoked (by simp [Operand.Quoted]) h
    · cases h
  · refine hinvoked ?_ h
    exact List.forall_mem_map.mpr fun _ _ => trivial

theorem quoted_receiverLast? {method function : String} {args : List (Part n)}
    {before after : List (Operand n)}
    (h : receiverLast? method args = some (function, before, after)) :
    (∀ o ∈ before, o.Quoted) ∧ ∀ o ∈ after, o.Quoted := by
  unfold receiverLast? at h
  split at h
  · cases h
  split at h
  · cases h
  split at h
  · cases h
    simp [Operand.Quoted]
  split at h
  · split at h
    · cases h
      exact ⟨quoted_operands _, by simp⟩
    · cases h
  split at h
  · cases h
  · cases h
    refine ⟨quoted_operands args, ?_⟩
    split <;> simp [Operand.Quoted]

theorem quoted_method? {scopes : Scopes} {receiver : Part n} {method : String}
    {args : List (Part n)} {r : Replacement n} {e : Event}
    (h : method? scopes receiver method args = some (r, e)) : ∀ o ∈ r.operands, o.Quoted := by
  unfold method? at h
  dsimp only at h
  split at h
  · cases h
    exact quoted_operands args
  split at h
  · exact quoted_indirect? h
  split at h
  · cases h
  split at h
  · cases h
    exact List.forall_mem_cons.mpr ⟨trivial, quoted_operands args⟩
  · obtain ⟨⟨function, before, after⟩, hlast, heq⟩ := Option.map_eq_some_iff.mp h
    obtain ⟨hbefore, hafter⟩ := quoted_receiverLast? hlast
    cases heq
    exact List.forall_mem_append.mpr ⟨hbefore, List.forall_mem_cons.mpr ⟨trivial, hafter⟩⟩

theorem quoted_call? {scopes : Scopes} {r : Replacement n} {e : Event}
    (h : call? scopes n = some (r, e)) : ∀ o ∈ r.operands, o.Quoted := by
  unfold call? at h
  split at h
  case h_2 => cases h
  split at h
  · split at h
    · obtain ⟨function, -, heq⟩ := Option.map_eq_some_iff.mp h
      cases heq
      exact quoted_operands _
    · cases h
  · split at h
    · split at h
      · cases h
      · exact quoted_method? h
    · cases h
  · cases h

theorem quoted_member? {scopes : Scopes} {r : Replacement n} {e : Event}
    (h : member? scopes n = some (r, e)) : ∀ o ∈ r.operands, o.Quoted := by
  unfold member? at h
  dsimp only at h
  split at h
  case h_2 => cases h
  split at h
  · cases h
    simp [Replacement.operands]
  · split at h
    · cases h
      simp [Replacement.operands, Operand.Quoted]
    · cases h

theorem quoted_replacement? {scopes : Scopes} {place : Place} {r : Replacement n}
    {e : Option Event} (h : replacement? scopes place n = some (r, e)) :
    ∀ o ∈ r.operands, o.Quoted := by
  unfold replacement? at h
  split at h
  · obtain ⟨⟨r', e'⟩, hcall, heq⟩ := Option.map_eq_some_iff.mp h
    cases heq
    exact quoted_call? hcall
  · split at h
    · cases h
    · obtain ⟨⟨r', e'⟩, hmember, heq⟩ := Option.map_eq_some_iff.mp h
      cases heq
      exact quoted_member? hmember
  · obtain ⟨name, -, heq⟩ := Option.map_eq_some_iff.mp h
    cases heq
    simp [Replacement.operands]
  · cases h

end Builtin

/-- An operand that can be emitted wherever the node stands. -/
structure Operand.Placed (P : Location → Prop) (o : Operand n) : Prop where
  sources : ∀ m ∈ o.sources, m.Placed P
  quoted : o.Quoted

theorem Builtin.placed_replacement? {P : Location → Prop} {scopes : Scopes} {place : Place}
    {r : Replacement n} {e : Option Event} (hn : n.Complete P)
    (h : replacement? scopes place n = some (r, e)) : ∀ o ∈ r.operands, o.Placed P := by
  intro o ho
  refine ⟨?_, quoted_replacement? h o ho⟩
  intro m hm
  have hsource : m ∈ r.sources := by
    cases r with
    | call function operands => exact List.mem_flatMap.mpr ⟨o, ho, hm⟩
    | constant name => cases ho
  exact hn.placed_operands m ((replacement?_keepsOperands h).subset hsource)

end EcmaPhp
