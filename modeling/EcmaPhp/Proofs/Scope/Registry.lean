import EcmaPhp.Proofs.Scope.Closed
import Mathlib.Data.Fin.Basic
import Mathlib.Data.List.Induction
import Mathlib.Logic.Function.Basic

/-! All the scopes that were ever entered, those that have been left included. Whatever happens to
the scopes of a program, each of them stays closed in the scopes around it. -/
namespace EcmaPhp

/-- What can happen to the scopes of a program. -/
inductive ScopeStep where
  | enter (kind : ScopeKind)
  | leave
  | register (n : Node)
  /-- The definition of a name is sought; the name is captured, or only looked at. -/
  | resolve (n : Node) (captured : Bool)

def ScopeStep.isEnter : ScopeStep → Bool
  | .enter _ => true
  | _ => false

/-- The step on the scopes around the current place. -/
def ScopeStep.apply : ScopeStep → Scopes → Scopes
  | .enter kind, scopes => scopes.enter kind
  | .leave, scopes => scopes.drop 1
  | .register n, scopes => scopes.register n
  | .resolve n captured, scopes => if captured then scopes.refer n else scopes

/-- Every scope that was ever entered, under a number of its own. A scope is younger than the one
around it. -/
structure Registry where
  size : Nat := 0
  scope : Nat → Scope := fun _ => { kind := .program }
  parent : (i : Nat) → Option (Fin i) := fun _ => none
  current : Option (Fin size) := none

namespace Registry

/-- The scopes around a scope, the innermost first. -/
def ancestors (parent : (i : Nat) → Option (Fin i)) (i : Nat) : List Nat :=
  match parent i with
  | none => []
  | some p => p :: ancestors parent p
termination_by i
decreasing_by exact p.isLt

def outer (r : Registry) (i : Nat) : List Nat := ancestors r.parent i

/-- The scopes around the current place, the innermost first. -/
def path (r : Registry) : List Nat := r.current.elim [] fun i => i :: r.outer i

def chain (r : Registry) : Scopes := r.path.map r.scope

/-- Gives new values to the numbered scopes. -/
def assign (scope : Nat → Scope) : List Nat → Scopes → Nat → Scope
  | i :: rest, s :: scopes => Function.update (assign scope rest scopes) i s
  | _, _ => scope

def write (r : Registry) (scopes : Scopes) : Registry :=
  { r with scope := assign r.scope r.path scopes }

def step (r : Registry) : ScopeStep → Registry
  | .enter kind =>
    { size := r.size + 1
      scope := Function.update r.scope r.size { kind }
      parent := Function.update r.parent r.size r.current
      current := some (Fin.last r.size) }
  | .leave =>
    { r with current := r.current.bind fun i => (r.parent i).map (Fin.castLE i.isLt.le) }
  | .register n => r.write (r.chain.register n)
  | .resolve n captured => if captured then r.write (r.chain.refer n) else r

def run (steps : List ScopeStep) : Registry := steps.foldl step {}

section Ancestors

variable {parent : (i : Nat) → Option (Fin i)}

theorem ancestors_of_parent {i : Nat} {p : Fin i} (h : parent i = some p) :
    ancestors parent i = p.val :: ancestors parent p := by
  rw [ancestors, h]

theorem lt_of_mem_ancestors {i j : Nat} (h : j ∈ ancestors parent i) : j < i := by
  induction i using Nat.strongRecOn with
  | _ i ih =>
    unfold ancestors at h
    split at h
    · cases h
    · rename_i p _
      rcases List.mem_cons.mp h with rfl | hrest
      · exact p.isLt
      · exact (ih p p.isLt hrest).trans p.isLt

theorem nodup_cons_ancestors (i : Nat) : (i :: ancestors parent i).Nodup := by
  induction i using Nat.strongRecOn with
  | _ i ih =>
    refine List.nodup_cons.mpr ⟨fun hmem => Nat.lt_irrefl i (lt_of_mem_ancestors hmem), ?_⟩
    unfold ancestors
    split
    · exact List.nodup_nil
    · rename_i p _
      exact ih p p.isLt

/-- The scopes around an old scope stay the same when a new one is entered. -/
theorem ancestors_update {size i : Nat} (current : Option (Fin size)) (h : i < size) :
    ancestors (Function.update parent size current) i = ancestors parent i := by
  induction i using Nat.strongRecOn with
  | _ i ih =>
    have hparent : Function.update parent size current i = parent i :=
      Function.update_of_ne h.ne current parent
    rw [ancestors, ancestors, hparent]
    split
    · rfl
    · rename_i p _
      rw [ih p p.isLt (p.isLt.trans h)]

end Ancestors

section Assign

variable {scope : Nat → Scope}

theorem assign_of_not_mem {path : List Nat} {i : Nat} (scopes : Scopes) (h : i ∉ path) :
    assign scope path scopes i = scope i := by
  induction path generalizing scopes with
  | nil => rfl
  | cons j rest ih =>
    cases scopes with
    | nil => rfl
    | cons s scopes =>
      obtain ⟨hj, hrest⟩ := not_or.mp (mt List.mem_cons.mpr h)
      rw [assign, Function.update_of_ne hj, ih scopes hrest]

theorem map_assign {path : List Nat} {scopes : Scopes} (hnodup : path.Nodup)
    (hlength : scopes.length = path.length) : path.map (assign scope path scopes) = scopes := by
  induction path generalizing scopes with
  | nil => exact (List.length_eq_zero_iff.mp hlength).symm
  | cons j rest ih =>
    cases scopes with
    | nil => cases hlength
    | cons s scopes =>
      obtain ⟨hj, hrest⟩ := List.nodup_cons.mp hnodup
      have htail : rest.map (assign scope (j :: rest) (s :: scopes)) =
          rest.map (assign scope rest scopes) := by
        apply List.map_congr_left
        intro i hi
        have hij : i ≠ j := fun hij => hj (hij ▸ hi)
        exact Function.update_of_ne hij ..
      rw [List.map_cons, htail, ih hrest (Nat.succ.inj hlength), assign, Function.update_self]

theorem grows_assign {path : List Nat} {scopes : Scopes}
    (h : List.Forall₂ Scope.Grows (path.map scope) scopes) (i : Nat) :
    Scope.Grows (scope i) (assign scope path scopes i) := by
  induction path generalizing scopes with
  | nil => exact .refl _
  | cons j rest ih =>
    cases h with
    | cons hs hrest =>
      rw [assign]
      by_cases hij : i = j
      · rw [hij, Function.update_self]
        exact hs
      · rw [Function.update_of_ne hij]
        exact ih hrest

end Assign

theorem outer_of_parent_eq_none {r : Registry} {i : Nat} (h : r.parent i = none) :
    r.outer i = [] := by
  rw [outer, ancestors, h]

theorem outer_of_parent_eq_some {r : Registry} {i : Nat} {p : Fin i} (h : r.parent i = some p) :
    r.outer i = p.val :: r.outer p :=
  ancestors_of_parent h

theorem path_write (r : Registry) (scopes : Scopes) : (r.write scopes).path = r.path := rfl

theorem nodup_path (r : Registry) : r.path.Nodup := by
  unfold path
  cases r.current with
  | none => exact List.nodup_nil
  | some i => exact nodup_cons_ancestors i.val

/-- The scopes around the current place hold what was written to them. -/
theorem chain_write (r : Registry) {scopes : Scopes} (h : scopes.length = r.chain.length) :
    (r.write scopes).chain = scopes := by
  have hlength : scopes.length = r.path.length := by rw [h, chain, List.length_map]
  rw [chain, path_write]
  exact map_assign r.nodup_path hlength

theorem outer_step_enter (r : Registry) (kind : ScopeKind) {i : Nat} (h : i < r.size) :
    (r.step (.enter kind)).outer i = r.outer i :=
  ancestors_update r.current h

/-- A new scope stands within those around the current place. -/
theorem outer_step_enter_size (r : Registry) (kind : ScopeKind) :
    (r.step (.enter kind)).outer r.size = r.path := by
  have hparent : (r.step (.enter kind)).parent r.size = r.current := Function.update_self ..
  unfold path
  cases hcurrent : r.current with
  | none => exact outer_of_parent_eq_none (hparent.trans hcurrent)
  | some i =>
    rw [outer_of_parent_eq_some (hparent.trans hcurrent)]
    exact congrArg (i.val :: ·) (r.outer_step_enter kind i.isLt)

theorem map_scope_step_enter (r : Registry) (kind : ScopeKind) {numbers : List Nat}
    (h : ∀ i ∈ numbers, i < r.size) :
    numbers.map (r.step (.enter kind)).scope = numbers.map r.scope := by
  apply List.map_congr_left
  intro i hi
  exact Function.update_of_ne (h i hi).ne _ _

theorem lt_size_of_mem_path {r : Registry} {i : Nat} (h : i ∈ r.path) : i < r.size := by
  unfold path at h
  cases hcurrent : r.current with
  | none =>
    rw [hcurrent] at h
    cases h
  | some j =>
    rw [hcurrent] at h
    rcases List.mem_cons.mp h with rfl | hmem
    · exact j.isLt
    · exact (lt_of_mem_ancestors hmem).trans j.isLt

theorem chain_step_enter (r : Registry) (kind : ScopeKind) :
    (r.step (.enter kind)).chain = r.chain.enter kind := by
  have hpath : (r.step (.enter kind)).path = r.size :: r.path :=
    congrArg (r.size :: ·) (r.outer_step_enter_size kind)
  have hscope : (r.step (.enter kind)).scope r.size = { kind } := Function.update_self ..
  rw [chain, hpath, List.map_cons, hscope, r.map_scope_step_enter kind fun _ => lt_size_of_mem_path]
  rfl

theorem path_step_leave (r : Registry) : (r.step .leave).path = r.path.drop 1 := by
  unfold path
  cases hcurrent : r.current with
  | none => simp [step, hcurrent]
  | some i =>
    cases hparent : r.parent i with
    | none => simp [step, hcurrent, hparent, outer_of_parent_eq_none hparent]
    | some p =>
      simp [step, hcurrent, hparent, outer_of_parent_eq_some hparent]
      rfl

/-- The registry follows the chain of scopes. -/
theorem chain_step (r : Registry) (s : ScopeStep) : (r.step s).chain = s.apply r.chain := by
  cases s with
  | enter kind => exact r.chain_step_enter kind
  | leave =>
    have hpath := r.path_step_leave
    rw [chain, hpath, List.map_drop]
    rfl
  | register n => exact r.chain_write (Scopes.Evolves.register r.chain n).length_eq
  | resolve n captured =>
    unfold step ScopeStep.apply
    cases captured with
    | false => rfl
    | true => exact r.chain_write (Scopes.Evolves.refer r.chain n).length_eq

/-- Every scope ever entered is closed in the scopes around it. -/
def Closed (r : Registry) : Prop :=
  ∀ i < r.size, (r.scope i).ClosedIn ((r.outer i).map r.scope)

/-- A chain of numbered scopes is closed if each of its scopes is. -/
theorem closed_map_iff (r : Registry) (i : Nat) :
    Scopes.Closed ((i :: r.outer i).map r.scope) ↔
      ∀ j ∈ i :: r.outer i, (r.scope j).ClosedIn ((r.outer j).map r.scope) := by
  induction i using Nat.strongRecOn with
  | _ i ih =>
    rw [List.map_cons, Scopes.Closed, List.forall_mem_cons]
    apply and_congr_right
    intro _
    cases hparent : r.parent i with
    | none =>
      simp [outer_of_parent_eq_none hparent, Scopes.Closed]
    | some p =>
      rw [outer_of_parent_eq_some hparent]
      exact ih p p.isLt

theorem closed_chain_iff (r : Registry) :
    r.chain.Closed ↔ ∀ i ∈ r.path, (r.scope i).ClosedIn ((r.outer i).map r.scope) := by
  unfold chain path
  cases r.current with
  | none => simp [Scopes.Closed]
  | some i => exact r.closed_map_iff i

/-- Scopes that are no longer around the current place stay closed while those around them grow. -/
theorem Closed.write {r : Registry} {scopes : Scopes} (h : r.Closed)
    (hgrows : List.Forall₂ Scope.Grows r.chain scopes) (hclosed : scopes.Closed) :
    (r.write scopes).Closed := by
  intro i hi
  -- around the current place the new chain says it all; elsewhere only the outer scopes can change
  by_cases hmem : i ∈ r.path
  · rw [← r.chain_write hgrows.length_eq.symm] at hclosed
    exact (closed_chain_iff _).mp hclosed i hmem
  · have hscope : (r.write scopes).scope i = r.scope i := assign_of_not_mem scopes hmem
    rw [hscope]
    apply (h i hi).mono ?_ rfl
    apply List.forall₂_map_left_iff.mpr
    apply List.forall₂_map_right_iff.mpr
    apply List.forall₂_same.mpr
    intro j _
    exact grows_assign hgrows j

theorem Closed.chain {r : Registry} (h : r.Closed) : r.chain.Closed :=
  r.closed_chain_iff.mpr fun i hi => h i (lt_size_of_mem_path hi)

theorem Closed.step {r : Registry} (h : r.Closed) (s : ScopeStep) : (r.step s).Closed := by
  cases s with
  | enter kind =>
    intro i hi
    rcases Nat.lt_succ_iff_lt_or_eq.mp hi with hold | rfl
    · have hlt : ∀ j ∈ r.outer i, j < r.size := fun j hj => (lt_of_mem_ancestors hj).trans hold
      have hscope : (r.step (.enter kind)).scope i = r.scope i := Function.update_of_ne hold.ne ..
      rw [r.outer_step_enter kind hold, r.map_scope_step_enter kind hlt, hscope]
      exact h i hold
    · have hscope : (r.step (.enter kind)).scope r.size = { kind } := Function.update_self ..
      rw [hscope]
      exact Scope.closedIn_of_uses_eq_nil rfl
  | leave => exact h
  | register n => exact h.write (Scopes.Evolves.register _ n).grows (h.chain.register n)
  | resolve n captured =>
    unfold Registry.step
    cases captured with
    | false => exact h
    | true => exact h.write (Scopes.Evolves.refer _ n).grows (h.chain.refer n)

theorem run_concat (steps : List ScopeStep) (s : ScopeStep) :
    run (steps ++ [s]) = (run steps).step s := by
  simp [run]

theorem closed_run (steps : List ScopeStep) : (run steps).Closed := by
  induction steps using List.reverseRec with
  | nil => exact fun i hi => absurd hi (Nat.not_lt_zero i)
  | append_singleton steps s ih =>
    rw [run_concat]
    exact ih.step s

theorem chain_run (steps : List ScopeStep) :
    (run steps).chain = steps.foldl (fun scopes s => s.apply scopes) [] := by
  induction steps using List.reverseRec with
  | nil => rfl
  | append_singleton steps s ih => rw [run_concat, chain_step, ih, List.foldl_concat]

/-- Entering is what makes new scopes, and none is ever lost. -/
theorem size_run (steps : List ScopeStep) : (run steps).size = steps.countP (·.isEnter) := by
  induction steps using List.reverseRec with
  | nil => rfl
  | append_singleton steps s ih =>
    have hstep : ((run steps).step s).size = (run steps).size + [s].countP (·.isEnter) := by
      cases s with
      | resolve n captured => cases captured <;> rfl
      | _ => rfl
    rw [run_concat, hstep, ih, List.countP_append]

/-- A name that a scope reads is provided by the scope around it. -/
theorem Closed.parent_provides {r : Registry} (h : r.Closed) {i : Nat} (hi : i < r.size)
    {name : String} (hname : name ∈ (r.scope i).uses) :
    ∃ p, r.parent i = some p ∧ (r.scope p).Provides name := by
  obtain ⟨next, hnext, hprovides⟩ := (h i hi).passed name hname
  cases hparent : r.parent i with
  | none =>
    rw [outer_of_parent_eq_none hparent] at hnext
    cases hnext
  | some p =>
    rw [outer_of_parent_eq_some hparent] at hnext
    obtain rfl := Option.some.inj hnext
    exact ⟨p, rfl, hprovides⟩

theorem Closed.exists_outer_bindsVariable {r : Registry} (h : r.Closed) {i : Nat} (hi : i < r.size)
    {name : String} (hname : name ∈ (r.scope i).uses) :
    ∃ a ∈ r.outer i, (r.scope a).BindsVariable name := by
  obtain ⟨s, hs, hbinds⟩ := (h i hi).bound name hname
  obtain ⟨a, ha, rfl⟩ := List.mem_map.mp hs
  exact ⟨a, ha, hbinds⟩

end Registry

/-- Whatever happens to the scopes of a program, in any scope that was ever entered: a name is noted
once; the scope around provides each noted name, and one further out binds it as a variable. So the
captures of a scope are names that it does not define itself and that the scope around defines or
captures too. -/
theorem Registry.captures_come_down (steps : List ScopeStep) :
    let r := Registry.run steps
    r.chain = steps.foldl (fun scopes s => s.apply scopes) [] ∧
      r.size = steps.countP (·.isEnter) ∧
      ∀ i < r.size,
        (r.scope i).uses.Nodup ∧
        (∀ name ∈ (r.scope i).uses,
          (∃ p, r.parent i = some p ∧
            ((r.scope p).defines name = true ∨ name ∈ (r.scope p).uses)) ∧
          ∃ a ∈ r.outer i, ∃ d,
            (r.scope a).definition? name = some d ∧ d.kind.bindsVariable = true) ∧
        (r.scope i).captures.Nodup ∧
        ∀ name ∈ (r.scope i).captures,
          (r.scope i).defines name = false ∧
          ∃ p, r.parent i = some p ∧
            ((r.scope p).defines name = true ∨ name ∈ (r.scope p).captures) := by
  intro r
  have hclosed : r.Closed := Registry.closed_run steps
  refine ⟨Registry.chain_run steps, Registry.size_run steps, ?_⟩
  intro i hi
  have hnodup := (hclosed i hi).nodup
  refine ⟨hnodup, ?_, hnodup.filter _, ?_⟩
  · intro name hname
    exact ⟨hclosed.parent_provides hi hname, hclosed.exists_outer_bindsVariable hi hname⟩
  · intro name hname
    obtain ⟨huses, hdef⟩ := Scope.mem_captures.mp hname
    obtain ⟨p, hp, hprovides⟩ := hclosed.parent_provides hi huses
    exact ⟨hdef, p, hp, hprovides.defines_or_mem_captures⟩

/-- A function reads an outer variable through the function around it, which declares the same name
for a function afterwards, when the reader has been left. -/
def lateDeclaration : List ScopeStep :=
  let name : Node := { kind := .identifier, field := some .name, text := "x" }
  [.enter .program, .register { kind := .variableDeclarator, children := [name] },
    .enter .function, .enter .function, .resolve name true, .leave,
    .register { kind := .functionDeclaration, children := [name] }, .leave]

theorem Registry.captures_come_down_late :
    let r := Registry.run lateDeclaration
    2 < r.size ∧ "x" ∈ (r.scope 2).captures ∧
      (∃ p, r.parent 2 = some p ∧
        ((r.scope p).defines "x" = true ∨ "x" ∈ (r.scope p).captures)) ∧
      ∃ a ∈ r.outer 2, ∃ d,
        (r.scope a).definition? "x" = some d ∧ d.kind.bindsVariable = true := by
  intro r
  have hi : 2 < r.size := by decide
  have hname : "x" ∈ (r.scope 2).captures := by decide +kernel
  obtain ⟨-, -, hall⟩ := Registry.captures_come_down lateDeclaration
  obtain ⟨-, huses, -, hcaptures⟩ := hall 2 hi
  exact ⟨hi, hname, (hcaptures "x" hname).2, (huses "x" (Scope.mem_captures.mp hname).1).2⟩

end EcmaPhp
