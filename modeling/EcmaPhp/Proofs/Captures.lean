import EcmaPhp.Proofs.References
import EcmaPhp.Proofs.Script.Scopes
import EcmaPhp.Proofs.Splices

/-! What a function reads from the scopes around it is listed in its header. -/
namespace EcmaPhp
open Script

namespace Step

/-- Text that ends in the given one. -/
def Writes (cs : List Char) : Step → Prop
  | .action (.edit (.text ds)) _ => cs <:+ ds
  | _ => False

instance (cs : List Char) (x : Step) : Decidable (x.Writes cs) := by
  unfold Writes
  split <;> infer_instance

/-- The emission of a node for a name that writes the variable of that name. -/
def EmitsVariable (env : EmitEnv) (name : String) : Step → Prop
  | .frame (.node n wrapped) body s =>
    n.isName = true ∧ n.text = name ∧
      ∃ x ∈ body.steps env ((Frame.node n wrapped).enter s), x.Writes ('$' :: name.toList)
  | _ => False

instance (env : EmitEnv) (name : String) (x : Step) : Decidable (x.EmitsVariable env name) := by
  unfold EmitsVariable
  split <;> infer_instance

/-- The scopes around a step. -/
def scopes : Step → Scopes
  | .action _ s | .separation s | .frame _ _ s => s.scopes
  | .function r => r.stop.scopes

end Step

/-- The functions of a run. -/
def functionRuns (xs : List Step) : List FunctionRun :=
  xs.filterMap fun
    | .function r => some r
    | _ => none

theorem mem_functionRuns {xs : List Step} {r : FunctionRun} :
    r ∈ functionRuns xs ↔ .function r ∈ xs := by
  rw [functionRuns, List.mem_filterMap]
  constructor
  · rintro ⟨x, hx, heq⟩
    split at heq
    · cases heq
      exact hx
    · cases heq
  · exact fun hr => ⟨_, hr, rfl⟩

/-- Whether a name is bound, and to a variable in the innermost scope that binds it. -/
def Scopes.bindsVariable (scopes : Scopes) (name : String) : Bool :=
  (scopes.lookup? name).any (·.kind.bindsVariable)

namespace FunctionRun

variable (env : EmitEnv) (r : FunctionRun)

/-- The steps of the parameters and the body. -/
def steps : List Step := r.params.steps env (r.start.enterScope .function) ++ r.inner env

/-- The scopes that were opened within the function. -/
def inside (scopes : Scopes) : Scopes := scopes.take (scopes.length - (r.start.scopes.length + 1))

end FunctionRun

namespace Script

variable {env : EmitEnv} {h : Bool} {α : Type} {m : Script h α} {s t u : EmitState} {a : α}
  {xs : List Step}

/-- The scope of a function and those around it, at any action of the function. -/
theorem Runs.around_function {r : FunctionRun} {x : Action} (hr : Runs env m s a t xs)
    (hmem : .function r ∈ xs) (hx : .action x u ∈ r.steps env) :
    Around (r.start.enterScope .function) r.stop x u := by
  obtain ⟨ys, zs, hparams, hbody, -⟩ := hr.of_mem_function hmem (List.Subset.refl xs)
  rw [FunctionRun.steps, FunctionRun.inner, hparams.run_eq.2, hbody.run_eq.2, List.mem_append] at hx
  rcases hx with hx | hx
  · exact (hparams.around hx).evolves (.refl _) hbody.evolves
  · exact (hbody.around hx).evolves hparams.evolves (.refl _)

/-- A name that a function emits as a variable is referred to in the same scopes. -/
theorem Runs.exists_refer {r : FunctionRun} {x : Step} {name : String} (hr : Runs env m s a t xs)
    (hm : m.Referring) (hmem : .function r ∈ xs) (hx : x ∈ r.steps env)
    (hemits : x.EmitsVariable env name) :
    ∃ n v, .action (.refer n) v ∈ r.steps env ∧ n.isName = true ∧ n.text = name ∧
      v.scopes = x.scopes := by
  obtain ⟨ys, zs, hparams, hbody, hsub⟩ := hr.of_mem_function hmem (List.Subset.refl xs)
  have hsteps : r.steps env = ys ++ zs := by
    rw [FunctionRun.steps, FunctionRun.inner, hparams.run_eq.2, hbody.run_eq.2]
  rw [hsteps] at hx ⊢
  unfold Step.EmitsVariable at hemits
  split at hemits
  · rename_i n wrapped body u
    obtain ⟨hname, rfl, y, hy, hwrites⟩ := hemits
    have hframe :
        ∃ b v ws, Runs env body ((Frame.node n wrapped).enter u) b v ws ∧ ws ⊆ ys ++ zs := by
      rcases List.mem_append.mp hx with hx | hx
      · exact hparams.of_mem_frame hx (List.subset_append_left ys zs)
      · exact hbody.of_mem_frame hx (List.subset_append_right ys zs)
    obtain ⟨b, v, ws, hrun, hws⟩ := hframe
    rw [hrun.run_eq.2] at hy
    unfold Step.Writes at hwrites
    split at hwrites
    · have hfirst : body.RefersFirst n := hm.of_mem_frame hr (hsub hx) hname
      obtain ⟨w, hw, hscopes⟩ := hfirst.exists_refer hrun hy hwrites
      exact ⟨n, w, hws hw, hname, rfl, hscopes⟩
    · cases hwrites
  · cases hemits

end Script

/-- The innermost scope at the end of a run in it. -/
theorem grows_innermost {s : EmitState} {own : Scope} {outer : Scopes}
    (h : Scopes.Evolves (own :: outer) s.scopes) : own.Grows s.innermost := by
  have hgrows := h.grows
  rw [EmitState.innermost]
  cases hs : s.scopes with
  | nil => simp [hs] at hgrows
  | cons own' outer' =>
    rw [hs] at hgrows
    cases hgrows with
    | cons hown _ => exact hown

namespace FunctionRun

variable {env : EmitEnv} {r : FunctionRun} {name : String}

/-- A reference to a name that is free in a function and bound around it is among the captures of
the function. -/
theorem mem_captures_of_refer {n : Node} {u : EmitState}
    (haround : Around (r.start.enterScope .function) r.stop (.refer n) u) (hname : n.isName = true)
    (hinside : ∀ s ∈ r.inside u.scopes, s.defines n.text = false)
    (hown : r.stop.innermost.defines n.text = false)
    (hbound : r.start.scopes.bindsVariable n.text = true) : n.text ∈ r.stop.captures := by
  obtain ⟨k, hbefore, hafter⟩ := haround
  have hlength : (u.scopes.drop k).length = r.start.scopes.length + 1 := hbefore.length_eq
  have hk : u.scopes.length - (r.start.scopes.length + 1) = k := by
    rw [List.length_drop] at hlength
    omega
  rw [inside, hk] at hinside
  have hstays := ((Scopes.Evolves.refer u.scopes n).drop k).trans hafter
  cases hdrop : u.scopes.drop k with
  | nil => simp [hdrop] at hlength
  | cons own outer =>
    rw [hdrop] at hbefore hstays
    have hscopes : u.scopes = u.scopes.take k ++ own :: outer := by
      rw [← hdrop, List.take_append_drop]
    -- The function's own scope does not bind the name so far, as it does not bind it at the end.
    have hfree : own.defines n.text = false := by
      by_contra hdef
      rw [Bool.not_eq_false] at hdef
      rw [(grows_innermost hstays).defines hdef] at hown
      cases hown
    obtain ⟨d, hd, hvar⟩ := (Option.any_eq_true _ _).mp hbound
    have houter : Scopes.lookup? outer n.text = r.start.scopes.lookup? n.text :=
      Scopes.lookup?_eq_of_definitions _ hbefore.outer
    have hlookup : u.scopes.lookup? n.text = some d := by
      have hskip : ∀ s ∈ u.scopes.take k ++ [own], s.defines n.text = false := by
        simpa [or_imp, forall_and, hfree] using hinside
      rw [hscopes, List.append_cons, Scopes.lookup?_append_of_not_defines hskip, houter, hd]
    have hrefer : u.scopes.refer n = u.scopes.capture n.text := by
      rw [Scopes.refer, Scopes.captured?_eq_some (Node.bindingKey?_of_isName hname) hlookup hvar]
    have huses : ∃ outer', (u.scopes.refer n).drop k = own.use n.text :: outer' := by
      obtain ⟨outer', hcapture⟩ := Scopes.drop_capture outer hinside hfree
      have htake : (u.scopes.take k).length = k := by
        rw [List.length_take]
        omega
      rw [← hscopes, htake] at hcapture
      exact ⟨outer', hrefer ▸ hcapture⟩
    obtain ⟨outer', huses⟩ := huses
    have hgrows : (own.use n.text).Grows r.stop.innermost :=
      grows_innermost (huses ▸ hafter : Scopes.Evolves (own.use n.text :: outer') r.stop.scopes)
    exact Scope.mem_captures.mpr ⟨hgrows.uses.subset (own.mem_uses_use n.text), hown⟩

theorem infix_intercalate {l : List Char} {ls : List (List Char)} (sep : List Char) (h : l ∈ ls) :
    l <:+: sep.intercalate ls := by
  induction ls with
  | nil => cases h
  | cons first rest ih =>
    cases rest with
    | nil => simp_all
    | cons second rest' =>
      rw [List.intercalate_cons_cons]
      rcases List.mem_cons.mp h with rfl | h
      · exact ⟨[], _, by simp; rfl⟩
      · exact (ih h).trans (List.suffix_append _ _).isInfix

/-- What is captured is listed. -/
theorem listing_infix (hmem : name ∈ r.stop.captures) :
    (r.shape.form.listing name).toList <:+: r.clause ++ r.statements := by
  rw [clause, statements]
  generalize r.stop.captures = names at hmem
  cases r.shape.form with
  | closure =>
    have hclause : FunctionForm.closure.clause names =
        ("use (" ++ ", ".intercalate (names.map FunctionForm.closure.listing) ++ ") ").toList := by
      cases names with
      | nil => cases hmem
      | cons first rest => rfl
    have hmem : (FunctionForm.closure.listing name).toList ∈
        (names.map FunctionForm.closure.listing).map String.toList :=
      List.mem_map_of_mem (List.mem_map_of_mem hmem)
    rw [hclause, FunctionForm.statements, List.append_nil, String.toList_append,
      String.toList_append, String.toList_intercalate]
    exact (infix_intercalate _ hmem).trans (List.infix_append _ _ _)
  | global =>
    obtain ⟨front, back, rfl⟩ := List.append_of_mem hmem
    simp only [FunctionForm.clause, FunctionForm.statements, List.nil_append, List.flatMap_append,
      List.flatMap_cons, List.append_assoc]
    rw [← List.append_assoc, ← List.append_assoc]
    exact List.infix_append _ _ _

end FunctionRun

/-- A declaration of a variable at the level of the program. -/
def Step.DeclaresGlobal (name : String) : Step → Prop
  | .action (.register d) s =>
    d.kind = .variableDeclarator ∧ name ∈ d.bindings.map (·.1) ∧ s.scopes.map (·.kind) = [.program]
  | _ => False

instance (name : String) (x : Step) : Decidable (x.DeclaresGlobal name) := by
  unfold Step.DeclaresGlobal
  split <;> infer_instance

open Concrete in
/-- A function that reads a variable, and after it the variable. -/
def laterTree : Concrete :=
  branch "program" 0 37 none
    [branch "function_declaration" 0 26 none
      [token "function" 0 8, branch "identifier" 9 10 (some "name") [],
        branch "formal_parameters" 10 12 (some "parameters") [token "(" 10 11, token ")" 11 12],
        branch "statement_block" 13 26 (some "body")
          [token "\x7b" 13 14,
            branch "return_statement" 15 24 none
              [token "return" 15 21, branch "identifier" 22 23 none [], token ";" 23 24],
            token "\x7d" 25 26]],
      branch "variable_declaration" 27 37 none
        [token "var" 27 30,
          branch "variable_declarator" 31 36 none
            [branch "identifier" 31 32 (some "name") [], token "=" 33 34,
              branch "number" 35 36 (some "value") []],
          token ";" 36 37]]

def laterSource : String := "function f() \x7b return x; \x7d\nvar x = 1;"

end EcmaPhp
