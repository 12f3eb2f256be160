import EcmaPhp.Proofs.Promotion
import EcmaPhp.Proofs.Script.Texts

/-! The accessors of a class, which one function for all of a kind tells apart by their names. -/
namespace EcmaPhp
open Script EmitM Emit

/-- What stands before the body of an accessor of a name. -/
def comparison (name : String) : List Char := s!"if ($_property === '{name}') ".toList

theorem comparison_eq (name : String) :
    comparison name =
      "if ($_property === ".toList ++ ('\'' :: name.toList ++ ['\'']) ++ ") ".toList := by
  simp only [comparison, toString, String.toList_append]
  have hopen : "if ($_property === '".toList = "if ($_property === ".toList ++ ['\''] := by decide
  have hclose : "') ".toList = '\'' :: ") ".toList := by decide
  rw [hopen, hclose]
  simp

section Dispatch

variable {env : EmitEnv} {s t : EmitState} {xs : List Step} {n : Node}

theorem exists_comparison_of_accessorFunction {signature : Signature} {parts : List (Part n)}
    {p : Part n} {name : Node} (hp : p ∈ parts) (hname : p.node.child? .name = some name)
    (hr : Runs env (accessorFunction (fun p c => emitNode p.node c) signature parts) s () t xs) :
    ∃ u, .action (.edit (.text (comparison name.publicName))) u ∈ xs := by
  obtain ⟨q, hq, rfl⟩ := Option.map_eq_some_iff.mp ((Part.map_node_part? p .name).trans hname)
  unfold accessorFunction at hr
  split at hr
  · cases hp
  · obtain ⟨_, hrest, rfl⟩ := hr.of_act_bind
    obtain ⟨_, u, _, _, hfunction, -, rfl⟩ := hrest.of_bind
    cases hfunction with
    | function hparams hbody hend =>
      obtain ⟨before, after, rfl⟩ := List.append_of_mem hp
      obtain ⟨v, w, _, _, _, -, hstep, -, rfl⟩ := hbody.of_forM
      obtain ⟨_, hnamed, rfl⟩ := hstep.of_act_bind
      rw [needOf_eq hq] at hnamed
      obtain ⟨_, -, rfl⟩ := Runs.of_act_bind hnamed
      exact ⟨Action.apply (.edit .newline) v, by simp [comparison]⟩

/-- A class tells all its accessors apart. -/
theorem exists_comparison {a name : Node} {accessor : Accessor}
    (hr : Runs env (emitNode n {}) s () t xs) (hkind : n.kind = .classBody) (ha : a ∈ n.children)
    (haccessor : a.accessor? = some accessor) (hname : a.child? .name = some name) :
    ∃ u, .action (.edit (.text (comparison name.publicName))) u ∈ xs := by
  obtain ⟨_, _, ys, hrule, -, hsub⟩ := hr.of_emitNode (by rw [hkind]; rfl)
  obtain ⟨_, _, _, _, -, hunsourced, rfl⟩ := hrule.of_bind
  obtain ⟨_, _, hfunctions, -, rfl⟩ := hunsourced.of_within
  obtain ⟨_, _, _, _, hgetters, hsetters, rfl⟩ := hfunctions.of_bind
  rw [← n.map_node_parts] at ha
  obtain ⟨p, hp, rfl⟩ := List.mem_map.mp ha
  have hmem : p ∈ accessors n accessor := List.mem_filter.mpr ⟨hp, by simp [haccessor]⟩
  cases accessor with
  | getter =>
    obtain ⟨u, hu⟩ := exists_comparison_of_accessorFunction hmem hname hgetters
    exact ⟨u, hsub (by simp [hu])⟩
  | setter =>
    obtain ⟨u, hu⟩ := exists_comparison_of_accessorFunction hmem hname hsetters
    exact ⟨u, hsub (by simp [hu])⟩

end Dispatch
end EcmaPhp
