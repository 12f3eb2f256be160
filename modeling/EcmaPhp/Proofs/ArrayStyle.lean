import EcmaPhp.Proofs.Budget.Statement
import EcmaPhp.Proofs.Splices

/-! The style of arrays changes their delimiters only: both styles give renderings of the same
pieces. -/
namespace EcmaPhp
open Script Piece

namespace Tariff

/-- Only separations are charged. -/
def ofSeparations : Tariff := ⟨0, fun _ => 0, 1, 0⟩

theorem cost_ofSeparations (n : Node) :
    ofSeparations.cost n = (n.preorder.map Node.separations).sum := by
  rw [cost_eq_sum rfl]
  congr 1
  refine List.map_congr_left fun m _ => ?_
  simp [own, extra, comments, ofSeparations]

end Tariff

/-- A tree in which the head of no loop declares two variables needs no separation. -/
theorem not_isSeparation {root : Node} (h : ∀ n ∈ root.preorder, n.separations = 0)
    (env : EmitEnv) : ∀ x ∈ (emitProgram root).steps env {}, ¬ x.IsSeparation := by
  intro x hx hseparation
  have hdistinct : EmitState.Distinct {} := fun scope hscope => by cases hscope
  have htotal : Step.total .ofSeparations ((emitProgram root).steps env {}) ≤ _ :=
    (fits_emitProgram .ofSeparations root).costs.total_le hdistinct
  have hzero : (root.preorder.map Node.separations).sum = 0 :=
    List.sum_eq_zero fun k hk => by
      obtain ⟨n, hn, rfl⟩ := List.mem_map.mp hk
      exact h n hn
  rw [Tariff.cost_ofSeparations, hzero] at htotal
  have hcharge : x.charge .ofSeparations = 1 := by
    cases x with
    | separation s => rfl
    | _ => cases hseparation
  have hle := List.single_le_sum (fun _ _ => Nat.zero_le _) _
    (List.mem_map_of_mem (f := Step.charge .ofSeparations) hx)
  unfold Step.total at htotal
  omega

/-- The empty output in both styles. -/
def Sketch.empty : Sketch where
  held := []
  points := []
  line := 1
  offset := 0
  indent := 0
  written := []
  bounded := by simp
  sorted := by simp

/-- Two results that fail alike, or are the two renderings of the same pieces. -/
def RenderAlike (concise long : Except Failure String) : Prop :=
  match concise, long with
  | .ok text, .ok text' =>
    ∃ ps : List Piece, text.toList = render true ps ∧ text'.toList = render false ps
  | .error failure, .error failure' => failure = failure'
  | _, _ => False

theorem emitTree_renderAlike (options : Options) (tokens : TokenIndex) {root : Node}
    (h : ∀ n ∈ root.preorder, n.separations = 0) :
    RenderAlike (emitTree (options.withArrays true) tokens root).result
      (emitTree (options.withArrays false) tokens root).result := by
  have hstart : EmitState.Mirrors true false {} {} := ⟨⟨.empty, rfl, rfl⟩, rfl, rfl, rfl⟩
  have hmirrors := ((fits_emitProgram .ofSeparations root).alike true false).mirrors hstart
    (not_isSeparation h ⟨options.withArrays true, tokens⟩)
  unfold emitTree
  rcases hmirrors.ok_or_error with ⟨_, t, t', hrun, hrun', ht⟩ | ⟨failure, t, t', hrun, hrun', -⟩
  · obtain ⟨d, hd, hd'⟩ := ht.output
    rw [hrun, hrun']
    refine ⟨d.text, ?_, ?_⟩
    · rw [String.toList_ofList, hd, d.text_output]
    · rw [String.toList_ofList, hd', d.text_output]
  · rw [hrun, hrun']
    exact rfl

/-- Programs in whose loops no head declares two variables differ in the delimiters of arrays only:
with either style the same failure, or the renderings of the same pieces. -/
theorem toPhp_renderAlike (options : Options) (source : String) (tree : Concrete)
    (h : ∀ n ∈ (Node.ofConcrete (Text.Utf8.encode source.toList) tree).preorder,
      n.kind = .forStatement → n.headDeclarators ≤ 1) :
    RenderAlike (toPhp (options.withArrays true) source tree).result
      (toPhp (options.withArrays false) source tree).result := by
  have hseparations : ∀ n ∈ (Node.ofConcrete (Text.Utf8.encode source.toList) tree).preorder,
      n.separations = 0 := by
    intro n hn
    unfold Node.separations
    split
    · rename_i hkind
      have := h n hn hkind
      omega
    · rfl
  cases hfault : tree.failure? (Text.Utf8.encode source.toList) with
  | some failure =>
    simp only [toPhp, parse, hfault]
    exact rfl
  | none =>
    simp only [toPhp, parse, hfault]
    exact emitTree_renderAlike options _ hseparations

open Concrete in
/-- A loop whose head declares one variable. -/
def arrayLoopTree : Concrete :=
  branch "program" 0 30 none
    [branch "for_statement" 0 30 none
      [token "for" 0 3, token "(" 4 5,
        branch "variable_declaration" 5 17 (some "initializer")
          [token "var" 5 8,
            branch "variable_declarator" 9 16 none
              [branch "identifier" 9 10 (some "name") [], token "=" 11 12,
                branch "array" 13 16 (some "value")
                  [token "[" 13 14, branch "number" 14 15 none [], token "]" 15 16]],
            token ";" 16 17],
        branch "identifier" 18 19 (some "condition") [],
        { token ";" 19 20 with field := some "condition" }, token ")" 21 22,
        branch "expression_statement" 23 30 (some "body")
          [branch "call_expression" 23 29 none
            [branch "identifier" 23 24 (some "function") [],
              branch "arguments" 24 29 (some "arguments")
                [token "(" 24 25,
                  branch "array" 25 28 none
                    [token "[" 25 26, branch "identifier" 26 27 none [], token "]" 27 28],
                  token ")" 28 29]],
            token ";" 29 30]]]

def arrayLoopSource : String := "for (var i = [0]; i; ) f([i]);"

theorem toPhp_renderAlike_loop :
    (∀ n ∈ (Node.ofConcrete (Text.Utf8.encode arrayLoopSource.toList) arrayLoopTree).preorder,
      n.kind = .forStatement → n.headDeclarators ≤ 1) ∧
    RenderAlike (toPhp (({} : Options).withArrays true) arrayLoopSource arrayLoopTree).result
      (toPhp (({} : Options).withArrays false) arrayLoopSource arrayLoopTree).result ∧
    (toPhp (({} : Options).withArrays true) arrayLoopSource arrayLoopTree).result =
      .ok "<?php\nfor ($i = [0]; $i; ) \x7b f([$i]); \x7d" ∧
    (toPhp (({} : Options).withArrays false) arrayLoopSource arrayLoopTree).result =
      .ok "<?php\nfor ($i = array(0); $i; ) \x7b f(array($i)); \x7d" := by
  have hheads : ∀ n ∈ (Node.ofConcrete (Text.Utf8.encode arrayLoopSource.toList)
      arrayLoopTree).preorder, n.kind = .forStatement → n.headDeclarators ≤ 1 := by
    decide +kernel
  exact ⟨hheads, toPhp_renderAlike {} arrayLoopSource arrayLoopTree hheads, by decide +kernel,
    by decide +kernel⟩

end EcmaPhp
