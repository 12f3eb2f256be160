import EcmaPhp.Proofs.Promotion
import EcmaPhp.Proofs.Script.Writings
import EcmaPhp.Proofs.Splices
import EcmaPhp.Proofs.Tree.Adaptation
import Mathlib.Data.List.Perm.Subperm

/-! The comments of a program in its text: none is there twice, and those of the fields that a
constructor sets are there once, above the declarations of the fields. -/
namespace EcmaPhp
open Output Script EmitM Emit

namespace Tariff

/-- Charges nothing but one comment. -/
def ofComment (c : Comment) : Tariff := ⟨0, fun d => if d = c then 1 else 0, 0, 0⟩

theorem comments_ofComment (c : Comment) (cs : List Comment) :
    (ofComment c).comments cs = cs.count c := by
  induction cs with
  | nil => rfl
  | cons d rest ih =>
    rw [List.count_cons, ← ih]
    simp [comments, ofComment, Nat.add_comm]

theorem own_ofComment (c : Comment) (n : Node) :
    (ofComment c).own n = n.leading.count c + n.inner.count c + n.trailing.count c := by
  simp only [own, comments_ofComment]
  exact congrArg (· + _ + _) (Nat.zero_add _)

theorem extra_ofComment (c : Comment) (n : Node) : (ofComment c).extra n = 0 := by
  simp [extra, ofComment]

mutual
/-- A tree is charged as often as it has the comment. -/
theorem cost_ofComment (c : Comment) : ∀ n : Node, (ofComment c).cost n = n.comments.count c
  | ⟨kind, location, start, stop, text, field, tokens, attrs, leading, trailing, inner, skipped,
      children⟩ => by
    rw [cost, below_eq rfl, membersAll_eq rfl, ite_self, promotion_of_learn rfl,
      costAll_ofComment c children, own_ofComment, extra_ofComment, Node.comments]
    simp only [List.count_append]
    omega
theorem costAll_ofComment (c : Comment) :
    ∀ ns : List Node, (ofComment c).costAll ns = (Node.commentsAll ns).count c
  | [] => rfl
  | n :: rest => by
    rw [costAll, Node.commentsAll, List.count_append, cost_ofComment c n, costAll_ofComment c rest]
end

end Tariff

theorem distinct_start : EmitState.Distinct {} := fun _ hscope => (List.not_mem_nil hscope).elim

/-- A program writes no comment more often than its tree has it. -/
theorem subperm_comments (root : Node) (env : EmitEnv) :
    (((emitProgram root).writings env {}).map (·.1)).Subperm root.comments := by
  apply List.subperm_ext_iff.mpr
  intro c _
  calc
    _ = (Tariff.ofComment c).comments (((emitProgram root).writings env {}).map (·.1)) :=
      (Tariff.comments_ofComment c _).symm
    _ ≤ Step.total (Tariff.ofComment c) ((emitProgram root).steps env {}) :=
      Script.comments_writings_le _ _ env {}
    _ ≤ (Tariff.ofComment c).cost root :=
      (fits_emitProgram _ root).costs.total_le distinct_start
    _ = root.comments.count c := Tariff.cost_ofComment c root

theorem filter_eq_singleton {α β : Type} [DecidableEq β] {f : α → β} {a : α} {as : List α}
    (hnodup : (as.map f).Nodup) (ha : a ∈ as) : as.filter (fun b => f b = f a) = [a] := by
  induction as with
  | nil => cases ha
  | cons b rest ih =>
    rw [List.map_cons, List.nodup_cons] at hnodup
    rcases List.mem_cons.mp ha with rfl | ha
    · have hrest : rest.filter (fun b => f b = f a) = [] := by
        apply List.filter_eq_nil_iff.mpr
        intro b hb heq
        exact hnodup.1 (of_decide_eq_true heq ▸ List.mem_map_of_mem hb)
      simp [hrest]
    · have hne : f b ≠ f a := fun heq => hnodup.1 (heq ▸ List.mem_map_of_mem ha)
      rw [List.filter_cons_of_neg (by simpa using hne)]
      exact ih hnodup.2 ha

section Emission

variable {env : EmitEnv} {root : Node} {s t : EmitState} {xs : List Step} {n statement : Node}
  {x : String}

theorem fieldText_this (o : Output) (cs : List Comment) (x : String) :
    fieldText o cs ("this." ++ x) = cs.flatMap o.commentText ++ ("public $" ++ x ++ ";").toList := by
  simp [fieldText]

/-- The comments of a statement that sets a field are moved, and the text of the program has them
above the declaration of the field. -/
theorem exists_insertion (hr : Runs env (emitProgram root) {} () t xs)
    (hmem : .frame .point (emitNode n {}) s ∈ xs)
    (hn : n.Promotes statement ("this." ++ x) (s.declared.head?.getD [])) :
    (∀ c ∈ statement.leading, c.isBlock = true →
      (c, Way.moved) ∈ (emitProgram root).writings env {}) ∧
    ∃ inserted u, .action (.edit (.insert inserted)) u ∈ xs ∧ inserted <:+: t.output.text ∧
      (statement.leading.filter Comment.isBlock).flatMap s.output.commentText ++
        ("public $" ++ x ++ ";").toList <:+: inserted := by
  have hdistinct := hr.invariant_of_mem_frame invariant_distinct distinct_start hmem
  have hstacked := hr.invariant_of_mem_frame invariant_stacked Stacked.empty hmem
  obtain ⟨_, _, ys, hconstructor, hsub⟩ := hr.of_mem_frame hmem (List.Subset.refl xs)
  have hpoints : (Frame.point.enter s).output.points ≠ [] := List.cons_ne_nil _ s.output.points
  obtain ⟨u, v, inserted, hmark, hinsert, hv, hguarded, hfield⟩ :=
    exists_declaration hconstructor hn (hdistinct.enter .point) hstacked.push hpoints
  have hfield : fieldText s.output _ _ <:+: inserted := hfield
  rw [fieldText_this] at hfield
  constructor
  · intro c hc hblock
    have hmoved := hr.writings_subset (hsub hmark)
    exact hmoved (List.mem_map_of_mem (List.mem_filter.mpr ⟨hc, hblock⟩))
  · exact ⟨inserted, v, hsub hinsert, hr.infix_of_insert (hsub hinsert) hv hguarded, hfield⟩

end Emission

/-- The comments that the emission of a program writes, in order. -/
def emissionWritings (options : Options) (source : String) (tree : Concrete) :
    List (Comment × Way) :=
  (emitProgram (.ofConcrete (Text.Utf8.encode source.toList) tree)).writings
    (emissionEnv options source tree) {}

/-- No comment of a program is written twice. A constructor holds back the block comments of the
first statement for a field that its class does not declare: these are written once, above the
declaration of the field, which goes into the text as a whole. -/
theorem comments_written_once {options : Options} {source text : String} {tree : Concrete}
    (hids : ((Node.ofConcrete (Text.Utf8.encode source.toList) tree).comments.map (·.id)).Nodup)
    (htext : (toPhp options source tree).result = .ok text) :
    (∃ t, Runs (emissionEnv options source tree)
        (emitProgram (.ofConcrete (Text.Utf8.encode source.toList) tree)) {} () t
        (emissionSteps options source tree) ∧
      text.toList = t.output.text ∧
      t.output.written = ((emissionWritings options source tree).map (·.1.id)).reverse) ∧
    ((emissionWritings options source tree).map (·.1)).Subperm
      (Node.ofConcrete (Text.Utf8.encode source.toList) tree).comments ∧
    ((emissionWritings options source tree).map (·.1.id)).Nodup ∧
    (∀ (n statement : Node) (x : String) (s : EmitState),
      .frame .point (emitNode n {}) s ∈ emissionSteps options source tree →
      n.Promotes statement ("this." ++ x) (s.declared.head?.getD []) →
      (∀ c ∈ statement.leading, c.isBlock = true →
        (emissionWritings options source tree).filter (·.1.id = c.id) = [(c, .moved)]) ∧
      ∃ inserted u, .action (.edit (.insert inserted)) u ∈ emissionSteps options source tree ∧
        inserted <:+: text.toList ∧
        (statement.leading.filter Comment.isBlock).flatMap s.output.commentText ++
          ("public $" ++ x ++ ";").toList <:+: inserted) ∧
    ∀ (d body n : Node) (wrapped : Bool) (s : EmitState) (earlier later : List Node),
      .frame (.node d wrapped) (classDeclaration d fun p c => emitNode p.node c) s ∈
        emissionSteps options source tree →
      d.child? .body = some body → body.kind = .classBody → body.Orderly →
      body.children = earlier ++ n :: later → isConstructor n = true →
      ∃ u, .frame .point (emitNode n {}) u ∈ emissionSteps options source tree ∧
        ((∀ m ∈ earlier, isConstructor m = false) →
          u.declared.head? = some body.declaredFields) := by
  obtain ⟨t, hr, ht⟩ := runs_of_toPhp htext
  have hsubperm := subperm_comments (.ofConcrete (Text.Utf8.encode source.toList) tree)
    (emissionEnv options source tree)
  have hnodup : ((emissionWritings options source tree).map (·.1.id)).Nodup := by
    obtain ⟨cs, hperm, hsub⟩ := hsubperm
    have hcs := (hperm.map (·.id)).nodup_iff.mp (hids.sublist (hsub.map (·.id)))
    rwa [List.map_map] at hcs
  refine ⟨⟨t, hr, ht, ?_⟩, hsubperm, hnodup, ?_, ?_⟩
  · rw [hr.written]
    exact List.append_nil _
  · intro n statement x s hmem hn
    obtain ⟨hmoved, inserted, u, hinsert, hinfix, hfield⟩ := exists_insertion hr hmem hn
    constructor
    · intro c hc hblock
      exact filter_eq_singleton (f := fun w => w.1.id) hnodup (hmoved c hc hblock)
    · exact ⟨inserted, u, hinsert, ht ▸ hinfix, hfield⟩
  · intro d body n wrapped s earlier later hmem hbody hkind horderly hchildren hn
    have hdistinct := hr.invariant_of_mem_frame invariant_distinct distinct_start hmem
    obtain ⟨_, _, ys, hclass, hsub⟩ := hr.of_mem_frame hmem (List.Subset.refl _)
    obtain ⟨u, hpoint, hdeclared⟩ := exists_point hclass (hdistinct.enter (.node d wrapped)) hbody
      hkind horderly hchildren hn
    exact ⟨u, hsub hpoint, hdeclared⟩

namespace Concrete

/-- A statement that sets a field with a name of one letter, at an offset. -/
def setting (start : Nat) : Concrete :=
  branch "expression_statement" start (start + 11) none
    [branch "assignment_expression" start (start + 10) none
      [branch "member_expression" start (start + 6) (some "left")
        [branch "this" start (start + 4) (some "object") [], token "." (start + 4) (start + 5),
          branch "property_identifier" (start + 5) (start + 6) (some "property") []],
        token "=" (start + 7) (start + 8),
        branch "number" (start + 9) (start + 10) (some "right") []],
      token ";" (start + 10) (start + 11)]

def commentedClassSource : String :=
  "class A \x7b\n  /* k */\n  w = 0;\n  constructor() \x7b\n    /* d */\n    this.x = 1;\n" ++
    "    /* e */\n    this.x = 2;\n    /* f */\n    this.w = 3;\n  \x7d\n\x7d\n"

def commentedClass : Concrete :=
  branch "program" 0 137 none
    [branch "class_declaration" 0 136 none
      [token "class" 0 5, branch "identifier" 6 7 (some "name") [],
        branch "class_body" 8 136 (some "body")
          [token "\x7b" 8 9, branch "comment" 12 19 none [],
            branch "field_definition" 22 27 none
              [branch "property_identifier" 22 23 (some "property") [], token "=" 24 25,
                branch "number" 26 27 (some "value") []],
            token ";" 27 28,
            branch "method_definition" 31 134 none
              [branch "property_identifier" 31 42 (some "name") [],
                branch "formal_parameters" 42 44 (some "parameters")
                  [token "(" 42 43, token ")" 43 44],
                branch "statement_block" 45 134 (some "body")
                  [token "\x7b" 45 46, branch "comment" 51 58 none [], setting 63,
                    branch "comment" 79 86 none [], setting 91,
                    branch "comment" 107 114 none [], setting 119, token "\x7d" 133 134]],
            token "\x7d" 135 136]]]
end Concrete

open Concrete in
/-- The first comment for a field that is not declared moves, and no other one does. -/
theorem comments_written_once_class :
    ((Node.ofConcrete (Text.Utf8.encode commentedClassSource.toList) commentedClass).comments.map
      (·.id)).Nodup ∧
    ∃ text, (toPhp {} commentedClassSource commentedClass).result = .ok text ∧
      ∃ c o, c.value = " d " ∧
        (emissionWritings {} commentedClassSource commentedClass).filter (·.1.id = c.id) =
          [(c, .moved)] ∧
        Output.commentText o c ++ "public $x;".toList <:+: text.toList := by
  have hids : ((Node.ofConcrete (Text.Utf8.encode commentedClassSource.toList)
      commentedClass).comments.map (·.id)).Nodup := by decide +kernel
  have htext : (toPhp {} commentedClassSource commentedClass).result = .ok (
      "<?php\nclass A \x7b\n\t/* k */\n\tpublic $w = 0;\n\t/* d */\n\tpublic $x;\n" ++
      "\tpublic function __construct() \x7b\n\t\t$this->x = 1;\n\t\t/* e */\n\t\t$this->x = 2;\n" ++
      "\t\t/* f */\n\t\t$this->w = 3;\n\t\x7d\n\x7d\n") := by decide +kernel
  obtain ⟨⟨t, hr, -⟩, -, -, hmoved, hclasses⟩ := comments_written_once hids htext
  have htree : (Node.ofConcrete (Text.Utf8.encode commentedClassSource.toList)
      commentedClass).children.any (fun d => d.kind = .classDeclaration &&
        (d.child? .body).any fun body => body.kind = .classBody && decide body.Orderly &&
          body.declaredFields = ["this.w"] && (body.children.take 1).all (!isConstructor ·) &&
          body.children[1]?.any fun n => isConstructor n && n.accessor? = none && decide n.Orderly &&
            (n.child? .body).any fun block => block.kind = .statementBlock &&
              block.children.head?.any fun statement => statement.assignedField? = some "this.x" &&
                statement.leading.any fun c =>
                  statement.leading = [c] && c.isBlock && c.value = " d ") = true := by
    decide +kernel
  simp only [List.any_eq_true, Option.any_eq_true, Bool.and_eq_true, decide_eq_true_eq,
    List.all_eq_true, Bool.not_eq_true'] at htree
  obtain ⟨d, hd, hclass, body, hbody, ⟨⟨⟨⟨hkind, horderly⟩, hfields⟩, hearlier⟩, n, hn, ⟨⟨⟨hconstructor,
    haccessor⟩, horderly'⟩, block, hblock, hkind', statement, hstatement, hsets, c, hc, ⟨hleading,
    hcblock⟩, hvalue⟩⟩⟩ := htree
  obtain ⟨hlt, rfl⟩ := List.getElem?_eq_some_iff.mp hn
  obtain ⟨rest, hblock'⟩ := List.head?_eq_some_iff.mp hstatement
  obtain ⟨wrapped, s, hmem⟩ := exists_class hr (ofConcrete_program _ rfl).1 hd hclass
  have hchildren := (List.take_append_drop 1 body.children).symm
  rw [List.drop_eq_getElem_cons hlt] at hchildren
  obtain ⟨u, hpoint, hdeclared⟩ :=
    hclasses d body _ wrapped s _ _ hmem hbody hkind horderly hchildren hconstructor
  have hpromotes : body.children[1].Promotes statement ("this." ++ "x")
      (u.declared.head?.getD []) := by
    refine ⟨hconstructor, haccessor, horderly', ?_, hsets, ?_⟩
    · exact ⟨block, [], rest, hblock, hkind', hblock', by simp⟩
    · rw [hdeclared hearlier, hfields]
      decide
  obtain ⟨honce, inserted, v, -, hinfix, hfield⟩ := hmoved _ statement "x" u hpoint hpromotes
  refine ⟨hids, _, htext, c, u.output, hvalue, honce c hc hcblock, ?_⟩
  have hfilter : statement.leading.filter Comment.isBlock = [c] := by simp [hleading, hcblock]
  rw [hfilter, List.flatMap_singleton] at hfield
  exact hfield.trans hinfix

end EcmaPhp
