import EcmaPhp.Proofs.Accessors
import EcmaPhp.Proofs.Comments

/-! Fields in front of accessors. PHP asks the common functions of a class only for properties that
the class does not declare, so the declaration of a field hides the accessors of its name. -/
namespace EcmaPhp
open Output Script EmitM Emit

/-- The names of the accessors in the body of a class. -/
def Node.accessorNames (body : Node) : List String :=
  (body.children.filter (·.accessor?.isSome)).filterMap fun a =>
    (a.child? .name).map Node.publicName

theorem exists_eq_this {key : String} (h : Node.isThisKey key = true) :
    ∃ name, key = "this." ++ name := by
  obtain ⟨rest, hrest⟩ := List.isPrefixOf_iff_prefix.mp h
  have hkey : key = "this." ++ String.ofList rest := by
    rw [← String.toList_inj, ← hrest]
    simp
  exact ⟨String.ofList rest, hkey⟩

theorem isThisKey_this (name : String) : Node.isThisKey ("this." ++ name) = true := by
  rw [Node.isThisKey, String.toList_append, List.isPrefixOf_iff_prefix]
  exact List.prefix_append _ _

/-- The names without what all keys of fields begin with. -/
theorem exists_map_this {keys : List String} (h : ∀ key ∈ keys, Node.isThisKey key = true) :
    ∃ names : List String, keys = names.map ("this." ++ ·) := by
  induction keys with
  | nil => exact ⟨[], rfl⟩
  | cons key rest ih =>
    obtain ⟨hkey, hrest⟩ := List.forall_mem_cons.mp h
    obtain ⟨name, rfl⟩ := exists_eq_this hkey
    obtain ⟨names, rfl⟩ := ih hrest
    exact ⟨name :: names, rfl⟩

theorem this_mem_map_iff {names : List String} {name : String} :
    "this." ++ name ∈ names.map ("this." ++ ·) ↔ name ∈ names := by
  apply List.mem_map_of_injective
  intro a b h
  exact (String.append_right_inj "this.").mp h

theorem declaration_infix_fieldLines (o : Output) (held : List (String × List Comment))
    {names : List String} {name : String} (hname : name ∈ names) :
    ("public $" ++ name ++ ";").toList <:+: fieldLines o held (names.map ("this." ++ ·)) := by
  have hfield := fieldText_infix_fieldLines o held (this_mem_map_iff.mpr hname)
  rw [fieldText_this] at hfield
  exact (List.suffix_append _ _).isInfix.trans hfield

theorem Promotion.exists_names {block : Node} {s : EmitState} {xs : List Step} {keys : List String}
    {inserted : List Char} (h : Promotion block s xs keys inserted) :
    ∃ (names : List String) (o : Output) (held : List (String × List Comment)),
      inserted = fieldLines o held (names.map ("this." ++ ·)) ∧
      ∀ name, name ∈ names ↔ "this." ++ name ∉ s.declared.head?.getD [] ∧
        ∃ x ∈ xs, x.Declares (s.scopes.length + 1) ("this." ++ name) := by
  obtain ⟨names, rfl⟩ := exists_map_this fun key hkey => ((h.mem_iff key).mp hkey).1
  obtain ⟨o, -, htext⟩ := h.text
  refine ⟨names, o, _, htext, ?_⟩
  intro name
  rw [← this_mem_map_iff, h.mem_iff, and_iff_right (isThisKey_this name)]

/-- A constructor that is emitted at a point sets a field in its own scope. -/
def Node.DeclaresField (n : Node) (env : EmitEnv) (u : EmitState) (name : String) : Prop :=
  ∃ x ∈ (emitNode n {}).steps env (Frame.point.enter u),
    x.Declares (u.scopes.length + 1) ("this." ++ name)

section Emission

variable {env : EmitEnv} {root n block : Node} {s t : EmitState} {xs : List Step}

/-- The fields that a constructor sets are declared in the text of a program. -/
theorem exists_promotion_of_point (hr : Runs env (emitProgram root) {} () t xs)
    (hmem : .frame .point (emitNode n {}) s ∈ xs) (hn : isConstructor n = true)
    (hmethod : n.accessor? = none) (horderly : n.Orderly) (hblock : n.child? .body = some block) :
    ∃ keys inserted, Promotion block (Frame.point.enter s)
        ((emitNode n {}).steps env (Frame.point.enter s)) keys inserted ∧
      inserted <:+: t.output.text := by
  have hdistinct := hr.invariant_of_mem_frame invariant_distinct distinct_start hmem
  have hstacked := hr.invariant_of_mem_frame invariant_stacked Stacked.empty hmem
  obtain ⟨_, _, ys, hconstructor, hsub⟩ := hr.of_mem_frame hmem (List.Subset.refl xs)
  have hpoints : (Frame.point.enter s).output.points ≠ [] := List.cons_ne_nil _ s.output.points
  obtain ⟨keys, inserted, hpromotion⟩ := exists_promotion hconstructor hn hmethod horderly hblock
    (hdistinct.enter .point) hstacked.push hpoints
  obtain ⟨v, hinsert, hv, hguarded⟩ := hpromotion.insert
  refine ⟨keys, inserted, ?_, hr.infix_of_insert (hsub hinsert) hv hguarded⟩
  rw [hconstructor.run_eq.2]
  exact hpromotion

/-- The accessors of a class are told apart by their names. -/
theorem exists_comparison_of_class {d body : Node} {name : String}
    (hr : Runs env (classDeclaration d fun p c => emitNode p.node c) s () t xs)
    (hdistinct : s.Distinct) (hbody : d.child? .body = some body) (hkind : body.kind = .classBody)
    (hname : name ∈ body.accessorNames) :
    ∃ u, .action (.edit (.text (comparison name))) u ∈ xs := by
  obtain ⟨a, ha, hnamed⟩ := List.mem_filterMap.mp hname
  obtain ⟨hchild, haccessor⟩ := List.mem_filter.mp ha
  obtain ⟨accessor, haccessor⟩ := Option.isSome_iff_exists.mp haccessor
  obtain ⟨m, hm, rfl⟩ := Option.map_eq_some_iff.mp hnamed
  obtain ⟨_, _, ys, hvisit, hsub, -, -⟩ := exists_classBody hr hdistinct hbody
  obtain ⟨u, hu⟩ := exists_comparison hvisit hkind hchild haccessor hm
  exact ⟨u, hsub hu⟩

end Emission

/-- A class has the fields declared that its constructor sets in its own scope and that it does not
declare itself. This hides an accessor as soon as one of them has its name. -/
theorem accessors_hidden_iff {options : Options} {source text : String} {tree : Concrete}
    {d body n block : Node} {wrapped : Bool} {s : EmitState} {earlier later : List Node}
    (htext : (toPhp options source tree).result = .ok text)
    (hclass : .frame (.node d wrapped) (classDeclaration d fun p c => emitNode p.node c) s ∈
      emissionSteps options source tree)
    (hbody : d.child? .body = some body) (hkind : body.kind = .classBody) (horderly : body.Orderly)
    (hchildren : body.children = earlier ++ n :: later) (hn : isConstructor n = true)
    (hmethod : n.accessor? = none) (hfirst : ∀ m ∈ earlier, isConstructor m = false)
    (hblock : n.child? .body = some block) :
    ∃ (u : EmitState) (names : List String) (inserted : List Char),
      .frame .point (emitNode n {}) u ∈ emissionSteps options source tree ∧
      (∃ v, .action (.edit (.insert inserted)) v ∈
        (emitNode n {}).steps (emissionEnv options source tree) (Frame.point.enter u)) ∧
      inserted <:+: text.toList ∧
      (∃ o held, inserted = fieldLines o held (names.map ("this." ++ ·))) ∧
      (∀ name ∈ names, ("public $" ++ name ++ ";").toList <:+: inserted) ∧
      (∀ name, name ∈ names ↔ "this." ++ name ∉ body.declaredFields ∧
        n.DeclaresField (emissionEnv options source tree) u name) ∧
      (block.kind = .statementBlock → ∀ name, block.SetsField ("this." ++ name) →
        n.DeclaresField (emissionEnv options source tree) u name) ∧
      (∀ name ∈ body.accessorNames, ∃ w,
        .action (.edit (.text (comparison name))) w ∈ emissionSteps options source tree) ∧
      ((∀ name ∈ names, name ∉ body.accessorNames) ↔
        ∀ name ∈ body.accessorNames, n.DeclaresField (emissionEnv options source tree) u name →
          "this." ++ name ∈ body.declaredFields) := by
  obtain ⟨t, hr, ht⟩ := runs_of_toPhp htext
  have hdistinct := (hr.invariant_of_mem_frame invariant_distinct distinct_start hclass).enter
    (.node d wrapped)
  obtain ⟨_, _, ys, hrun, hsub⟩ := hr.of_mem_frame hclass (List.Subset.refl _)
  obtain ⟨u, hpoint, hdeclared⟩ :=
    exists_point hrun hdistinct hbody hkind horderly hchildren hn
  have hmember : n ∈ body.children := by simp [hchildren]
  obtain ⟨keys, inserted, hpromotion, hinfix⟩ := exists_promotion_of_point hr (hsub hpoint) hn
    hmethod (horderly.child hmember) hblock
  obtain ⟨v, hinsert, -⟩ := hpromotion.insert
  obtain ⟨names, o, held, rfl, hnames⟩ := hpromotion.exists_names
  have hknown : (Frame.point.enter u).declared.head?.getD [] = body.declaredFields := by
    show u.declared.head?.getD [] = body.declaredFields
    rw [hdeclared hfirst]
    rfl
  rw [hknown] at hnames
  refine ⟨u, names, _, hsub hpoint, ⟨v, hinsert⟩, ht ▸ hinfix, ⟨o, held, rfl⟩, ?_, hnames, ?_, ?_,
    ?_⟩
  · intro name hname
    exact declaration_infix_fieldLines o held hname
  · intro hstatements name hsets
    exact hpromotion.sets _ hstatements hsets
  · intro name hname
    obtain ⟨w, hw⟩ := exists_comparison_of_class hrun hdistinct hbody hkind hname
    exact ⟨w, hsub hw⟩
  · constructor
    · intro hvisible name haccessor hdeclares
      by_contra hfield
      exact hvisible name ((hnames name).mpr ⟨hfield, hdeclares⟩) haccessor
    · intro hfields name hname haccessor
      obtain ⟨hfield, hdeclares⟩ := (hnames name).mp hname
      exact hfield (hfields name haccessor hdeclares)

namespace Concrete

def hidingSource : String :=
  "class A \x7b\n  constructor(a) \x7b\n    if (a) \x7b this.x = 1; \x7d\n  \x7d\n" ++
    "  get x() \x7b return 2; \x7d\n\x7d\n"

def hidingClass : Concrete :=
  branch "program" 0 86 none
    [branch "class_declaration" 0 85 none
      [token "class" 0 5, branch "identifier" 6 7 (some "name") [],
        branch "class_body" 8 85 (some "body")
          [token "\x7b" 8 9,
            branch "method_definition" 12 59 none
              [branch "property_identifier" 12 23 (some "name") [],
                branch "formal_parameters" 23 26 (some "parameters")
                  [token "(" 23 24, branch "identifier" 24 25 none [], token ")" 25 26],
                branch "statement_block" 27 59 (some "body")
                  [token "\x7b" 27 28,
                    branch "if_statement" 33 55 none
                      [token "if" 33 35,
                        branch "parenthesized_expression" 36 39 (some "condition")
                          [token "(" 36 37, branch "identifier" 37 38 none [], token ")" 38 39],
                        branch "statement_block" 40 55 (some "consequence")
                          [token "\x7b" 40 41, setting 42, token "\x7d" 54 55]],
                    token "\x7d" 58 59]],
            branch "method_definition" 62 83 none
              [token "get" 62 65, branch "property_identifier" 66 67 (some "name") [],
                branch "formal_parameters" 67 69 (some "parameters")
                  [token "(" 67 68, token ")" 68 69],
                branch "statement_block" 70 83 (some "body")
                  [token "\x7b" 70 71,
                    branch "return_statement" 72 81 none
                      [token "return" 72 78, branch "number" 79 80 none [], token ";" 80 81],
                    token "\x7d" 82 83]],
            token "\x7d" 84 85]]]

end Concrete

open Concrete in
/-- A constructor that sets a field in a branch of its body hides the accessor of that name. -/
theorem accessors_hidden_iff_branch :
    ∃ text, (toPhp {} hidingSource hidingClass).result = .ok text ∧
      "public $x;".toList <:+: text.toList ∧
      ∃ w, .action (.edit (.text (comparison "x"))) w ∈ emissionSteps {} hidingSource hidingClass := by
  have htext : (toPhp {} hidingSource hidingClass).result = .ok (
      "<?php\nclass A \x7b\n\tpublic $x;\n\tpublic function __construct($a) \x7b\n" ++
      "\t\tif ($a) \x7b $this->x = 1; \x7d\n\t\x7d\n\tpublic function __get($_property) \x7b\n" ++
      "\t\tif ($_property === 'x') \x7b\n\t\t\treturn 2;\n\t\t\x7d\n\t\x7d\n\x7d\n") := by
    decide +kernel
  have htree : (Node.ofConcrete (Text.Utf8.encode hidingSource.toList)
      hidingClass).children.any (fun d => d.kind = .classDeclaration &&
        (d.child? .body).any fun body => body.kind = .classBody && decide body.Orderly &&
          body.declaredFields = [] && body.accessorNames = ["x"] &&
          body.children.head?.any fun n => isConstructor n && n.accessor? = none &&
            (n.child? .body).any fun block => block.kind = .statementBlock &&
              block.substatements.any fun branch => branch.substatements.any fun inner =>
                inner.substatements.any fun c => c.assignedField? = some "this.x") = true := by
    decide +kernel
  simp only [List.any_eq_true, Option.any_eq_true, Bool.and_eq_true, decide_eq_true_eq] at htree
  obtain ⟨d, hd, hclass, body, hbody, ⟨⟨⟨⟨hkind, horderly⟩, hfields⟩, haccessors⟩, n, hn,
    ⟨hconstructor, hmethod⟩, block, hblock, hstatements, branch, hbranch, inner, hinner, c, hc,
    hassigned⟩⟩ := htree
  obtain ⟨rest, hrest⟩ := List.head?_eq_some_iff.mp hn
  have hchildren : body.children = [] ++ n :: rest := hrest
  obtain ⟨t, hr, -⟩ := runs_of_toPhp htext
  obtain ⟨wrapped, s, hmem⟩ := exists_class hr (ofConcrete_program _ rfl).1 hd hclass
  obtain ⟨u, names, inserted, -, -, hinfix, -, hlines, hnames, hsets, hcompared, -⟩ :=
    accessors_hidden_iff htext hmem hbody hkind horderly hchildren hconstructor hmethod (by simp)
      hblock
  have hsetting : block.SetsField ("this." ++ "x") :=
    .inside hbranch (.inside hinner (.inside hc (.assignment hassigned)))
  have hname : "x" ∈ names := by
    rw [hnames, hfields]
    exact ⟨List.not_mem_nil, hsets hstatements "x" hsetting⟩
  exact ⟨_, htext, (hlines "x" hname).trans hinfix, hcompared "x" (by simp [haccessors])⟩

end EcmaPhp
