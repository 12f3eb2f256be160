import EcmaPhp.Proofs.Soundness.Function

/-! The rules of statements and modules find what they need. -/
namespace EcmaPhp.Emit
open Script EmitM
open Failure (Refuses)

variable {P : Location → Prop} {k : Ground} {n : Node} {visit : Visit n}

section Statements

@[simp]
theorem sound_jump (keyword : String) : (jump n keyword).Sound (Refuses P) k := by
  cases hlabel : n.child? .label <;> simp [jump, hlabel]

theorem sound_catchParameter (hv : Visit.Sound P visit) (hk : k.inScope = true) {param : Part n}
    (hparam : param.node.Placed P) : (catchParameter visit param).Sound (Refuses P) k := by
  simpa [catchParameter, hparam.complete.hasNames, hk, hv.placed hparam hk] using
    Node.Refused.catchBinding (n := param.node)

theorem sound_forDeclaration (hv : Visit.Sound P visit) (hk : k.inScope = true) {d : Part n}
    (hd : d.node.Complete P) (hholds : d.node.kind.holdsMethods = false) :
    (forDeclaration visit d).Sound (Refuses P) k := by
  have hparts : ∀ p ∈ d.partsOf .variableDeclarator, p.node.Placed P :=
    fun p hp => Part.placed_parts hd hholds p (List.mem_of_mem_filter hp)
  refine sound_around _ _ ?_
  split
  · trivial
  · rename_i first rest hdeclarators
    rw [hdeclarators] at hparts
    obtain ⟨hfirst, hrest⟩ := List.forall_mem_cons.mp hparts
    rw [sound_bind]
    refine ⟨sound_liftM _ (hv.placed hfirst hk), fun _ _ => sound_forM _ _ fun p hp => ?_⟩
    simp [hv.placed (hrest p hp) hk]

theorem placed_forClause? {clause p : Part n} (hclause : clause.node.Placed P)
    (hp : clause.forClause? = some p) : p.node.Placed P := by
  unfold Part.forClause? at hp
  split at hp
  · cases hp
  · rename_i hkind
    exact Part.placed_parts hclause.complete (by rw [hkind]; rfl) p (List.mem_of_head? hp)
  · cases hp
    exact hclause

theorem sound_forClause (hv : Visit.Sound P visit) (hk : k.inScope = true)
    {clause? : Option (Part n)} (hclause : ∀ p ∈ clause?, p.node.Placed P) :
    (forClause visit clause?).Sound (Refuses P) k := by
  unfold forClause
  split
  · rename_i clause hbind
    obtain ⟨p, hp, hsome⟩ := Option.bind_eq_some_iff.mp hbind
    simp [hv.placed (placed_forClause? (hclause p hp) hsome) hk]
  · simp

theorem sound_catchClause (hn : n.Complete P) (hv : Visit.Sound P visit)
    (hkind : n.kind = .catchClause) : (catchClause n visit).Sound (Refuses P) k := by
  obtain ⟨body, hbody, hplaced⟩ := hn.exists_placed hkind .body (by decide)
  have hinside : ({ k with inScope := true } : Ground).inScope = true := rfl
  cases hparam : n.part? .parameter with
  | none => simp [catchClause, need_eq hbody, hparam, sound_bracedBody hv hinside hplaced]
  | some param =>
    simp [catchClause, need_eq hbody, hparam, sound_bracedBody hv hinside hplaced,
      sound_catchParameter hv hinside (hn.placed_part? (by rw [hkind]; rfl) hparam)]

variable (hn : n.Complete P) (hv : Visit.Sound P visit) (hk : k.inScope = true)
include hn hv hk

theorem sound_expressionStatement (hkind : n.kind = .expressionStatement) :
    (expressionStatement n visit).Sound (Refuses P) k := by
  have hparts := hn.placed_parts (by rw [hkind]; rfl)
  unfold expressionStatement
  split
  · trivial
  · rename_i expression rest hfirst
    simp [hv.placed (hparts expression (by simp [hfirst])) hk]

theorem sound_returnStatement (hkind : n.kind = .returnStatement) :
    (returnStatement n visit).Sound (Refuses P) k := by
  have hparts := hn.placed_parts (by rw [hkind]; rfl)
  cases hfirst : n.parts with
  | nil => simp [returnStatement, hfirst]
  | cons value rest =>
    simp [returnStatement, hfirst, hv.placed (hparts value (by simp [hfirst])) hk]

theorem sound_ifStatement (hkind : n.kind = .ifStatement) :
    (ifStatement n visit).Sound (Refuses P) k := by
  obtain ⟨test, htest, hplaced⟩ := hn.exists_placed hkind .condition (by decide)
  obtain ⟨body, hbody, hplaced'⟩ := hn.exists_placed hkind .consequence (by decide)
  cases helse : n.part? .alternative with
  | none =>
    simp [ifStatement, need_eq htest, need_eq hbody, helse, sound_condition hv hk hplaced,
      sound_bracedBody hv hk hplaced']
  | some clause =>
    simp [ifStatement, need_eq htest, need_eq hbody, helse, sound_condition hv hk hplaced,
      sound_bracedBody hv hk hplaced', hv.placed (hn.placed_part? (by rw [hkind]; rfl) helse) hk]

theorem sound_elseClause (hkind : n.kind = .elseClause) :
    (elseClause n visit).Sound (Refuses P) k := by
  obtain ⟨body, _, hfirst, hplaced⟩ := hn.exists_first hkind rfl
  simp [elseClause, needFirst_eq hfirst, hv.placed hplaced hk, sound_bracedBody hv hk hplaced]

theorem sound_whileStatement (hkind : n.kind = .whileStatement) :
    (whileStatement n visit).Sound (Refuses P) k := by
  obtain ⟨test, htest, hplaced⟩ := hn.exists_placed hkind .condition (by decide)
  obtain ⟨body, hbody, hplaced'⟩ := hn.exists_placed hkind .body (by decide)
  simp [whileStatement, need_eq htest, need_eq hbody, sound_condition hv hk hplaced,
    sound_bracedBody hv hk hplaced']

theorem sound_doStatement (hkind : n.kind = .doStatement) :
    (doStatement n visit).Sound (Refuses P) k := by
  obtain ⟨test, htest, hplaced⟩ := hn.exists_placed hkind .condition (by decide)
  obtain ⟨body, hbody, hplaced'⟩ := hn.exists_placed hkind .body (by decide)
  simp [doStatement, need_eq htest, need_eq hbody, sound_condition hv hk hplaced,
    sound_bracedBody hv hk hplaced']

theorem sound_forHead (hkind : n.kind = .forStatement) : (forHead n visit).Sound (Refuses P) k := by
  have hholds : n.kind.holdsMethods = false := by rw [hkind]; rfl
  have hclause (f : Field) : (forClause visit (n.part? f)).Sound (Refuses P) k :=
    sound_forClause hv hk fun p hp => hn.placed_part? hholds hp
  have hincrement : (commaSeparated visit {} (n.partsIn .increment)).Sound (Refuses P) k :=
    sound_commaSeparated hv hk fun p hp => hn.placed_parts hholds p (List.mem_of_mem_filter hp)
  unfold forHead
  split
  · rename_i d hd
    obtain ⟨hpart, hdeclaration⟩ := Option.filter_eq_some_iff.mp hd
    have hd : (forDeclaration visit d).Sound (Refuses P) k := by
      refine sound_forDeclaration hv hk (hn.placed_part? hholds hpart).complete ?_
      unfold Kind.isDeclaration at hdeclaration
      split at hdeclaration <;> simp_all [Kind.holdsMethods]
    simp [hd, hclause, hincrement]
  · simp [hclause, hincrement]

theorem sound_forStatement (hkind : n.kind = .forStatement) :
    (forStatement n visit).Sound (Refuses P) k := by
  obtain ⟨body, hbody, hplaced⟩ := hn.exists_placed hkind .body (by decide)
  simp [forStatement, need_eq hbody, sound_forHead hn hv hk hkind, sound_bracedBody hv hk hplaced]

theorem sound_forInStatement (hkind : n.kind = .forInStatement) :
    (forInStatement n visit).Sound (Refuses P) k := by
  obtain ⟨left, hleft, hplaced⟩ := hn.exists_placed hkind .left (by decide)
  obtain ⟨right, hright, hplaced'⟩ := hn.exists_placed hkind .right (by decide)
  obtain ⟨body, hbody, hplaced''⟩ := hn.exists_placed hkind .body (by decide)
  simp [forInStatement, need_eq hleft, need_eq hright, need_eq hbody, hplaced.complete.hasNames, hk,
    hv.placed hplaced hk, hv.placed hplaced' hk, sound_bracedBody hv hk hplaced'']

theorem sound_switchStatement (hkind : n.kind = .switchStatement) :
    (switchStatement n visit).Sound (Refuses P) k := by
  obtain ⟨value, hvalue, hplaced⟩ := hn.exists_placed hkind .value (by decide)
  obtain ⟨body, hbody, hplaced'⟩ := hn.exists_placed hkind .body (by decide)
  simp [switchStatement, need_eq hvalue, need_eq hbody, sound_condition hv hk hplaced,
    hv.placed hplaced' hk]

theorem sound_switchCase (hholds : n.kind.holdsMethods = false) :
    (switchCase n visit).Sound (Refuses P) k := by
  have hbody : (statements visit (n.partsIn .body)).Sound (Refuses P) k :=
    sound_statements hv hk fun p hp => hn.placed_parts hholds p (List.mem_of_mem_filter hp)
  have hvalue {p : Part n} (hp : n.part? .value = some p) : (visit p {}).Sound (Refuses P) k :=
    hv.placed (hn.placed_part? hholds hp) hk
  cases hpart : n.part? .value <;> cases hparts : n.partsIn .body <;> rw [hparts] at hbody <;>
    simp [switchCase, hpart, hparts, hbody, hvalue]

theorem sound_labeledStatement (hkind : n.kind = .labeledStatement) :
    (labeledStatement n visit).Sound (Refuses P) k := by
  obtain ⟨body, hbody, hplaced⟩ := hn.exists_placed hkind .body (by decide)
  simp [labeledStatement, need_eq hbody, hv.placed hplaced hk]

theorem sound_tryStatement (hkind : n.kind = .tryStatement) :
    (tryStatement n visit).Sound (Refuses P) k := by
  obtain ⟨body, hbody, hplaced⟩ := hn.exists_placed hkind .body (by decide)
  have hclause (f : Field) {p : Part n} (hp : n.part? f = some p) :
      (visit p {}).Sound (Refuses P) k :=
    hv.placed (hn.placed_part? (by rw [hkind]; rfl) hp) hk
  cases hhandler : n.part? .handler <;> cases hfinalizer : n.part? .finalizer <;>
    simp [tryStatement, need_eq hbody, sound_bracedBody hv hk hplaced, hhandler, hfinalizer,
      hclause .handler, hclause .finalizer]

theorem sound_finallyClause (hkind : n.kind = .finallyClause) :
    (finallyClause n visit).Sound (Refuses P) k := by
  obtain ⟨body, hbody, hplaced⟩ := hn.exists_placed hkind .body (by decide)
  simp [finallyClause, need_eq hbody, sound_bracedBody hv hk hplaced]

theorem sound_throwStatement (hkind : n.kind = .throwStatement) :
    (throwStatement n visit).Sound (Refuses P) k := by
  obtain ⟨value, _, hfirst, hplaced⟩ := hn.exists_first hkind rfl
  simp [throwStatement, needFirst_eq hfirst, hv.placed hplaced hk]

theorem sound_exportStatement (hkind : n.kind = .exportStatement) :
    (exportStatement n visit).Sound (Refuses P) k := by
  have hpart {f : Field} {p : Part n} (hp : n.part? f = some p) {context : Context} :
      (visit p context).Sound (Refuses P) k :=
    hv.placed (hn.placed_part? (by rw [hkind]; rfl) hp) hk
  cases hdeclaration : n.part? .declaration with
  | some declaration => simp [exportStatement, hdeclaration, hpart hdeclaration]
  | none =>
    cases hvalue : n.part? .value with
    | some value => simp [exportStatement, hdeclaration, hvalue, hpart hvalue]
    | none => simp [exportStatement, hdeclaration, hvalue]

end Statements

section Modules

@[simp]
theorem sound_useLines (lines : List String) : (useLines lines).Sound (Refuses P) k := by
  cases lines <;> simp [useLines]

theorem sound_patternLine {property : Node} (hp : property.Complete P) :
    (patternLine property).Sound (Refuses P) k := by
  have hpair {f : Field} (hkind : property.kind = .pairPattern) (hf : f ∈ Kind.pairPattern.fields) :
      property.child? f ≠ none :=
    Option.ne_none_iff_exists'.mpr (hp.shaped.exists_child? (hkind ▸ hf))
  simp only [patternLine, sound_bind, sound_getOptions, true_and]
  intro options _
  split
  · trivial
  · rename_i hkind hvalue
    exact absurd hvalue (hpair hkind (by decide))
  · rename_i key? value hkind hvalue
    have hrefused : value.kind ≠ .identifier → property.Refused (some "module require binding") :=
      fun hne => .moduleProperty (by simp [hkind]) (by simp [hvalue, hne])
    cases hsome : property.child? .key with
    | none => exact absurd hsome (hpair hkind (by decide))
    | some key => simpa using hrefused
  · rename_i hshorthand hnone hpattern
    refine .moduleProperty hshorthand fun hkind value hvalue => ?_
    exact absurd hvalue (hpattern value hkind)

theorem sound_moduleLines {declarator : Node} (hd : declarator.Complete P)
    (hkind : declarator.kind = .variableDeclarator) :
    (moduleLines declarator).Sound (Refuses P) k := by
  obtain ⟨name, hname⟩ := hd.shaped.exists_child? (f := .name) (by simp [hkind, Kind.fields])
  have hproperties : ∀ p ∈ name.children, (patternLine p).Sound (Refuses P) k := fun p hp =>
    sound_patternLine ((hd.of_child? hname).child hp)
  simpa [moduleLines, hname, sound_mapM _ _ hproperties] using
    Node.Refused.moduleName (n := name)

theorem sound_moduleDeclaration {statement : Node} (hs : statement.Complete P) :
    (moduleDeclaration statement).Sound (Refuses P) k := by
  have hlines :
      ∀ d ∈ statement.childrenOf .variableDeclarator, (moduleLines d).Sound (Refuses P) k := by
    intro d hd
    obtain ⟨hmem, hkind⟩ := List.mem_filter.mp hd
    exact sound_moduleLines (hs.child hmem) (by simpa using hkind)
  refine sound_around _ _ ?_
  simp [sound_mapM _ _ hlines]

theorem sound_moduleHead {parts : List (Part n)} (hparts : ∀ p ∈ parts, p.node.Complete P) :
    (moduleHead parts).Sound (Refuses P) k := by
  induction parts with
  | nil => trivial
  | cons p rest ih =>
    obtain ⟨hp, hrest⟩ := List.forall_mem_cons.mp hparts
    simp [moduleHead, sound_moduleDeclaration hp, ih hrest]

/-- What remains behind the head of a program is part of it. -/
theorem subset_of_gives_moduleHead {parts rest : List (Part n)}
    (h : (moduleHead parts).Gives rest) : rest ⊆ parts := by
  induction parts with
  | nil =>
    obtain rfl : rest = [] := h
    exact List.Subset.refl []
  | cons p others ih =>
    rw [moduleHead] at h
    split at h
    · obtain ⟨_, h⟩ := exists_gives_of_bind h
      exact List.Subset.trans (ih h) (List.subset_cons_self p others)
    · split at h
      · obtain ⟨_, h⟩ := exists_gives_of_bind h
        exact List.Subset.trans (ih h) (List.subset_cons_self p others)
      · obtain rfl : rest = p :: others := h
        exact List.Subset.refl _

theorem sound_program (hn : n.Complete P) (hv : Visit.Sound P visit) (hkind : n.kind = .program) :
    (program n visit).Sound (Refuses P) k := by
  have hparts : ∀ p ∈ n.parts.filter (·.node.kind != .hashBangLine), p.node.Placed P :=
    fun p hp => hn.placed_parts (by rw [hkind]; rfl) p (List.mem_of_mem_filter hp)
  have hrest : ∀ rest, (moduleHead (n.parts.filter (·.node.kind != .hashBangLine))).Gives rest →
      (statements visit rest).Sound (Refuses P) { k with inScope := true } := by
    intro rest hrest
    exact sound_statements hv rfl fun p hp => hparts p (subset_of_gives_moduleHead hrest hp)
  have hhead : (moduleHead (n.parts.filter (·.node.kind != .hashBangLine))).Sound (Refuses P)
      { k with inScope := true } :=
    sound_moduleHead fun p hp => (hparts p hp).complete
  simp only [program, sound_inScope, sound_bind, sound_getOptions, true_and]
  intro options _
  split
  · simp +contextual [hhead, hrest]
  · simp +contextual [hhead, hrest]

/-- An import specifier lacks its name only where that is allowed. -/
theorem sound_specifierLine (module : String) {specifier : Node} (hs : specifier.Complete P)
    (hkind : specifier.kind = .importSpecifier) :
    (specifierLine module specifier).Sound (Refuses P) k := by
  cases hname : specifier.child? .name with
  | some name => simp [specifierLine, hname]
  | none =>
    have hallowed : P specifier.location := by
      refine (hs.shaped.name hkind).resolve_left fun hmem => ?_
      have hsome := Node.isSome_child?.mpr hmem
      rw [hname] at hsome
      cases hsome
    rw [specifierLine, hname]
    exact ⟨hkind, hallowed⟩

theorem sound_importLines (module : String) {part : Node} (hp : part.Complete P) :
    (importLines module part).Sound (Refuses P) k := by
  unfold importLines
  split
  · trivial
  · rename_i hkind
    obtain ⟨name, rest, hchildren⟩ := List.exists_cons_of_ne_nil
      (hp.shaped.children_ne_nil (by rw [hkind]; rfl))
    simp [hchildren]
  · refine sound_mapM _ _ fun specifier hs => ?_
    obtain ⟨hmem, hkind⟩ := List.mem_filter.mp hs
    exact sound_specifierLine module (hp.child hmem) (by simpa using hkind)
  · trivial

theorem sound_importStatement (hn : n.Complete P) (hkind : n.kind = .importStatement) :
    (importStatement n).Sound (Refuses P) k := by
  obtain ⟨source, hsource, -⟩ := hn.exists_placed hkind .source (by decide)
  unfold importStatement
  split
  · trivial
  · rename_i clause _ hclauses
    have hclause : clause ∈ n.childrenOf .importClause := by simp [hclauses]
    have hcomplete := hn.child (List.mem_of_mem_filter hclause)
    have hlines (module : String) :
        (clause.children.mapM (importLines module)).Sound (Refuses P) k :=
      sound_mapM _ _ fun part hpart => sound_importLines module (hcomplete.child hpart)
    simp [need_eq hsource, hlines]

end Modules

end EcmaPhp.Emit
