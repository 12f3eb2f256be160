import EcmaPhp.Proofs.Splices
import EcmaPhp.Proofs.Tree.Sites

/-! Jumps keep their targets, except a `continue` whose innermost enclosing construct is a choice:
there PHP's `continue` stays in the choice. -/
namespace EcmaPhp
open Script EmitM Emit

/-- The text of a jump; its label becomes a comment. -/
def Node.jumpText (n : Node) : List Char :=
  let keyword := if n.kind = .breakStatement then "break" else "continue"
  let label := (n.child? .label).elim "" fun label => s!" /* {label.text} */"
  keyword.toList ++ (label.toList ++ [';'])

theorem ownText_jump (n : Node) (keyword : String) :
    (jump n keyword).ownText = keyword.toList ++
      (((n.child? .label).elim "" fun label => s!" /* {label.text} */").toList ++ [';']) := by
  rw [jump]
  cases n.child? .label <;> rfl

theorem ownText_rule {n : Node} {rule : Rule} (hrule : rule? n.kind = some rule)
    (hjump : n.kind.isJump = true) (visit : Visit n) (context : Context) :
    (rule n visit context).ownText = n.jumpText := by
  simp only [Kind.isJump, Bool.or_eq_true, decide_eq_true_eq] at hjump
  rcases hjump with hkind | hkind
  · rw [Node.jumpText, if_pos hkind, ← ownText_jump]
    rw [hkind] at hrule
    cases hrule
    rfl
  · rw [Node.jumpText, if_neg (by simp [hkind]), ← ownText_jump]
    rw [hkind] at hrule
    cases hrule
    rfl

/-- A written jump is one of the source, with the same around it. -/
def Jump.IsAt (j : Jump) (sites : List Site) : Prop :=
  ⟨j.node, j.outer⟩ ∈ sites ∧ j.node.kind.isJump = true ∧ j.text = j.node.jumpText

theorem framed_emitNode (n : Node) :
    Visit.Framed (n := n) fun p c => emitNode p.node c := by
  intro p c
  dsimp only
  rw [emitNode]
  split
  · exact .inr ⟨_, rfl⟩
  · exact .inl ⟨_, _, rfl⟩

section Frames

variable {outer : List Enclosure} {P : Jump → Prop} {b : Bool}

/-- The jumps in a frame that is no jump and begins nothing are those of the script in it. -/
theorem jumps_within {h : Bool} {α : Type} {n : Node} {m : Script h α}
    (hjump : n.kind.isJump = false) (hconstruct : m.construct? = none) (wrapped : Bool)
    (env : EmitEnv) (s : EmitState) :
    ∀ j ∈ (EmitM.within (.node n wrapped) m).jumps env s outer,
      j ∈ m.jumps env ((Frame.node n wrapped).enter s) outer := by
  intro j hj
  rw [EmitM.within, Script.jumps] at hj
  simp only [Frame.jumps, hjump, Bool.false_eq_true, if_false, Frame.enclosing, hconstruct,
    Option.map_none, Option.toList_none, List.nil_append, List.mem_append] at hj
  rcases hj with hj | hj
  · exact hj
  · split at hj <;> cases hj

theorem grounded_ofJumps : (FrameLaw.ofJumps outer P).Grounded where
  lifts := lifts_ofJumps
  bare b n m hkind hm := by
    intro env s wrapped j hj
    have hjump : n.kind.isJump = false := by
      rcases hkind with hkind | hkind | hkind | hkind
      · rw [hkind]; rfl
      · rw [hkind]; rfl
      · rw [hkind]; rfl
      · have hinert := Kind.isInert_of_isDeclaration hkind
        simp only [Kind.isInert, Bool.and_eq_true, Bool.not_eq_true'] at hinert
        exact hinert.2
    rw [EmitM.within, Script.jumps, jumps_eq_nil hm] at hj
    simp only [Frame.jumps, hjump, Bool.false_eq_true, if_false, List.nil_append] at hj
    split at hj <;> cases hj
  declaration b n m hkind hkeyword hm := by
    intro env s wrapped j hj
    have hinert := Kind.isInert_of_isDeclaration hkind
    simp only [Kind.isInert, Bool.and_eq_true, Bool.not_eq_true'] at hinert
    have hconstruct : m.construct? = none := by rw [construct?, hkeyword]; rfl
    exact hm.jumps env _ j (jumps_within hinert.2 hconstruct wrapped env s j hj)

end Frames

/-- Every jump that is written for a node is one of the node. -/
theorem isAt_sites {n : Node} (hn : n.PlainLists) {rule : Rule} (hrule : rule? n.kind = some rule)
    (context : Context) (outer : List Enclosure) (env : EmitEnv) (s : EmitState) (wrapped : Bool) :
    ∀ j ∈ (EmitM.within (.node n wrapped)
      (rule n (fun p c => emitNode p.node c) context)).jumps env s outer, j.IsAt (n.sites outer) := by
  -- The parts of a node weigh less than the node.
  induction hw : n.weight using Nat.strongRecOn generalizing n rule context outer env s wrapped with
  | ind w ih =>
    subst hw
    let around := (n.kind.construct?.map fun c => (⟨c, n⟩ : Enclosure)).toList ++ outer
    have hvisit (b : Bool) (p : Part n) (c : Context) (hp : n.Visits b p.node) :
        (emitNode p.node c).Frames (.ofJumps around (Jump.IsAt · (n.sites outer))) b := by
      obtain ⟨hplain, hsubset⟩ := hp.sites_subset hn outer
      rw [emitNode]
      split
      · trivial
      · rename_i rule' hrule'
        refine frames_around fun env s wrapped j hj => ?_
        obtain ⟨hsite, hjump⟩ := ih _ p.smaller hplain hrule' c _ env s wrapped rfl j hj
        exact ⟨hsubset hsite, hjump⟩
    have hframes := frames_rule grounded_ofJumps hrule (framed_emitNode n) hvisit context
    intro j hj
    rw [EmitM.within, Script.jumps] at hj
    rcases List.mem_append.mp hj with hj | hj
    · rcases List.mem_append.mp hj with hj | hj
      · -- the frame itself is the jump
        rw [Frame.jumps] at hj
        split at hj
        · rename_i hjump
          obtain rfl := List.mem_singleton.mp hj
          exact ⟨Node.mem_sites_self hjump, hjump, ownText_rule hrule hjump _ context⟩
        · cases hj
      · rcases construct?_rule (framed_emitNode n) hrule context with hconstruct | hnever
        · rw [Frame.enclosing, hconstruct] at hj
          exact hframes.jumps env _ j hj
        · rw [jumps_eq_nil hnever] at hj
          cases hj
    · split at hj <;> cases hj

/-- The statements that a node holds itself: those of a block or a case, branches, bodies, and the
members of a class. Accessors and constructors are emitted in another form. -/
def Node.nested (n : Node) : List Node :=
  match n.kind with
  | .program | .statementBlock | .switchBody | .classBody => n.children
  | .ifStatement => (n.child? .consequence).toList ++ (n.child? .alternative).toList
  | .elseClause => n.children.head?.toList
  | .whileStatement | .doStatement | .forStatement | .forInStatement | .switchStatement
  | .labeledStatement | .catchClause | .finallyClause | .functionDeclaration
  | .generatorDeclaration | .classDeclaration => (n.child? .body).toList
  | .methodDefinition =>
    if n.accessor?.isSome || isConstructor n then [] else (n.child? .body).toList
  | .switchCase | .switchDefault => n.childrenIn .body
  | .tryStatement =>
    (n.child? .body).toList ++ (n.child? .handler).toList ++ (n.child? .finalizer).toList
  | .exportStatement => (n.child? .declaration).toList
  | _ => []

/-- A statement below a node, with what is around the two. -/
inductive Node.Reaches : Node → List Enclosure → Node → List Enclosure → Prop where
  | here (n : Node) (outer : List Enclosure) : Reaches n outer n outer
  | inside {n m k : Node} {outer inner : List Enclosure} (hm : m ∈ n.nested)
      (hk : Reaches m (n.enclosing outer) k inner) : Reaches n outer k inner

section Meets

variable {law : FrameLaw} {b : Bool} {n m : Node} {visit : Visit n}

theorem meets_need {f : Field} {k : Part n → EmitM Unit} (hm : n.child? f = some m)
    (hk : ∀ p : Part n, p.node = m → (k p).Meets law b) : (need n f >>= k).Meets law b := by
  refine .right fun p hp => hk p ?_
  have hchild := Node.child?_of_part? (gives_need.mp hp).2
  exact Option.some.inj (hchild.symm.trans hm)

/-- Only directives and declarations of modules are taken from the head of a program. -/
theorem mem_of_gives_moduleHead {parts rest : List (Part n)} (h : (moduleHead parts).Gives rest)
    {p : Part n} (hp : p ∈ parts) (hexpression : p.node.kind ≠ .expressionStatement)
    (hdeclaration : p.node.kind.isDeclaration = false) : p ∈ rest := by
  induction parts with
  | nil => cases hp
  | cons q others ih =>
    have hskip (hq : p ≠ q) : p ∈ others := (List.mem_cons.mp hp).resolve_left hq
    rw [moduleHead] at h
    split at h
    · rename_i hhead
      obtain ⟨_, h⟩ := exists_gives_of_bind h
      refine ih h (hskip ?_)
      rintro rfl
      simp [Node.isStrictDirective, Node.expression?, hexpression] at hhead
    · split at h
      · rename_i hmodules
        obtain ⟨_, h⟩ := exists_gives_of_bind h
        refine ih h (hskip ?_)
        rintro rfl
        simp [Node.declaresModules, hdeclaration] at hmodules
      · obtain rfl : rest = q :: others := h
        exact hp

variable (hv : ∀ p c, p.node = m → (visit p c).Meets law b)
include hv

theorem meets_bracedBody {body : Part n} (hbody : body.node = m) :
    (bracedBody visit body).Meets law b := by
  unfold bracedBody
  split
  · exact .inl (hv body {} hbody)
  · exact .inl (.right fun _ _ => hv body {} hbody)

theorem meets_statements {parts : List (Part n)} (hm : m ∈ parts.map (·.node)) :
    (statements visit parts).Meets law b := by
  obtain ⟨p, hp, hpm⟩ := List.mem_map.mp hm
  exact .right fun _ _ => meets_forM hp (hv p {} hpm)

theorem meets_whileStatement (hm : n.child? .body = some m) :
    (whileStatement n visit).Meets law b :=
  .right fun _ _ => .right fun _ _ => .right fun _ _ => .right fun _ _ =>
    meets_need hm fun _ => meets_bracedBody hv

theorem meets_doStatement (hm : n.child? .body = some m) : (doStatement n visit).Meets law b :=
  .right fun _ _ => meets_need hm fun _ hp => (meets_bracedBody hv hp).left

theorem meets_forStatement (hm : n.child? .body = some m) : (forStatement n visit).Meets law b :=
  .right fun _ _ => .right fun _ _ => .right fun _ _ => meets_need hm fun _ => meets_bracedBody hv

theorem meets_forInStatement (hm : n.child? .body = some m) :
    (forInStatement n visit).Meets law b :=
  .right fun _ _ => .right fun _ _ => .right fun _ _ => .right fun _ _ => .right fun _ _ =>
    .right fun _ _ => meets_need hm fun _ => meets_bracedBody hv

theorem meets_switchStatement (hm : n.child? .body = some m) :
    (switchStatement n visit).Meets law b :=
  .right fun _ _ => .right fun _ _ => .right fun _ _ => .right fun _ _ =>
    meets_need hm fun p => hv p {}

theorem meets_switchBody (hm : m ∈ n.children) : (switchBody n visit).Meets law b :=
  .inl (meets_statements hv (by rwa [Node.map_node_parts]))

theorem meets_caseBody (hm : m ∈ n.childrenIn .body) : (indented (match n.partsIn .body with
    | [] => Pure.pure ()
    | body => do
      emit " "
      statements visit body)).Meets law b := by
  rw [Node.childrenIn, ← n.map_node_parts, List.filter_map] at hm
  have hstatements : (statements visit (n.partsIn .body)).Meets law b := meets_statements hv hm
  cases hparts : n.partsIn .body with
  | nil =>
    rw [Node.partsIn] at hparts
    simp_all [Function.comp_def]
  | cons p rest => exact .inl (.right fun _ _ => hparts ▸ hstatements)

theorem meets_switchCase (hm : m ∈ n.childrenIn .body) : (switchCase n visit).Meets law b := by
  have hbody := meets_caseBody hv hm
  cases hvalue : n.part? .value with
  | none =>
    simp only [switchCase, hvalue]
    exact .right fun _ _ => hbody
  | some value =>
    simp only [switchCase, hvalue]
    exact .right fun _ _ => .right fun _ _ => .right fun _ _ => hbody

theorem meets_ifStatement (hm : n.child? .consequence = some m ∨ n.child? .alternative = some m) :
    (ifStatement n visit).Meets law b := by
  refine .right fun _ _ => .right fun _ _ => .right fun _ _ => .right fun _ _ => ?_
  rcases hm with hm | hm
  · exact meets_need hm fun _ hp => (meets_bracedBody hv hp).left
  · refine .right fun _ _ => .right fun _ _ => ?_
    rw [← Node.map_node_part?] at hm
    obtain ⟨p, hp, hpm⟩ := Option.map_eq_some_iff.mp hm
    rw [hp]
    exact .right fun _ _ => hv p {} hpm

theorem meets_elseClause (hm : n.children.head? = some m) : (elseClause n visit).Meets law b := by
  refine .right fun _ _ => .right fun p hp => ?_
  have hpm : p.node = m := by
    have hhead := (gives_needFirst.mp hp).2
    rw [← Node.map_node_parts, List.head?_map, hhead] at hm
    exact Option.some.inj hm
  split
  · exact hv p {} hpm
  · exact meets_bracedBody hv hpm

theorem meets_tryStatement (hm : n.child? .body = some m ∨ n.child? .handler = some m ∨
    n.child? .finalizer = some m) : (tryStatement n visit).Meets law b := by
  refine .right fun _ _ => ?_
  rcases hm with hm | hm
  · exact meets_need hm fun _ hp => (meets_bracedBody hv hp).left
  · refine .right fun _ _ => .right fun _ _ => ?_
    simp only [← Node.map_node_part?, Option.map_eq_some_iff] at hm
    obtain ⟨p, hp, hpm⟩ : ∃ p : Part n, some p ∈ [n.part? .handler, n.part? .finalizer] ∧
        p.node = m := by
      rcases hm with ⟨p, hp, hpm⟩ | ⟨p, hp, hpm⟩
      · exact ⟨p, by simp [hp], hpm⟩
      · exact ⟨p, by simp [hp], hpm⟩
    exact meets_forM hp (.right fun _ _ => hv p {} hpm)

theorem meets_catchClause (hm : n.child? .body = some m) : (catchClause n visit).Meets law b := by
  refine .inl (.right fun _ _ => .right fun _ _ => ?_)
  have hbody : (do emit ") "; bracedBody visit (← need n .body) : EmitM Unit).Meets law b :=
    .right fun _ _ => meets_need hm fun _ => meets_bracedBody hv
  split
  · exact .right fun _ _ => hbody
  · exact hbody

theorem meets_finallyClause (hm : n.child? .body = some m) :
    (finallyClause n visit).Meets law b :=
  .right fun _ _ => meets_need hm fun _ => meets_bracedBody hv

theorem meets_labeledStatement (hm : n.child? .body = some m) :
    (labeledStatement n visit).Meets law b :=
  meets_need hm fun p => hv p {}

theorem meets_exportStatement (hm : n.child? .declaration = some m) :
    (exportStatement n visit).Meets law b := by
  rw [← Node.map_node_part?] at hm
  obtain ⟨p, hp, hpm⟩ := Option.map_eq_some_iff.mp hm
  unfold exportStatement
  rw [hp]
  exact hv p {} hpm

theorem meets_classDeclaration (hm : n.child? .body = some m) :
    (classDeclaration n visit).Meets law b :=
  .right fun _ _ => meets_need hm fun p hp => .right fun _ _ => .right fun _ _ =>
    .right fun _ _ => .right fun _ _ => .inl (.inl (.inl (hv p {} hp)))

theorem meets_classBody (hm : m ∈ n.children) : (classBody n visit).Meets law b := by
  rw [← Node.map_node_parts] at hm
  obtain ⟨p, hp, hpm⟩ := List.mem_map.mp hm
  refine Meets.left (meets_forM hp ?_)
  unfold classMember
  split
  · exact .inl (hv p {} hpm)
  · exact hv p {} hpm

theorem meets_program (hm : m ∈ n.children) (hhash : m.kind ≠ .hashBangLine)
    (hexpression : m.kind ≠ .expressionStatement) (hdeclaration : m.kind.isDeclaration = false) :
    (program n visit).Meets law b := by
  rw [← Node.map_node_parts] at hm
  obtain ⟨p, hp, rfl⟩ := List.mem_map.mp hm
  have hbody : (do
      let rest ← moduleHead (n.parts.filter (·.node.kind != .hashBangLine))
      statements visit rest : EmitM Unit).Meets law b := by
    refine .right fun rest hrest => meets_statements hv (List.mem_map_of_mem ?_)
    refine mem_of_gives_moduleHead hrest ?_ hexpression hdeclaration
    simp [hp, hhash]
  refine .inl (.right fun options _ => ?_)
  split
  · exact .right fun _ _ => .right fun _ _ => hbody
  · exact hbody

end Meets

section Functions

variable {law : FrameLaw} {b : Bool} {n m : Node} {visit : Visit n}
  (hv : ∀ p c, p.node = m → (visit p c).Meets law true) (hm : n.child? .body = some m)
include hv hm

theorem meets_functionNode (header : String) (form : FunctionForm) :
    (functionNode n visit header form).Meets law b :=
  meets_need hm fun p hp => Meets.left (.inr (.inl (Meets.left (hv p {} hp))))

theorem meets_functionDeclaration : (functionDeclaration n visit).Meets law b := by
  refine .right fun _ _ => .right fun inProgram _ => ?_
  split
  · exact meets_functionNode hv hm _ _
  · exact .right fun _ _ => (meets_functionNode hv hm _ _).left

theorem meets_method (context : Context) (haccessor : n.accessor?.isSome = false)
    (hconstructor : isConstructor n = false) : (method n visit context).Meets law b := by
  refine .right fun name _ => ?_
  simp only [haccessor, hconstructor, Bool.false_eq_true, if_false]
  split
  · trivial
  · split
    · exact .right fun _ _ => meets_functionNode hv hm _ _
    · exact .right fun _ _ => .right fun _ _ => meets_functionNode hv hm _ _

end Functions

/-- Nothing is nested in what the head of a program loses. -/
theorem kept_of_nested {m : Node} (h : m.kind.isJump = true ∨ m.nested ≠ []) :
    m.kind ≠ .hashBangLine ∧ m.kind ≠ .expressionStatement ∧ m.kind.isDeclaration = false := by
  refine ⟨?_, ?_, ?_⟩
  · intro hkind
    simp [hkind, Node.nested, Kind.isJump] at h
  · intro hkind
    simp [hkind, Node.nested, Kind.isJump] at h
  · by_contra hdeclaration
    rw [Bool.not_eq_false] at hdeclaration
    unfold Kind.isDeclaration at hdeclaration
    split at hdeclaration
    · rename_i hkind
      simp [hkind, Node.nested, Kind.isJump] at h
    · rename_i hkind
      simp [hkind, Node.nested, Kind.isJump] at h
    · cases hdeclaration

theorem meets_rule {law : FrameLaw} {n m : Node} {rule : Rule} (hrule : rule? n.kind = some rule)
    (hm : m ∈ n.nested) (hkept : m.kind.isJump = true ∨ m.nested ≠ []) {visit : Visit n}
    (hv : ∀ p c, p.node = m → (visit p c).Meets law n.kind.isFunction) (context : Context) :
    (rule n visit context).Meets law false := by
  obtain ⟨hhash, hexpression, hdeclaration⟩ := kept_of_nested hkept
  have hone {o : Option Node} (h : m ∈ o.toList) : o = some m := Option.mem_toList.mp h
  -- One case for each kind that has statements inside; for the others `hm` is absurd.
  cases hkind : n.kind
  all_goals simp only [Node.nested, hkind, List.not_mem_nil] at hm
  all_goals rw [hkind] at hrule hv; cases hrule
  case program => exact meets_program hv hm hhash hexpression hdeclaration
  case statementBlock => exact meets_statements hv (by rwa [Node.map_node_parts])
  case switchBody => exact meets_switchBody hv hm
  case classBody => exact meets_classBody hv hm
  case ifStatement => exact meets_ifStatement hv ((List.mem_append.mp hm).imp hone hone)
  case elseClause => exact meets_elseClause hv (hone hm)
  case whileStatement => exact meets_whileStatement hv (hone hm)
  case doStatement => exact meets_doStatement hv (hone hm)
  case forStatement => exact meets_forStatement hv (hone hm)
  case forInStatement => exact meets_forInStatement hv (hone hm)
  case switchStatement => exact meets_switchStatement hv (hone hm)
  case labeledStatement => exact meets_labeledStatement hv (hone hm)
  case catchClause => exact meets_catchClause hv (hone hm)
  case finallyClause => exact meets_finallyClause hv (hone hm)
  case functionDeclaration | generatorDeclaration => exact meets_functionDeclaration hv (hone hm)
  case classDeclaration => exact meets_classDeclaration hv (hone hm)
  case methodDefinition =>
    split at hm
    · cases hm
    · rename_i hother
      rw [Bool.not_eq_true, Bool.or_eq_false_iff] at hother
      exact meets_method hv (hone hm) context hother.1 hother.2
  case switchCase | switchDefault => exact meets_switchCase hv hm
  case tryStatement =>
    rw [List.mem_append, List.mem_append, or_assoc] at hm
    exact meets_tryStatement hv (hm.imp hone (Or.imp hone hone))
  case exportStatement => exact meets_exportStatement hv (hone hm)

/-- A run for a node that succeeds writes every jump that is nested in the node. -/
theorem mem_jumps_of_reaches {n k : Node} {outer inner : List Enclosure}
    (hk : n.Reaches outer k inner) (hjump : k.kind.isJump = true) {rule : Rule}
    (hrule : rule? n.kind = some rule) (context : Context) (env : EmitEnv) (s : EmitState)
    (wrapped : Bool) {a : Unit} {t : EmitState}
    (hrun : (rule n (fun p c => emitNode p.node c) context).run env
      ((Frame.node n wrapped).enter s) = .ok a t) :
    ⟨k, k.jumpText, inner⟩ ∈ (EmitM.within (.node n wrapped)
      (rule n (fun p c => emitNode p.node c) context)).jumps env s outer := by
  induction hk generalizing rule context env s wrapped a t with
  | here n outer =>
    rw [EmitM.within, Script.jumps, Frame.jumps, if_pos hjump, ownText_rule hrule hjump]
    simp
  | @inside n m k outer inner hm hk ih =>
    have hkept : m.kind.isJump = true ∨ m.nested ≠ [] := by
      cases hk with
      | here => exact .inl hjump
      | inside hm' _ => exact .inr (List.ne_nil_of_mem hm')
    let around := (n.kind.construct?.map fun c => (⟨c, n⟩ : Enclosure)).toList ++ outer
    have hvisit (p : Part n) (c : Context) (hp : p.node = m) :
        (emitNode p.node c).Meets (.withJump around ⟨k, k.jumpText, inner⟩) n.kind.isFunction := by
      subst hp
      rw [emitNode]
      split
      · trivial
      · rename_i rule' hrule'
        intro tokens
        refine .inl fun env s wrapped a t hrun => ?_
        exact ih hjump hrule' c env s wrapped hrun
    have hmeets := meets_rule hrule hm hkept hvisit context
    have hmem := hmeets.mem_jumps hrun
    rw [EmitM.within, Script.jumps]
    refine List.mem_append_left _ (List.mem_append_right _ ?_)
    rcases construct?_rule (framed_emitNode n) hrule context with hconstruct | hnever
    · rw [Frame.enclosing, hconstruct]
      exact hmem
    · rw [jumps_eq_nil hnever] at hmem
      cases hmem

/-- What a bare jump of PHP leaves or repeats: the innermost loop or choice around it. -/
def Jump.target? (j : Jump) : Option Enclosure :=
  if j.text = "break;".toList ∨ j.text = "continue;".toList then j.outer.head? else none

theorem target?_eq_head? {j : Jump} (htext : j.text = j.node.jumpText)
    (hlabel : j.node.child? .label = none) : j.target? = j.outer.head? := by
  refine if_pos ?_
  rw [htext, Node.jumpText, hlabel]
  by_cases hkind : j.node.kind = .breakStatement
  · exact .inl (by rw [if_pos hkind]; rfl)
  · exact .inr (by rw [if_neg hkind]; rfl)

/-- The innermost loop is what is innermost unless that is a choice. -/
theorem head?_eq_find?_loop_iff (outer : List Enclosure) :
    outer.head? = outer.find? (·.construct = .loop) ↔
      ∀ e ∈ outer.head?, e.construct ≠ .choice := by
  cases outer with
  | nil => simp
  | cons e rest =>
    constructor
    · rintro h _ ⟨⟩
      have hloop : e.construct = .loop := by simpa using List.find?_some h.symm
      simp [hloop]
    · intro h
      have hloop : e.construct = .loop := by
        cases hconstruct : e.construct with
        | loop => rfl
        | choice => exact absurd hconstruct (h e rfl)
      simp [hloop]

/-- The jumps that are written for a program. -/
def emissionJumps (options : Options) (source : String) (tree : Concrete) : List Jump :=
  (emitProgram (.ofConcrete (Text.Utf8.encode source.toList) tree)).jumps
    (emissionEnv options source tree) {} []

theorem isAt_of_mem_emitProgram {root : Node} (hroot : root.PlainLists) (env : EmitEnv)
    (s : EmitState) : ∀ j ∈ (emitProgram root).jumps env s [], j.IsAt (root.sites []) := by
  have hnode : (emitNode root {}).Frames (.ofJumps [] (Jump.IsAt · (root.sites []))) false := by
    rw [emitNode]
    split
    · trivial
    · rename_i rule hrule
      exact frames_around fun env s wrapped => isAt_sites hroot hrule {} [] env s wrapped
  have hprogram : (emitProgram root).Frames (.ofJumps [] (Jump.IsAt · (root.sites []))) false := by
    simp only [emitProgram, frames_bind, frames_emit, frames_getOptions, true_and]
    intro _ _ options _
    split <;> simp [hnode]
  exact hprogram.jumps env s

theorem mem_emitProgram_of_reaches {root k : Node} {inner : List Enclosure}
    (hk : root.Reaches [] k inner) (hjump : k.kind.isJump = true) {env : EmitEnv} {s t : EmitState}
    {a : Unit} (hrun : (emitProgram root).run env s = .ok a t) :
    ⟨k, k.jumpText, inner⟩ ∈ (emitProgram root).jumps env s [] := by
  have hnode : (emitNode root {}).Meets (.withJump [] ⟨k, k.jumpText, inner⟩) false := by
    rw [emitNode]
    split
    · trivial
    · rename_i rule hrule
      intro tokens
      refine .inl fun env s wrapped a t hrun => ?_
      exact mem_jumps_of_reaches hk hjump hrule {} env s wrapped hrun
  have hprogram : (emitProgram root).Meets (.withJump [] ⟨k, k.jumpText, inner⟩) false := by
    refine .right fun _ _ => .right fun options _ => ?_
    split
    · exact .right fun _ _ => hnode
    · exact hnode
  exact hprogram.mem_jumps hrun

/-- Every jump that is written for a program is one of its source, and every jump that is nested in
its statements is written. An unlabelled `break` keeps its target. An unlabelled `continue` keeps it
unless the innermost construct around it is a choice. -/
theorem jumps_keep_targets (options : Options) (source text : String) (tree : Concrete)
    (htext : (toPhp options source tree).result = .ok text)
    (hlists : (Node.ofConcrete (Text.Utf8.encode source.toList) tree).PlainLists) :
    (∀ j ∈ emissionJumps options source tree, j.node.child? .label = none →
      ∃ site ∈ (Node.ofConcrete (Text.Utf8.encode source.toList) tree).sites [],
        site.jump = j.node ∧
        (j.node.kind = .breakStatement ∧ j.text = "break;".toList ∧ j.target? = site.target? ∨
          j.node.kind = .continueStatement ∧ j.text = "continue;".toList ∧
            (j.target? = site.target? ↔ ∀ e ∈ site.outer.head?, e.construct ≠ .choice))) ∧
      ∀ k inner, (Node.ofConcrete (Text.Utf8.encode source.toList) tree).Reaches [] k inner →
        k.kind.isJump = true →
        ⟨k, k.jumpText, inner⟩ ∈ emissionJumps options source tree := by
  obtain ⟨t, hruns, -⟩ := runs_of_toPhp htext
  refine ⟨fun j hj hlabel => ?_, fun k inner hk hjump =>
    mem_emitProgram_of_reaches hk hjump hruns.run_eq.1⟩
  obtain ⟨hsite, hjump, hjumpText⟩ := isAt_of_mem_emitProgram hlists _ _ j hj
  refine ⟨⟨j.node, j.outer⟩, hsite, rfl, ?_⟩
  have htarget := target?_eq_head? hjumpText hlabel
  rw [hjumpText, htarget, Node.jumpText, hlabel]
  simp only [Kind.isJump, Bool.or_eq_true, decide_eq_true_eq] at hjump
  rcases hjump with hkind | hkind
  · refine .inl ⟨hkind, ?_, ?_⟩
    · rw [if_pos hkind]
      rfl
    · simp [Site.target?, hkind]
  · refine .inr ⟨hkind, ?_, ?_⟩
    · rw [if_neg (by simp [hkind])]
      rfl
    · rw [Site.target?, if_pos hkind]
      exact head?_eq_find?_loop_iff j.outer

open Concrete in
/-- A choice in a loop; one of its cases leaves it, the other repeats the loop. -/
def switchedTree : Concrete :=
  let named (pos : Nat) : List Concrete :=
    [token "(" (pos - 1) pos, branch "identifier" pos (pos + 1) none [],
      token ")" (pos + 1) (pos + 2)]
  branch "program" 0 62 none
    [branch "while_statement" 0 62 none
      [token "while" 0 5,
        branch "parenthesized_expression" 6 9 (some "condition") (named 7),
        branch "statement_block" 10 62 (some "body")
          [token "\x7b" 10 11,
            branch "switch_statement" 12 60 none
              [token "switch" 12 18,
                branch "parenthesized_expression" 19 22 (some "value") (named 20),
                branch "switch_body" 23 60 (some "body")
                  [token "\x7b" 23 24,
                    branch "switch_case" 25 39 none
                      [token "case" 25 29, branch "number" 30 31 (some "value") [],
                        token ":" 31 32,
                        branch "break_statement" 33 39 (some "body")
                          [token "break" 33 38, token ";" 38 39]],
                    branch "switch_default" 40 58 none
                      [token "default" 40 47, token ":" 47 48,
                        branch "continue_statement" 49 58 (some "body")
                          [token "continue" 49 57, token ";" 57 58]],
                    token "\x7d" 59 60]],
            token "\x7d" 61 62]]]

def switchedSource : String :=
  "while (x) \x7b switch (y) \x7b case 1: break; default: continue; \x7d \x7d"

def switchedText : String :=
  "<?php\nwhile ($x) \x7b switch ($y) \x7bcase 1: break;default: continue;\x7d \x7d"

theorem jumps_keep_targets_switched :
    (toPhp {} switchedSource switchedTree).result = .ok switchedText ∧
      (∃ j ∈ emissionJumps {} switchedSource switchedTree,
        ∃ site ∈ (Node.ofConcrete (Text.Utf8.encode switchedSource.toList) switchedTree).sites [],
          site.jump = j.node ∧ j.node.kind = .breakStatement ∧ j.target? = site.target?) ∧
      ∃ j ∈ emissionJumps {} switchedSource switchedTree,
        ∃ site ∈ (Node.ofConcrete (Text.Utf8.encode switchedSource.toList) switchedTree).sites [],
          site.jump = j.node ∧ j.node.kind = .continueStatement ∧ j.target? ≠ site.target? := by
  have htext : (toPhp {} switchedSource switchedTree).result = .ok switchedText := by
    decide +kernel
  obtain ⟨hkept, -⟩ := jumps_keep_targets {} switchedSource switchedText switchedTree htext
    (by decide +kernel)
  have hbreak : ∃ j ∈ emissionJumps {} switchedSource switchedTree,
      j.node.kind = .breakStatement ∧ (j.node.child? .label).isNone = true := by decide +kernel
  have hcontinue : ∃ j ∈ emissionJumps {} switchedSource switchedTree,
      j.node.kind = .continueStatement ∧ (j.node.child? .label).isNone = true := by decide +kernel
  have hsites : ∀ site ∈ (Node.ofConcrete (Text.Utf8.encode switchedSource.toList)
      switchedTree).sites [], site.outer.map (·.construct) = [.choice, .loop] := by decide +kernel
  refine ⟨htext, ?_, ?_⟩
  · obtain ⟨j, hj, hkind, hlabel⟩ := hbreak
    obtain ⟨site, hsite, hjump, h⟩ := hkept j hj (Option.isNone_iff_eq_none.mp hlabel)
    simp only [hkind, reduceCtorEq, false_and, or_false, true_and] at h
    exact ⟨j, hj, site, hsite, hjump, hkind, h.2⟩
  · obtain ⟨j, hj, hkind, hlabel⟩ := hcontinue
    obtain ⟨site, hsite, hjump, h⟩ := hkept j hj (Option.isNone_iff_eq_none.mp hlabel)
    simp only [hkind, reduceCtorEq, false_and, false_or, true_and] at h
    refine ⟨j, hj, site, hsite, hjump, hkind, fun heq => ?_⟩
    have houter := hsites site hsite
    cases hparts : site.outer with
    | nil => simp [hparts] at houter
    | cons e rest =>
      rw [hparts] at houter h
      exact h.2.mp heq e rfl (List.cons.inj houter).1

end EcmaPhp
