import EcmaPhp.Proofs.Builtin.Purity
import EcmaPhp.Proofs.Scope.Resolution

/-! What a binding target declares: each of its names, from left to right, unless the scope has a
definition of the name already. -/
namespace EcmaPhp

namespace Node

/-- A binding target with the names that it binds from left to right, each with the node for it. -/
inductive Binds : Node → List (String × Node) → Prop where
  | name {n : Node}
      (hkind : n.kind = .identifier ∨ n.kind = .shorthandProperty ∨ n.kind = .shorthandPattern) :
      Binds n [(n.text, n)]
  /-- A field of `this`. -/
  | field {n object property : Node} (hkind : n.kind = .memberExpression)
      (hobject : n.child? .object = some object) (hthis : object.kind = .thisValue)
      (hproperty : n.child? .property = some property) :
      Binds n [("this." ++ property.publicName, n)]
  | hole {n : Node} (hkind : n.kind = .elision) : Binds n []
  | pair {n value : Node} {bs : List (String × Node)} (hkind : n.kind = .pairPattern)
      (hvalue : n.child? .value = some value) (h : Binds value bs) : Binds n bs
  | withDefault {n left : Node} {bs : List (String × Node)}
      (hkind : n.kind = .assignmentPattern ∨ n.kind = .objectAssignmentPattern)
      (hleft : n.child? .left = some left) (h : Binds left bs) : Binds n bs
  | rest {n target : Node} {others : List Node} {bs : List (String × Node)}
      (hkind : n.kind = .restPattern) (hchildren : n.children = target :: others)
      (h : Binds target bs) : Binds n bs
  | pattern {n : Node} (names : Node → List (String × Node))
      (hkind : n.kind = .objectPattern ∨ n.kind = .arrayPattern)
      (h : ∀ c ∈ n.children, Binds c (names c)) : Binds n (n.children.flatMap names)

/-- A binding target by itself or as the name of a declarator. A declarator stands for its name if
that is a plain one. -/
inductive Declares : Node → List (String × Node) → Prop where
  | target {n : Node} {bs : List (String × Node)} (h : Binds n bs) : Declares n bs
  | plain {n name : Node} (hkind : n.kind = .variableDeclarator)
      (hname : n.child? .name = some name) (hplain : name.kind = .identifier) :
      Declares n [(name.text, n)]
  | destructuring {n name : Node} {bs : List (String × Node)} (hkind : n.kind = .variableDeclarator)
      (hname : n.child? .name = some name) (hplain : name.kind ≠ .identifier)
      (h : Binds name bs) : Declares n bs

section Names

variable {n c target : Node} {f : Field} {bs : List (String × Node)}

theorem exists_part?_of_child? (h : n.child? f = some c) : ∃ p, n.part? f = some p ∧ p.node = c := by
  rw [← map_node_part?] at h
  exact Option.map_eq_some_iff.mp h

theorem exists_parts_eq_cons {others : List Node} (h : n.children = target :: others) :
    ∃ p rest, n.parts = p :: rest ∧ p.node = target := by
  rw [← map_node_parts] at h
  obtain ⟨p, rest, hparts, hp, -⟩ := List.map_eq_cons_iff.mp h
  exact ⟨p, rest, hparts, hp⟩

theorem bindings_of_key {key : String} (h : n.bindingKey? = some key) :
    n.bindings = [(key, n)] ∧ n.hasNames = true := by
  rw [bindings, hasNames, h]
  exact ⟨rfl, rfl⟩

/-- A pattern binds what its elements bind. -/
theorem bindings_of_pattern (hkind : n.kind = .objectPattern ∨ n.kind = .arrayPattern)
    (hchildren : ∀ c ∈ n.children, c.hasNames = true) :
    n.bindings = n.children.flatMap bindings ∧ n.hasNames = true := by
  have hkey : n.bindingKey? = none := by
    rcases hkind with hkind | hkind <;> simp [bindingKey?, hkind]
  have hbindings : n.bindings = n.parts.flatMap fun p => p.node.bindings := by
    rw [bindings, hkey]
    rcases hkind with hkind | hkind <;> rw [hkind]
  have hnames : n.hasNames = n.parts.all fun p => p.node.hasNames := by
    rw [hasNames, hkey]
    rcases hkind with hkind | hkind <;> rw [hkind] <;> rfl
  constructor
  · rw [hbindings, ← map_node_parts, List.flatMap_map]
  · rw [hnames, List.all_eq_true]
    intro p hp
    have hmem := List.mem_map_of_mem (f := Part.node) hp
    rw [map_node_parts] at hmem
    exact hchildren p.node hmem

/-- A target has all its names, and binds them. -/
theorem Binds.bindings_eq (h : n.Binds bs) : n.bindings = bs ∧ n.hasNames = true := by
  induction h with
  | name hkind =>
    apply bindings_of_key
    rcases hkind with hkind | hkind | hkind <;> simp [bindingKey?, hkind]
  | field hkind hobject hthis hproperty =>
    apply bindings_of_key
    simp [bindingKey?, hkind, hobject, hthis, hproperty]
  | hole hkind =>
    rw [bindings, hasNames]
    simp [bindingKey?, hkind]
  | pair hkind hvalue _ ih =>
    obtain ⟨p, hp, rfl⟩ := exists_part?_of_child? hvalue
    rw [bindings, hasNames]
    simp [bindingKey?, hkind, hp, ih]
  | withDefault hkind hleft _ ih =>
    obtain ⟨p, hp, rfl⟩ := exists_part?_of_child? hleft
    rw [bindings, hasNames]
    rcases hkind with hkind | hkind <;> simp [bindingKey?, hkind, hp, ih]
  | rest hkind hchildren _ ih =>
    obtain ⟨p, rest, hparts, rfl⟩ := exists_parts_eq_cons hchildren
    rw [bindings, hasNames]
    simp [bindingKey?, hkind, hparts, ih]
  | pattern names hkind _ ih =>
    obtain ⟨hbindings, hnames⟩ := bindings_of_pattern hkind fun c hc => (ih c hc).2
    rw [hbindings]
    exact ⟨List.flatMap_congr fun c hc => (ih c hc).1, hnames⟩

theorem Declares.bindings_eq (h : n.Declares bs) : n.bindings = bs ∧ n.hasNames = true := by
  cases h with
  | target h => exact h.bindings_eq
  | plain hkind hname hplain =>
    obtain ⟨p, hp, rfl⟩ := exists_part?_of_child? hname
    obtain ⟨-, hnames⟩ := (Binds.name (.inl hplain)).bindings_eq
    rw [bindings, hasNames]
    simp [bindingKey?, hkind, hp, hplain, hnames]
  | destructuring hkind hname hplain h =>
    obtain ⟨p, hp, rfl⟩ := exists_part?_of_child? hname
    obtain ⟨hbindings, hnames⟩ := h.bindings_eq
    rw [bindings, hasNames]
    simp [bindingKey?, hkind, hp, hplain, hbindings, hnames]

theorem Declares.accessor?_eq_none (h : n.Declares bs) : n.accessor? = none := by
  have hkind : n.kind ≠ .methodDefinition := by
    intro hmethod
    cases h with
    | target h => cases h <;> simp_all
    | plain hkind => simp_all
    | destructuring hkind => simp_all
  simp [accessor?, hkind]

end Names

section Order

variable {n c : Node} {bs : List (String × Node)}

theorem preorderAll_eq_flatMap (ns : List Node) : preorderAll ns = ns.flatMap preorder := by
  induction ns with
  | nil => rfl
  | cons n rest ih => rw [preorderAll, ih, List.flatMap_cons]

theorem preorder_sublist_of_mem (h : c ∈ n.children) : c.preorder.Sublist n.preorder := by
  rw [preorder_eq n, preorderAll_eq_flatMap, List.flatMap]
  exact (List.sublist_flatten_of_mem (List.mem_map_of_mem h)).cons n

theorem singleton_sublist_preorder (n : Node) : [n].Sublist n.preorder := by
  rw [preorder_eq]
  exact List.singleton_sublist.mpr List.mem_cons_self

/-- The nodes of the names stand in the target in the order of the names. -/
theorem Binds.sublist_preorder (h : n.Binds bs) : (bs.map (·.2)).Sublist n.preorder := by
  induction h with
  | name => exact singleton_sublist_preorder _
  | field => exact singleton_sublist_preorder _
  | hole => exact List.nil_sublist _
  | pair _ hvalue _ ih => exact ih.trans (preorder_sublist_of_mem (mem_children_of_child? hvalue))
  | withDefault _ hleft _ ih =>
    exact ih.trans (preorder_sublist_of_mem (mem_children_of_child? hleft))
  | rest _ hchildren _ ih =>
    exact ih.trans (preorder_sublist_of_mem (by rw [hchildren]; exact List.mem_cons_self))
  | @pattern n names _ _ ih =>
    rw [preorder_eq, preorderAll_eq_flatMap, List.map_flatMap]
    refine List.Sublist.cons n ?_
    generalize n.children = ns at ih
    induction ns with
    | nil => exact List.nil_sublist _
    | cons c rest ihRest =>
      obtain ⟨hc, hrest⟩ := List.forall_mem_cons.mp ih
      rw [List.flatMap_cons, List.flatMap_cons]
      exact hc.append (ihRest hrest)

theorem Declares.sublist_preorder (h : n.Declares bs) : (bs.map (·.2)).Sublist n.preorder := by
  cases h with
  | target h => exact h.sublist_preorder
  | plain => exact singleton_sublist_preorder _
  | destructuring _ hname _ h =>
    exact h.sublist_preorder.trans (preorder_sublist_of_mem (mem_children_of_child? hname))

end Order

end Node

namespace Scope

/-- Of several bindings, the first for each name that a scope has no definition of. -/
def newBindings (s : Scope) (bs : List (String × Node)) : List (String × Node) :=
  (bs.filter fun b => !s.defines b.1).eraseDupsBy fun b c => b.1 == c.1

theorem newBindings_cons_of_defines {s : Scope} {b : String × Node} (h : s.defines b.1 = true)
    (bs : List (String × Node)) : s.newBindings (b :: bs) = s.newBindings bs := by
  simp [newBindings, h]

/-- A new name counts as defined from its first binding on. -/
theorem newBindings_cons_of_not_defines {s : Scope} {b : String × Node} (h : s.defines b.1 = false)
    (bs : List (String × Node)) :
    s.newBindings (b :: bs) = b :: (s.define b.1 b.2).newBindings bs := by
  have hfilter : (bs.filter fun c => !s.defines c.1).filter (fun c => (c.1 == b.1) = false) =
      bs.filter fun c => !(s.define b.1 b.2).defines c.1 := by
    rw [List.filter_filter]
    congr 1
    funext c
    rw [Bool.eq_iff_iff]
    simp [define, h, defines_eq_true_iff, and_comm, Bool.eq_false_iff]
  rw [newBindings, newBindings, List.filter_cons_of_pos (by simp [h]), List.eraseDupsBy_cons, hfilter]

theorem defineAll_eq (s : Scope) (bs : List (String × Node)) :
    s.defineAll bs = { s with definitions := s.definitions ++ s.newBindings bs } := by
  induction bs generalizing s with
  | nil => simp [defineAll, newBindings]
  | cons b rest ih =>
    change (s.define b.1 b.2).defineAll rest = _
    rw [ih]
    cases h : s.defines b.1 with
    | true => rw [newBindings_cons_of_defines h, define, if_pos h]
    | false =>
      rw [newBindings_cons_of_not_defines h]
      simp [define, h]

end Scope

/-- A binding target has all its names, so it can be declared wherever there is a scope. It gives its
names from left to right. The current scope keeps its definitions and gets, behind them, one for each
new name, in the order in which the names come first and each with the node that binds it first; no
other scope and nothing else of this one changes. -/
theorem Registry.target_defines_new_names {n : Node} {bs : List (String × Node)} (h : n.Declares bs)
    (r : Registry) (i : Fin r.size) (hcurrent : r.current = some i) :
    r.chain.accepts n = true ∧
      n.bindings.map (·.1) = bs.map (·.1) ∧ (bs.map (·.2)).Sublist n.preorder ∧
      r.step (.register n) =
        { r with
          scope := Function.update r.scope i
            { r.scope i with
              definitions := (r.scope i).definitions ++ (r.scope i).newBindings bs } } := by
  obtain ⟨hbindings, hnames⟩ := h.bindings_eq
  have hpath : r.path = i.val :: r.outer i := by rw [path, hcurrent]; rfl
  have hchain : r.chain = r.scope i :: (r.outer i).map r.scope := by rw [chain, hpath, List.map_cons]
  refine ⟨?_, by rw [hbindings], h.sublist_preorder, ?_⟩
  · simp [Scopes.accepts, hnames, hchain]
  · have hregister : r.chain.register n =
        (r.scope i).defineAll bs :: (r.outer i).map r.scope := by
      rw [Scopes.register, h.accessor?_eq_none, hbindings, hchain]
      rfl
    change r.write (r.chain.register n) = _
    rw [write, hregister, hpath, assign, assign_map_self, Scope.defineAll_eq]

namespace Node

theorem Binds.self {n : Node} {bs : List (String × Node)} (h : n.Binds bs) : n.Binds n.bindings := by
  rw [h.bindings_eq.1]
  exact h

def variableNamed (name : String) : Node := { kind := .identifier, text := name }

/-- The pattern `[c, , ...x]`. -/
def innerPattern : Node :=
  { kind := .arrayPattern
    field := some .value
    children := [
      variableNamed "c", { kind := .elision },
      { kind := .restPattern, children := [variableNamed "x"] }] }

/-- The pattern `{a, b: [c, , ...x]}`. -/
def nestedPattern : Node :=
  { kind := .objectPattern
    field := some .name
    children := [
      { kind := .shorthandPattern, text := "a" },
      { kind := .pairPattern
        children := [
          { kind := .propertyIdentifier, field := some .key, text := "b" }, innerPattern] }] }

theorem binds_variableNamed (name : String) :
    (variableNamed name).Binds [(name, variableNamed name)] :=
  .name (.inl rfl)

theorem binds_innerPattern : innerPattern.Binds innerPattern.bindings := by
  refine (Binds.pattern bindings (.inr rfl) ?_).self
  simp only [innerPattern, List.forall_mem_cons, List.not_mem_nil, false_implies, implies_true,
    and_true]
  exact ⟨(binds_variableNamed "c").self, (Binds.hole rfl).self,
    (Binds.rest rfl rfl (binds_variableNamed "x")).self⟩

theorem binds_nestedPattern : nestedPattern.Binds nestedPattern.bindings := by
  refine (Binds.pattern bindings (.inl rfl) ?_).self
  simp only [nestedPattern, List.forall_mem_cons, List.not_mem_nil, false_implies, implies_true,
    and_true]
  exact ⟨(Binds.name (.inr (.inr rfl))).self, (Binds.pair rfl rfl binds_innerPattern).self⟩

end Node

open Node in
/-- A scope that has a definition of `x` already declares the pattern. -/
theorem Registry.target_defines_new_names_nested :
    let r := Registry.run [.enter .program, .register (variableNamed "x")]
    let n : Node := { kind := .variableDeclarator, children := [nestedPattern] }
    n.Declares nestedPattern.bindings ∧ r.chain.accepts n = true ∧
      n.bindings.map (·.1) = ["a", "c", "x"] ∧
      (r.step (.register n)).scope 0 =
        { r.scope 0 with
          definitions := (r.scope 0).definitions ++ (r.scope 0).newBindings nestedPattern.bindings } ∧
      ((r.step (.register n)).scope 0).definitions.map (·.1) = ["x", "a", "c"] := by
  intro r n
  have hdeclares : n.Declares nestedPattern.bindings :=
    .destructuring rfl rfl (by decide) binds_nestedPattern
  obtain ⟨haccepts, -, -, hstep⟩ :=
    Registry.target_defines_new_names hdeclares r ⟨0, by decide⟩ (by decide +kernel)
  refine ⟨hdeclares, haccepts, by decide +kernel, ?_, by decide +kernel⟩
  simp [hstep]

end EcmaPhp
