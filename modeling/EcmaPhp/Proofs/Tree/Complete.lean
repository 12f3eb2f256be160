import EcmaPhp.Proofs.Builtin.Purity
import EcmaPhp.Proofs.Source.Leaves
import EcmaPhp.Proofs.Tree.OfConcrete
import EcmaPhp.Emit.FieldComments

/-! Trees in which every node has what the grammar of the source gives to its kind, as far as a rule
of emission asks for it. -/
namespace EcmaPhp

/-- A child as its parent sees it. -/
structure Slot where
  field : Option Field
  kind : Kind
  deriving DecidableEq, Repr

namespace Kind

/-- The fields that no node of a kind lacks. -/
def fields : Kind → List Field
  | .variableDeclarator => [.name]
  | .functionDeclaration | .generatorDeclaration | .classDeclaration | .methodDefinition =>
    [.name, .body]
  | .function | .functionExpression | .generatorFunction | .arrowFunction | .forStatement
  | .labeledStatement | .tryStatement | .catchClause | .finallyClause => [.body]
  | .fieldDefinition => [.property]
  | .pair | .pairPattern => [.key, .value]
  | .assignmentPattern | .objectAssignmentPattern | .assignmentExpression | .augmentedAssignment
  | .binaryExpression => [.left, .right]
  | .memberExpression => [.object, .property]
  | .subscriptExpression => [.object, .index]
  | .callExpression => [.function, .arguments]
  | .newExpression => [.constructor]
  | .unaryExpression | .updateExpression => [.argument]
  | .ternaryExpression => [.condition, .consequence, .alternative]
  | .ifStatement => [.condition, .consequence]
  | .whileStatement | .doStatement => [.condition, .body]
  | .forInStatement => [.left, .right, .body]
  | .switchStatement => [.value, .body]
  | .importStatement => [.source]
  | .regex => [.pattern]
  | _ => []

/-- A kind whose nodes have a child, be it in a field or not. -/
def hasChild : Kind → Bool
  | .elseClause | .throwStatement | .namespaceImport | .templateSubstitution | .spreadElement
  | .restPattern | .computedPropertyName | .awaitExpression => true
  | _ => false

/-- A kind whose nodes can have methods among their children. -/
def holdsMethods : Kind → Bool
  | .classBody | .object => true
  | _ => false

/-- Whether what a node has in a field is a list of parameters, of arguments or of the statements of
a method. -/
def holdsList (kind : Kind) : Option Field → Bool
  | some .parameters | some .parameter | some .arguments => true
  | some .body => kind = .methodDefinition
  | _ => false

theorem fields_of_isFunctionDeclaration {kind : Kind} (h : kind.isFunctionDeclaration = true) :
    kind.fields = [.name, .body] := by
  unfold isFunctionDeclaration at h
  split at h
  · rfl
  · rfl
  · cases h

theorem fields_of_isFunctionExpression {kind : Kind} (h : kind.isFunctionExpression = true) :
    kind.fields = [.body] := by
  unfold isFunctionExpression at h
  split at h
  · rfl
  · rfl
  · rfl
  · rfl
  · cases h

/-- What can have methods may also be empty. -/
theorem of_holdsMethods {kind : Kind} (h : kind.holdsMethods = true) :
    kind.fields = [] ∧ kind.hasChild = false := by
  unfold holdsMethods at h
  split at h
  · exact ⟨rfl, rfl⟩
  · exact ⟨rfl, rfl⟩
  · cases h

theorem holdsMethods_of_mem_fields {kind : Kind} {f : Field} (h : f ∈ kind.fields) :
    kind.holdsMethods = false := by
  rw [← Bool.not_eq_true]
  intro hholds
  simp [(of_holdsMethods hholds).1] at h

theorem holdsMethods_of_hasChild {kind : Kind} (h : kind.hasChild = true) :
    kind.holdsMethods = false := by
  rw [← Bool.not_eq_true]
  intro hholds
  simp [(of_holdsMethods hholds).2] at h

/-- Children that a node of a kind can have. -/
structure Shape (kind : Kind) (slots : List Slot) : Prop where
  fields : ∀ f ∈ kind.fields, some f ∈ slots.map (·.field)
  first : kind.hasChild = true → slots ≠ []
  methods : kind.holdsMethods = false → ∀ s ∈ slots, s.kind ≠ .methodDefinition
  lists : ∀ s ∈ slots, kind.holdsList s.field = true →
    s.kind.holdsMethods = false ∧ s.kind ≠ .parenthesized

instance (kind : Kind) (slots : List Slot) : Decidable (kind.Shape slots) :=
  decidable_of_iff
    ((∀ f ∈ kind.fields, some f ∈ slots.map (·.field)) ∧ (kind.hasChild = true → slots ≠ []) ∧
      (kind.holdsMethods = false → ∀ s ∈ slots, s.kind ≠ .methodDefinition) ∧
      ∀ s ∈ slots, kind.holdsList s.field = true →
        s.kind.holdsMethods = false ∧ s.kind ≠ .parenthesized)
    ⟨fun ⟨hfields, hfirst, hmethods, hlists⟩ => ⟨hfields, hfirst, hmethods, hlists⟩,
      fun h => ⟨h.fields, h.first, h.methods, h.lists⟩⟩

end Kind

namespace Node

def slot (n : Node) : Slot := ⟨n.field, n.kind⟩

def slots (n : Node) : List Slot := n.children.map slot

/-- A node that has all that its kind asks for; only an import specifier at a location of `P` may
lack its name. -/
structure Shaped (P : Location → Prop) (n : Node) : Prop where
  shape : n.kind.Shape n.slots
  text : n.kind = .string → n.text ≠ ""
  name : n.kind = .importSpecifier → some .name ∈ n.slots.map (·.field) ∨ P n.location

/-- A tree in which every node has all that its kind asks for. -/
inductive Complete (P : Location → Prop) : Node → Prop
  | node {n : Node} (shaped : n.Shaped P) (children : ∀ c ∈ n.children, Complete P c) :
    Complete P n

variable {P : Location → Prop} {n m c : Node} {f : Field} {p : Part n}

theorem isSome_child? : (n.child? f).isSome = true ↔ some f ∈ n.slots.map (·.field) := by
  simp [child?, slots, slot]

theorem mem_children_of_mem_parts (h : p ∈ n.parts) : p.node ∈ n.children := by
  rw [← n.map_node_parts]
  exact List.mem_map_of_mem h

theorem mem_parts_of_part? (h : n.part? f = some p) : p ∈ n.parts := List.mem_of_find?_eq_some h

theorem Shaped.exists_part? (h : n.Shaped P) (hf : f ∈ n.kind.fields) :
    ∃ p, n.part? f = some p := by
  have hsome := isSome_child?.mpr (h.shape.fields f hf)
  rwa [← map_node_part?, Option.isSome_map, Option.isSome_iff_exists] at hsome

theorem Shaped.exists_child? (h : n.Shaped P) (hf : f ∈ n.kind.fields) :
    ∃ c, n.child? f = some c :=
  Option.isSome_iff_exists.mp (isSome_child?.mpr (h.shape.fields f hf))

theorem Shaped.children_ne_nil (h : n.Shaped P) (hchild : n.kind.hasChild = true) :
    n.children ≠ [] := by
  simpa [slots] using h.shape.first hchild

theorem Complete.shaped (h : n.Complete P) : n.Shaped P := by
  cases h with
  | node shaped _ => exact shaped

theorem Complete.child (h : n.Complete P) (hc : c ∈ n.children) : c.Complete P := by
  cases h with
  | node _ children => exact children c hc

theorem Complete.of_child? (h : n.Complete P) (hc : n.child? f = some c) : c.Complete P :=
  h.child (mem_children_of_child? hc)

/-- The names of a node come from parts that it has. -/
theorem Complete.hasNames (h : n.Complete P) : n.hasNames = true := by
  induction h with
  | @node n shaped children ih =>
    have hpart {p : Part n} (hp : p ∈ n.parts) : p.node.hasNames = true :=
      ih p.node (mem_children_of_mem_parts hp)
    have hfield {f : Field} (hf : f ∈ n.kind.fields) :
        ∃ p, n.part? f = some p ∧ p.node.hasNames = true := by
      obtain ⟨p, hp⟩ := shaped.exists_part? hf
      exact ⟨p, hp, hpart (mem_parts_of_part? hp)⟩
    rw [Node.hasNames, Bool.or_eq_true]
    right
    cases hkind : n.kind with
    | variableDeclarator =>
      obtain ⟨name, hname, hnames⟩ := hfield (f := .name) (by simp [hkind, Kind.fields])
      simp [hname, hnames]
    | objectPattern => simpa using fun p => hpart
    | arrayPattern => simpa using fun p => hpart
    | pairPattern =>
      obtain ⟨value, hvalue, hnames⟩ := hfield (f := .value) (by simp [hkind, Kind.fields])
      simp [hvalue, hnames]
    | assignmentPattern =>
      obtain ⟨left, hleft, hnames⟩ := hfield (f := .left) (by simp [hkind, Kind.fields])
      simp [hleft, hnames]
    | objectAssignmentPattern =>
      obtain ⟨left, hleft, hnames⟩ := hfield (f := .left) (by simp [hkind, Kind.fields])
      simp [hleft, hnames]
    | restPattern =>
      cases hparts : n.parts with
      | nil => rfl
      | cons first rest => exact hpart (by simp [hparts])
    | methodDefinition =>
      obtain ⟨name, hname⟩ := shaped.exists_child? (f := .name) (by simp [hkind, Kind.fields])
      simp [hname]
    | fieldDefinition =>
      obtain ⟨property, hproperty⟩ :=
        shaped.exists_child? (f := .property) (by simp [hkind, Kind.fields])
      simp [hproperty]
    | classDeclaration =>
      obtain ⟨name, hname⟩ := shaped.exists_child? (f := .name) (by simp [hkind, Kind.fields])
      simp [hname]
    | functionDeclaration =>
      obtain ⟨name, hname⟩ := shaped.exists_child? (f := .name) (by simp [hkind, Kind.fields])
      simp [hname]
    | generatorDeclaration =>
      obtain ⟨name, hname⟩ := shaped.exists_child? (f := .name) (by simp [hkind, Kind.fields])
      simp [hname]
    | _ => rfl

/-- Completeness does not depend on comments, nor on the field that holds the node. -/
theorem Complete.congr (h : n.Complete P) (hkind : m.kind = n.kind)
    (hlocation : m.location = n.location) (htext : m.text = n.text)
    (hchildren : m.children = n.children) : m.Complete P := by
  have hslots : m.slots = n.slots := by rw [slots, hchildren, slots]
  have hshaped := h.shaped
  refine .node ⟨?_, ?_, ?_⟩ ?_
  · rw [hkind, hslots]
    exact hshaped.shape
  · rw [hkind, htext]
    exact hshaped.text
  · rw [hkind, hslots, hlocation]
    exact hshaped.name
  · intro c hc
    exact h.child (hchildren ▸ hc)

theorem exists_takeBlockComments (s : Node) :
    ∃ leading skipped, s.takeBlockComments.1 = { s with leading, skipped } := by
  unfold takeBlockComments
  dsimp only
  split
  · exact ⟨_, _, rfl⟩
  · cases s
    exact ⟨_, _, rfl⟩

theorem map_slot_takeFieldComments (known : List String) (ns : List Node) :
    (takeFieldComments known ns).1.map slot = ns.map slot := by
  induction ns generalizing known with
  | nil => rfl
  | cons s rest ih =>
    unfold takeFieldComments
    split
    · simp [ih]
    · split
      · simp [ih]
      · obtain ⟨leading, skipped, htaken⟩ := s.exists_takeBlockComments
        simp [ih, htaken, slot]

theorem complete_takeFieldComments {ns : List Node} (h : ∀ n ∈ ns, n.Complete P)
    (known : List String) : ∀ n ∈ (takeFieldComments known ns).1, n.Complete P := by
  induction ns generalizing known with
  | nil => exact h
  | cons s rest ih =>
    obtain ⟨hs, hrest⟩ := List.forall_mem_cons.mp h
    unfold takeFieldComments
    split
    · exact List.forall_mem_cons.mpr ⟨hs, ih hrest known⟩
    · rename_i key _
      split
      · exact List.forall_mem_cons.mpr ⟨hs, ih hrest known⟩
      · obtain ⟨leading, skipped, htaken⟩ := s.exists_takeBlockComments
        refine List.forall_mem_cons.mpr ⟨?_, ih hrest (key :: known)⟩
        rw [htaken]
        exact hs.congr rfl rfl rfl rfl

end Node

namespace Part

variable {P : Location → Prop} {n : Node} {p q : Part n}

theorem mem_children_of_mem_parts (h : q ∈ p.parts) : q.node ∈ p.node.children := by
  obtain ⟨r, hr, rfl⟩ := List.mem_map.mp h
  exact Node.mem_children_of_mem_parts hr

theorem complete_withoutFieldComments (h : p.node.Complete P) (known : List String) :
    (p.withoutFieldComments known).1.node.Complete P := by
  have hshaped := h.shaped
  have hslots : (p.withoutFieldComments known).1.node.slots = p.node.slots :=
    Node.map_slot_takeFieldComments known p.node.children
  refine .node ⟨?_, hshaped.text, ?_⟩ ?_
  · rw [hslots]
    exact hshaped.shape
  · rw [hslots]
    exact hshaped.name
  · exact Node.complete_takeFieldComments (fun c => h.child) known

end Part

namespace Node

variable {P : Location → Prop} {n c : Node} {f : Field} {p : Part n}

/-- A complete node that can stand anywhere: it is no method. -/
structure Placed (P : Location → Prop) (n : Node) : Prop where
  complete : n.Complete P
  kind : n.kind ≠ .methodDefinition

theorem Complete.placed (h : n.Complete P) (hkind : n.kind.holdsMethods = false)
    (hc : c ∈ n.children) : c.Placed P :=
  ⟨h.child hc, h.shaped.shape.methods hkind c.slot (List.mem_map_of_mem hc)⟩

theorem Complete.placed_parts (h : n.Complete P) (hkind : n.kind.holdsMethods = false) :
    ∀ p ∈ n.parts, p.node.Placed P :=
  fun _ hp => h.placed hkind (mem_children_of_mem_parts hp)

theorem Complete.placed_child? (h : n.Complete P) (hkind : n.kind.holdsMethods = false)
    (hc : n.child? f = some c) : c.Placed P :=
  h.placed hkind (mem_children_of_child? hc)

theorem Complete.placed_part? (h : n.Complete P) (hkind : n.kind.holdsMethods = false)
    (hp : n.part? f = some p) : p.node.Placed P :=
  h.placed_child? hkind (child?_of_part? hp)

/-- The part in a field that no node of the kind lacks. -/
theorem Complete.exists_placed {kind : Kind} (h : n.Complete P) (hkind : n.kind = kind) (f : Field)
    (hf : f ∈ kind.fields) : ∃ p, n.part? f = some p ∧ p.node.Placed P := by
  subst hkind
  obtain ⟨p, hp⟩ := h.shaped.exists_part? hf
  exact ⟨p, hp, h.placed_part? (Kind.holdsMethods_of_mem_fields hf) hp⟩

/-- The first part of a node whose kind has one. -/
theorem Complete.exists_first {kind : Kind} (h : n.Complete P) (hkind : n.kind = kind)
    (hchild : kind.hasChild = true) : ∃ p rest, n.parts = p :: rest ∧ p.node.Placed P := by
  subst hkind
  have hchildren := h.shaped.children_ne_nil hchild
  rw [← n.map_node_parts, ne_eq, List.map_eq_nil_iff] at hchildren
  obtain ⟨p, rest, hparts⟩ := List.exists_cons_of_ne_nil hchildren
  have hholds := Kind.holdsMethods_of_hasChild hchild
  exact ⟨p, rest, hparts, h.placed_parts hholds p (by simp [hparts])⟩

/-- No method stands in a list of parameters or arguments, or in the body of a method. -/
theorem Complete.holdsMethods_child? (h : n.Complete P) (hc : n.child? f = some c)
    (hlist : n.kind.holdsList (some f) = true) : c.kind.holdsMethods = false := by
  have hslot : c.slot ∈ n.slots := List.mem_map_of_mem (mem_children_of_child? hc)
  have hfield : c.slot.field = some f := by simpa [slot] using List.find?_some hc
  exact (h.shaped.shape.lists c.slot hslot (hfield ▸ hlist)).1

end Node

theorem Part.placed_parts {P : Location → Prop} {n : Node} {p : Part n} (h : p.node.Complete P)
    (hkind : p.node.kind.holdsMethods = false) : ∀ q ∈ p.parts, q.node.Placed P :=
  fun _ hq => h.placed hkind (mem_children_of_mem_parts hq)

namespace Text.Utf8

theorem begin_progress (pos : Nat) (b : UInt8) :
    (begin pos b).1 ≠ [] ∨ (begin pos b).2.isSome = true := by
  unfold begin
  split
  · simp
  · split <;> simp

theorem next_progress (pos : Nat) (pending : Option Pending) (b : UInt8) :
    (next pos pending b).1 ≠ [] ∨ (next pos pending b).2.isSome = true := by
  unfold next
  split
  · exact begin_progress pos b
  · split
    · dsimp only
      split <;> simp
    · simp

theorem piecesFrom_ne_nil {pos : Nat} {pending : Option Pending} {bytes : List UInt8}
    (h : pending.isSome = true ∨ bytes ≠ []) : piecesFrom pos pending bytes ≠ [] := by
  induction bytes generalizing pos pending with
  | nil =>
    obtain ⟨p, rfl⟩ := Option.isSome_iff_exists.mp (h.resolve_right (fun hne => hne rfl))
    exact List.cons_ne_nil _ _
  | cons b rest ih =>
    rw [piecesFrom, ne_eq, List.append_eq_nil_iff, not_and]
    intro hpieces
    exact ih (.inl ((next_progress pos pending b).resolve_left (fun hne => hne hpieces)))

/-- Bytes give some text. -/
theorem decodeLossy_ne_nil {bytes : List UInt8} (h : bytes ≠ []) : decodeLossy bytes ≠ [] := by
  rw [decodeLossy, ne_eq, List.map_eq_nil_iff]
  exact piecesFrom_ne_nil (.inr h)

end Text.Utf8

namespace Concrete

def slot (c : Concrete) : Slot := ⟨c.field.map Field.ofText, .ofName c.kind⟩

def slots (c : Concrete) : List Slot := (c.children.filter isPart).map slot

/-- An import specifier whose name is the keyword `default`. -/
def namesDefault (c : Concrete) : Bool :=
  c.kind = "import_specifier" &&
    c.children.any fun d => d.kind = "default" && !d.named && d.field = some "name"

/-- A node that has all that the grammar gives to its kind. The name of an import specifier is a
node of its own or the keyword `default`. -/
structure Shaped (bytes : List UInt8) (c : Concrete) : Prop where
  shape : (Kind.ofName c.kind).Shape c.slots
  text : c.kind = "string" → slice bytes c.start c.stop ≠ []
  name : c.kind = "import_specifier" →
    some .name ∈ c.slots.map (·.field) ∨ c.namesDefault = true

/-- A tree of the grammar: a program without faults whose nodes have all that they need. -/
structure Complete (bytes : List UInt8) (tree : Concrete) : Prop where
  kind : tree.kind = "program"
  named : tree.named = true
  faultless : tree.firstFault? = none
  shaped : ∀ c ∈ tree.preorder, c.named = true → c.Shaped bytes

instance (bytes : List UInt8) (c : Concrete) : Decidable (c.Shaped bytes) :=
  decidable_of_iff
    ((Kind.ofName c.kind).Shape c.slots ∧
      (c.kind = "string" → slice bytes c.start c.stop ≠ []) ∧
      (c.kind = "import_specifier" →
        some .name ∈ c.slots.map (·.field) ∨ c.namesDefault = true))
    ⟨fun ⟨hshape, htext, hname⟩ => ⟨hshape, htext, hname⟩, fun h => ⟨h.shape, h.text, h.name⟩⟩

instance (bytes : List UInt8) (tree : Concrete) : Decidable (tree.Complete bytes) :=
  decidable_of_iff
    (tree.kind = "program" ∧ tree.named = true ∧ tree.firstFault?.isNone ∧
      ∀ c ∈ tree.preorder, c.named = true → c.Shaped bytes)
    ⟨fun ⟨hkind, hnamed, hfault, hshaped⟩ =>
        ⟨hkind, hnamed, Option.isNone_iff_eq_none.mp hfault, hshaped⟩,
      fun h => ⟨h.kind, h.named, Option.isNone_iff_eq_none.mpr h.faultless, h.shaped⟩⟩

theorem named_of_isPart {c : Concrete} (h : c.isPart = true) : c.named = true := by
  simp only [isPart, Bool.and_eq_true] at h
  exact h.1.1.1

end Concrete

/-- A child that comes from another one: only parentheses change their kind, and not into a
method. -/
structure Slot.ComesFrom (s t : Slot) : Prop where
  field : s.field = t.field
  method : s.kind = .methodDefinition → t.kind = .methodDefinition
  kind : t.kind ≠ .parenthesized → s.kind = t.kind

/-- A shape stays if its children turn into others and holes come between them. -/
theorem Kind.Shape.transport {kind : Kind} {slots slots' : List Slot} (h : kind.Shape slots)
    (hkept : ∀ t ∈ slots, ∃ s ∈ slots', s.ComesFrom t)
    (hnew : ∀ s ∈ slots', s = ⟨none, .elision⟩ ∨ ∃ t ∈ slots, s.ComesFrom t) :
    kind.Shape slots' := by
  refine ⟨?_, ?_, ?_, ?_⟩
  · intro f hf
    obtain ⟨t, ht, htf⟩ := List.mem_map.mp (h.fields f hf)
    obtain ⟨s, hs, hcomes⟩ := hkept t ht
    exact List.mem_map.mpr ⟨s, hs, hcomes.field.trans htf⟩
  · intro hchild
    obtain ⟨t, ht⟩ := List.exists_mem_of_ne_nil slots (h.first hchild)
    obtain ⟨s, hs, -⟩ := hkept t ht
    exact List.ne_nil_of_mem hs
  · intro hholds s hs hmethod
    rcases hnew s hs with rfl | ⟨t, ht, hcomes⟩
    · cases hmethod
    · exact h.methods hholds t ht (hcomes.method hmethod)
  · intro s hs hlist
    rcases hnew s hs with rfl | ⟨t, ht, hcomes⟩
    · cases hlist
    · have hold := h.lists t ht (hcomes.field ▸ hlist)
      rw [hcomes.kind hold.2]
      exact hold

namespace Node

variable {P : Location → Prop} {bytes : List UInt8} {m : Node} {c d : Concrete}

theorem Complete.of_uncommented (h : m.uncommented.Complete P) : m.Complete P :=
  h.congr rfl rfl rfl rfl

theorem complete_hole : Siblings.hole.Complete P := by
  refine .node ⟨⟨?_, ?_, ?_, ?_⟩, ?_, ?_⟩ ?_
  all_goals simp [Siblings.hole, slots, Kind.fields, Kind.hasChild]

theorem kind_ofConcrete (h : Kind.ofName c.kind ≠ .parenthesized) :
    (ofConcrete bytes c).kind = .ofName c.kind := by
  rw [ofConcrete_eq_unwrap]
  rcases (wrapped bytes c).unwrap_cases with hsame | ⟨hkind, -⟩
  · rw [hsame]
    rfl
  · exact absurd hkind h

/-- The children of a node come from those of its concrete node. -/
theorem shape_wrapped (h : (Kind.ofName c.kind).Shape c.slots)
    (hmethod : ∀ d ∈ c.children, d.isPart = true →
      (ofConcrete bytes d).kind = .methodDefinition → Kind.ofName d.kind = .methodDefinition) :
    (wrapped bytes c).kind.Shape (wrapped bytes c).slots := by
  have hcomes {d : Concrete} (hd : d ∈ c.children) (hpart : d.isPart = true) {m : Node}
      (hm : m.uncommented = child bytes d) : m.slot.ComesFrom d.slot := by
    have hslot : m.slot = ⟨d.slot.field, (ofConcrete bytes d).kind⟩ := congrArg slot hm
    rw [hslot]
    exact ⟨rfl, hmethod d hd hpart, kind_ofConcrete⟩
  refine h.transport ?_ ?_
  · intro t ht
    obtain ⟨d, hd, rfl⟩ := List.mem_map.mp ht
    obtain ⟨hmem, hpart⟩ := List.mem_filter.mp hd
    obtain ⟨m, hm, heq⟩ := exists_mem_children_wrapped bytes hmem hpart
    exact ⟨m.slot, List.mem_map_of_mem hm, hcomes hmem hpart heq⟩
  · intro s hs
    obtain ⟨m, hm, rfl⟩ := List.mem_map.mp hs
    rcases mem_children_wrapped hm with hhole | ⟨d, hd, hpart, heq⟩
    · exact .inl (congrArg slot hhole)
    · exact .inr ⟨d.slot, List.mem_map_of_mem (List.mem_filter.mpr ⟨hd, hpart⟩),
        hcomes hd hpart heq⟩

theorem field_mem_slots_wrapped {f : Option Field} (h : f ∈ c.slots.map (·.field)) :
    f ∈ (wrapped bytes c).slots.map (·.field) := by
  obtain ⟨t, ht, rfl⟩ := List.mem_map.mp h
  obtain ⟨d, hd, rfl⟩ := List.mem_map.mp ht
  obtain ⟨hmem, hpart⟩ := List.mem_filter.mp hd
  obtain ⟨m, hm, heq⟩ := exists_mem_children_wrapped bytes hmem hpart
  exact List.mem_map.mpr ⟨m.slot, List.mem_map_of_mem hm, congrArg (·.field) heq⟩

theorem shaped_wrapped (h : c.Shaped bytes) (hP : c.namesDefault = true → P (c.location bytes))
    (hshape : (wrapped bytes c).kind.Shape (wrapped bytes c).slots) :
    (wrapped bytes c).Shaped P := by
  have hname : (wrapped bytes c).kind.name = c.kind := Kind.name_ofName c.kind
  refine ⟨hshape, ?_, ?_⟩
  · intro hkind htext
    rw [hkind] at hname
    have hchars : Text.Utf8.decodeLossy (Concrete.slice bytes c.start c.stop) = [] :=
      String.ofList_injective htext
    exact Text.Utf8.decodeLossy_ne_nil (h.text hname.symm) hchars
  · intro hkind
    rw [hkind] at hname
    exact (h.name hname.symm).imp field_mem_slots_wrapped hP

theorem Complete.unwrap {n : Node} (h : n.Complete P) : n.unwrap.Complete P := by
  rcases n.unwrap_cases with hsame | ⟨-, c, hc, trailing, hunwrap⟩
  · rwa [hsame]
  · rw [hunwrap]
    exact (h.child hc).congr rfl rfl rfl rfl

/-- What stands in parentheses is no method. -/
theorem Complete.kind_unwrap {n : Node} (h : n.Complete P)
    (hmethod : n.unwrap.kind = .methodDefinition) : n.kind = .methodDefinition := by
  rcases n.unwrap_cases with hsame | ⟨hkind, c, hc, trailing, hunwrap⟩
  · rwa [hsame] at hmethod
  · rw [hunwrap] at hmethod
    have hholds : n.kind.holdsMethods = false := by rw [hkind]; rfl
    exact absurd hmethod (h.shaped.shape.methods hholds c.slot (List.mem_map_of_mem hc))

/-- The tree of nodes of a complete concrete tree is complete. -/
theorem complete_ofConcrete (hnamed : c.named = true)
    (h : ∀ d ∈ c.preorder, d.named = true → d.Shaped bytes)
    (hP : ∀ d ∈ c.preorder, d.namesDefault = true → P (d.location bytes)) :
    (ofConcrete bytes c).Complete P := by
  -- Along the induction a node that is a method was one in the concrete tree.
  suffices hboth : (ofConcrete bytes c).Complete P ∧
      ((ofConcrete bytes c).kind = .methodDefinition → Kind.ofName c.kind = .methodDefinition) from
    hboth.1
  induction c using Concrete.induction_children with
  | h c ih =>
    have hchild (d : Concrete) (hd : d ∈ c.children) (hpart : d.isPart = true) :=
      ih d hd (Concrete.named_of_isPart hpart)
        (fun e he => h e (Concrete.mem_preorder.mpr (.inr ⟨d, hd, he⟩)))
        (fun e he => hP e (Concrete.mem_preorder.mpr (.inr ⟨d, hd, he⟩)))
    have hself := h c c.self_mem_preorder hnamed
    have hshape := shape_wrapped hself.shape fun d hd hpart => (hchild d hd hpart).2
    have hwrapped : (wrapped bytes c).Complete P := by
      refine .node (shaped_wrapped hself (hP c c.self_mem_preorder) hshape) ?_
      intro m hm
      refine Complete.of_uncommented ?_
      rcases mem_children_wrapped hm with hhole | ⟨d, hd, hpart, heq⟩
      · rw [hhole]
        exact complete_hole
      · rw [heq]
        exact (hchild d hd hpart).1.congr rfl rfl rfl rfl
    rw [ofConcrete_eq_unwrap]
    exact ⟨hwrapped.unwrap, hwrapped.kind_unwrap⟩

end Node
end EcmaPhp
