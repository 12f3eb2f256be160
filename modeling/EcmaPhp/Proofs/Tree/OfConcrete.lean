import EcmaPhp.Tree.OfConcrete

/-! Which children a node gets from its concrete one: the holes of arrays, and one child for each
concrete node that is neither a sign nor a comment. -/
namespace EcmaPhp

namespace Siblings

/-- A comment changes no child but in what trails it. -/
theorem map_trail? {β : Type} {g : Node → β}
    (hg : ∀ (n : Node) (trailing : List Comment), g { n with trailing } = g n) {c : Comment}
    {ns ns' : List Node} (h : trail? c ns = some ns') : ns'.map g = ns.map g := by
  induction ns generalizing ns' with
  | nil => cases h
  | cons n rest ih =>
    rw [trail?] at h
    split at h
    · obtain ⟨rest', hrest, rfl⟩ := Option.map_eq_some_iff.mp h
      simp [ih hrest]
    · split at h
      · cases h
        simp [hg]
      · cases h

theorem map_addComment {β : Type} {g : Node → β}
    (hg : ∀ (n : Node) (trailing : List Comment), g { n with trailing } = g n) (s : Siblings)
    (c : Comment) : (s.addComment c).children.map g = s.children.map g := by
  rw [addComment]
  split
  · rename_i children h
    split at h
    · exact map_trail? hg h
    · cases h
  · rfl

end Siblings

/-- Whether a node of the concrete tree becomes a node of the tree. -/
def Concrete.isPart (c : Concrete) : Bool :=
  c.named && !c.missing && !c.isComment && c.kind != "optional_chain"

namespace Node

/-- A node without the comments around it. -/
def uncommented (n : Node) : Node := { n with leading := [], trailing := [] }

/-- The child that a concrete child becomes, but for the comments around it. -/
def child (bytes : List UInt8) (c : Concrete) : Node :=
  { ofConcrete bytes c with field := c.field.map Field.ofText, leading := [], trailing := [] }

variable {bytes : List UInt8} {isArray : Bool} {s : Siblings} {m : Node}

/-- A concrete node adds the child that it becomes, or else nothing but a hole. -/
theorem exists_gather_cons (bytes : List UInt8) (isArray : Bool) (s : Siblings) (c : Concrete)
    (rest : List Concrete) :
    ∃ s', gather bytes isArray s (c :: rest) = gather bytes isArray s' rest ∧
      (c.isPart = true ∧
          s'.children.map uncommented = child bytes c :: s.children.map uncommented ∨
        c.isPart = false ∧ (s'.children.map uncommented = s.children.map uncommented ∨
          s'.children.map uncommented = Siblings.hole :: s.children.map uncommented)) := by
  rw [gather]
  refine ⟨_, rfl, ?_⟩
  split
  · rename_i hcomment
    refine .inr ⟨by simp [Concrete.isPart, hcomment], .inl ?_⟩
    exact Siblings.map_addComment (fun _ _ => rfl) s _
  · split
    · rename_i hchain
      exact .inr ⟨by simp [Concrete.isPart, hchain], .inl rfl⟩
    · split
      · exact .inl ⟨by simp_all [Concrete.isPart], rfl⟩
      · rename_i hsign
        refine .inr ⟨by simp_all [Concrete.isPart], ?_⟩
        unfold Siblings.addToken
        dsimp only
        split
        · exact .inr rfl
        · exact .inl rfl

/-- What is gathered from a list of concrete nodes. -/
theorem mem_gather {cs : List Concrete}
    (h : m ∈ (gather bytes isArray s cs).children.map uncommented) :
    m ∈ s.children.map uncommented ∨ m = Siblings.hole ∨
      ∃ d ∈ cs, d.isPart = true ∧ m = child bytes d := by
  induction cs generalizing s with
  | nil => exact .inl h
  | cons c rest ih =>
    obtain ⟨s', hgather, hstep⟩ := exists_gather_cons bytes isArray s c rest
    rw [hgather] at h
    rcases ih h with hmem | hhole | ⟨d, hd, hpart, rfl⟩
    · rcases hstep with ⟨hpart, hchild⟩ | ⟨-, hsame | hhole⟩
      · rw [hchild] at hmem
        rcases List.mem_cons.mp hmem with rfl | hmem
        · exact .inr (.inr ⟨c, List.mem_cons_self, hpart, rfl⟩)
        · exact .inl hmem
      · exact .inl (hsame ▸ hmem)
      · rw [hhole] at hmem
        rcases List.mem_cons.mp hmem with rfl | hmem
        · exact .inr (.inl rfl)
        · exact .inl hmem
    · exact .inr (.inl hhole)
    · exact .inr (.inr ⟨d, List.mem_cons_of_mem c hd, hpart, rfl⟩)

theorem subset_gather (cs : List Concrete) :
    s.children.map uncommented ⊆ (gather bytes isArray s cs).children.map uncommented := by
  induction cs generalizing s with
  | nil => exact List.Subset.refl _
  | cons c rest ih =>
    obtain ⟨s', hgather, hstep⟩ := exists_gather_cons bytes isArray s c rest
    rw [hgather]
    refine List.Subset.trans ?_ ih
    rcases hstep with ⟨-, hchild⟩ | ⟨-, hsame | hhole⟩
    · rw [hchild]
      exact List.subset_cons_self ..
    · rw [hsame]
      exact List.Subset.refl _
    · rw [hhole]
      exact List.subset_cons_self ..

theorem child_mem_gather {cs : List Concrete} {d : Concrete} (hd : d ∈ cs)
    (hpart : d.isPart = true) :
    child bytes d ∈ (gather bytes isArray s cs).children.map uncommented := by
  induction cs generalizing s with
  | nil => cases hd
  | cons c rest ih =>
    obtain ⟨s', hgather, hstep⟩ := exists_gather_cons bytes isArray s c rest
    rw [hgather]
    rcases List.mem_cons.mp hd with rfl | hd
    · rcases hstep with ⟨-, hchild⟩ | ⟨hnone, -⟩
      · exact subset_gather rest (by simp [hchild])
      · simp [hpart] at hnone
    · exact ih hd

/-- The node of a concrete node, before its parentheses vanish. -/
def wrapped (bytes : List UInt8) (c : Concrete) : Node :=
  let s := gather bytes (Kind.ofName c.kind).isArray {} c.children
  { kind := .ofName c.kind
    location := c.location bytes
    start := c.start
    stop := c.stop
    text := c.text bytes
    tokens := s.tokens
    attrs := s.attrs
    inner := s.pending
    children := s.children.reverse }

theorem ofConcrete_eq_unwrap (bytes : List UInt8) (c : Concrete) :
    ofConcrete bytes c = (wrapped bytes c).unwrap := by
  cases c
  rw [ofConcrete]
  rfl

theorem unwrap_cases (n : Node) :
    n.unwrap = n ∨ n.kind = .parenthesized ∧ ∃ c ∈ n.children, ∃ trailing,
      n.unwrap = { c with trailing } := by
  unfold unwrap
  split
  · rename_i first rest hkind hchildren
    exact .inr ⟨hkind, first, by simp [hchildren], _, rfl⟩
  · exact .inl rfl

theorem mem_children_wrapped {c : Concrete} (h : m ∈ (wrapped bytes c).children) :
    m.uncommented = Siblings.hole ∨
      ∃ d ∈ c.children, d.isPart = true ∧ m.uncommented = child bytes d := by
  have hmem := List.mem_map_of_mem (f := uncommented) (List.mem_reverse.mp h)
  rcases mem_gather hmem with hnone | hgathered
  · cases hnone
  · exact hgathered

theorem exists_mem_children_wrapped (bytes : List UInt8) {c d : Concrete} (hd : d ∈ c.children)
    (hpart : d.isPart = true) :
    ∃ m ∈ (wrapped bytes c).children, m.uncommented = child bytes d := by
  have hmem : child bytes d ∈
      (gather bytes (Kind.ofName c.kind).isArray {} c.children).children.map uncommented :=
    child_mem_gather hd hpart
  obtain ⟨m, hm, heq⟩ := List.mem_map.mp hmem
  exact ⟨m, List.mem_reverse.mpr hm, heq⟩

end Node
end EcmaPhp
