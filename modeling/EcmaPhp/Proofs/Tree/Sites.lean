import EcmaPhp.Proofs.Constructs

/-! The jumps of a tree, each with the loops and choices around it. -/
namespace EcmaPhp

/-- A jump of the source with what is around it, the innermost first. -/
structure Site where
  jump : Node
  outer : List Enclosure

/-- What an unlabelled jump leaves or repeats: the innermost loop or choice for a `break`, the
innermost loop for a `continue`. -/
def Site.target? (s : Site) : Option Enclosure :=
  if s.jump.kind = .continueStatement then s.outer.find? (·.construct = .loop) else s.outer.head?

/-- A kind whose nodes are neither jumps nor anything that a jump can stay in. -/
def Kind.isInert (kind : Kind) : Bool :=
  !kind.isFunction && kind.construct?.isNone && !kind.isJump

theorem Kind.isInert_of_isDeclaration {kind : Kind} (h : kind.isDeclaration = true) :
    kind.isInert = true := by
  unfold Kind.isDeclaration at h
  split at h
  · rfl
  · rfl
  · cases h

namespace Node

/-- What is around the children of a node. Nothing outside a function is around what is in it. -/
def enclosing (n : Node) (outer : List Enclosure) : List Enclosure :=
  if n.kind.isFunction then [] else (n.kind.construct?.map (⟨·, n⟩)).toList ++ outer

mutual
/-- The jumps of a tree in the order of the source. -/
def sites (outer : List Enclosure) : Node → List Site
  | ⟨kind, location, start, stop, text, field, tokens, attrs, leading, trailing, inner, skipped,
      children⟩ =>
    let n : Node := ⟨kind, location, start, stop, text, field, tokens, attrs, leading, trailing,
      inner, skipped, children⟩
    (if kind.isJump then [⟨n, outer⟩] else []) ++ sitesAll (n.enclosing outer) children
def sitesAll (outer : List Enclosure) : List Node → List Site
  | [] => []
  | n :: rest => sites outer n ++ sitesAll outer rest
end

/-- The lists of a node, of arguments, of parameters or of a method's statements, are only that. -/
def hasPlainLists (n : Node) : Bool :=
  n.slots.all fun s => !n.kind.holdsList s.field || s.kind.isInert

/-- A tree of the grammar, as far as lists go. -/
def PlainLists (n : Node) : Prop := ∀ m ∈ n.preorder, m.hasPlainLists = true

instance (n : Node) : Decidable n.PlainLists :=
  inferInstanceAs (Decidable (∀ m ∈ n.preorder, m.hasPlainLists = true))

variable {n m c : Node} {f : Field} {outer : List Enclosure}

theorem sites_eq (n : Node) (outer : List Enclosure) :
    n.sites outer = (if n.kind.isJump then [⟨n, outer⟩] else []) ++
      sitesAll (n.enclosing outer) n.children := by
  cases n
  rw [sites]

theorem sitesAll_eq_flatMap (outer : List Enclosure) (ns : List Node) :
    sitesAll outer ns = ns.flatMap (sites outer) := by
  induction ns with
  | nil => rfl
  | cons n rest ih => rw [sitesAll, ih, List.flatMap_cons]

theorem mem_sites_self (h : n.kind.isJump = true) : ⟨n, outer⟩ ∈ n.sites outer := by
  simp [sites_eq n, h]

theorem sites_subset_of_mem (outer : List Enclosure) (h : m ∈ n.children) :
    m.sites (n.enclosing outer) ⊆ n.sites outer := by
  intro x hx
  rw [sites_eq n, sitesAll_eq_flatMap]
  exact List.mem_append_right _ (List.mem_flatMap_of_mem h hx)

theorem enclosing_of_isFunction (h : n.kind.isFunction = true) : n.enclosing outer = [] := by
  simp [enclosing, h]

theorem enclosing_of_isInert (h : n.kind.isInert = true) : n.enclosing outer = outer := by
  simp only [Kind.isInert, Bool.and_eq_true, Bool.not_eq_true', Option.isNone_iff_eq_none] at h
  simp [enclosing, h.1.1, h.1.2]

theorem sites_of_isInert (h : n.kind.isInert = true) :
    n.sites outer = sitesAll outer n.children := by
  rw [sites_eq, enclosing_of_isInert h]
  simp only [Kind.isInert, Bool.and_eq_true, Bool.not_eq_true'] at h
  simp [h.2]

theorem sites_subset_of_isInert (hn : n.kind.isInert = true) (h : m ∈ n.children) :
    m.sites outer ⊆ n.sites outer := by
  have hsubset := sites_subset_of_mem outer h
  rwa [enclosing_of_isInert hn] at hsubset

section Lists

theorem PlainLists.self (h : n.PlainLists) : n.hasPlainLists = true :=
  h n (by rw [preorder_eq]; exact List.mem_cons_self)

theorem PlainLists.child (h : n.PlainLists) (hc : c ∈ n.children) : c.PlainLists := by
  intro m hm
  apply h
  rw [preorder_eq]
  exact List.mem_cons_of_mem n (mem_preorderAll.mpr ⟨c, hc, hm⟩)

theorem PlainLists.of_children (h : n.hasPlainLists = true) (hc : ∀ c ∈ n.children, c.PlainLists) :
    n.PlainLists := by
  intro m hm
  rw [preorder_eq, List.mem_cons] at hm
  rcases hm with rfl | hm
  · exact h
  · obtain ⟨c, hmem, hm⟩ := mem_preorderAll.mp hm
    exact hc c hmem m hm

theorem PlainLists.isInert (h : n.PlainLists) (hc : c ∈ n.children)
    (hlist : n.kind.holdsList c.field = true) : c.kind.isInert = true := by
  have hall := List.all_eq_true.mp h.self c.slot (List.mem_map_of_mem hc)
  simpa [slot, hlist] using hall

theorem PlainLists.held (h : n.PlainLists) (hm : n.Holds m) : m.PlainLists := by
  induction hm with
  | child hc => exact h.child hc
  | through _ _ hc ih => exact ih.child hc

/-- A list in the field of some node is inert. -/
theorem PlainLists.isInert_of_holds (h : n.PlainLists) (hm : n.Holds m)
    (hfield : ∀ kind : Kind, kind.holdsList m.field = true) : m.kind.isInert = true := by
  cases hm with
  | child hc => exact h.isInert hc (hfield n.kind)
  | through hlist _ hc => exact (h.held hlist).isInert hc (hfield _)

theorem PlainLists.isInert_of_isHolder (h : n.PlainLists) (hm : n.Holds m)
    (hholder : m.isHolder = true) : m.kind.isInert = true := by
  simp only [isHolder, Bool.or_eq_true, decide_eq_true_eq] at hholder
  rcases hholder with (((((hfield | hfield) | hfield) | hkind) | hkind) | hkind) | hkind
  · exact h.isInert_of_holds hm fun _ => by rw [hfield]; rfl
  · exact h.isInert_of_holds hm fun _ => by rw [hfield]; rfl
  · exact h.isInert_of_holds hm fun _ => by rw [hfield]; rfl
  · rw [hkind]; rfl
  · rw [hkind]; rfl
  · rw [hkind]; rfl
  · exact Kind.isInert_of_isDeclaration hkind

/-- The jumps of a node that is held by another one are jumps of that one. -/
theorem Holds.sites_subset (hm : n.Holds m) (h : n.PlainLists) (outer : List Enclosure) :
    m.sites (n.enclosing outer) ⊆ n.sites outer := by
  induction hm with
  | child hc => exact sites_subset_of_mem outer hc
  | through hlist hholder hc ih =>
    have hinert := h.isInert_of_isHolder hlist hholder
    exact List.Subset.trans (sites_subset_of_isInert hinert hc) ih

end Lists

section Constructors

theorem isInert_of_assignedField? {key : String} (h : n.assignedField? = some key) :
    n.kind.isInert = true := by
  have hkind : n.kind = .expressionStatement := by
    unfold assignedField? expression? at h
    by_contra hkind
    simp [hkind] at h
  rw [hkind]
  rfl

/-- A constructor has the same jumps without the comments of its fields. -/
theorem sitesAll_takeFieldComments (known : List String) (ns : List Node) :
    sitesAll outer (takeFieldComments known ns).1 = sitesAll outer ns := by
  induction ns generalizing known with
  | nil => rfl
  | cons s rest ih =>
    unfold takeFieldComments
    split
    · simp [sitesAll, ih]
    · rename_i key hkey
      split
      · simp [sitesAll, ih]
      · obtain ⟨leading, skipped, htaken⟩ := s.exists_takeBlockComments
        have hs := isInert_of_assignedField? hkey
        have hs' : s.takeBlockComments.1.kind.isInert = true := by rw [htaken]; exact hs
        simp only [sitesAll, ih, sites_of_isInert hs, sites_of_isInert hs']
        rw [htaken]

theorem PlainLists.takeFieldComments (known : List String) {ns : List Node}
    (h : ∀ n ∈ ns, n.PlainLists) : ∀ n ∈ (takeFieldComments known ns).1, n.PlainLists := by
  induction ns generalizing known with
  | nil => exact h
  | cons s rest ih =>
    obtain ⟨hs, hrest⟩ := List.forall_mem_cons.mp h
    unfold Node.takeFieldComments
    split
    · exact List.forall_mem_cons.mpr ⟨hs, ih known hrest⟩
    · rename_i key _
      split
      · exact List.forall_mem_cons.mpr ⟨hs, ih known hrest⟩
      · obtain ⟨leading, skipped, htaken⟩ := s.exists_takeBlockComments
        refine List.forall_mem_cons.mpr ⟨?_, ih (key :: known) hrest⟩
        rw [htaken]
        exact .of_children hs.self fun c => hs.child

/-- The body of a constructor without the comments of its fields has the jumps of the body. -/
theorem sites_takeFieldComments (known : List String) (h : n.kind.isInert = true) :
    sites outer { n with children := (Node.takeFieldComments known n.children).1 } =
      n.sites outer := by
  rw [sites_of_isInert h, sites_of_isInert (n := { n with
    children := (Node.takeFieldComments known n.children).1 }) h]
  exact sitesAll_takeFieldComments known n.children

end Constructors

/-- What the rule for a node emits has jumps of the node; in a function they have nothing around
them from outside. -/
theorem Visits.sites_subset {b : Bool} (hm : n.Visits b m) (h : n.PlainLists)
    (outer : List Enclosure) :
    m.PlainLists ∧
      m.sites (if b then [] else (n.kind.construct?.map (⟨·, n⟩)).toList ++ outer) ⊆
        n.sites outer := by
  cases hm with
  | inPlace hkind hm =>
    refine ⟨h.held hm, ?_⟩
    have hsubset := hm.sites_subset h outer
    simpa [enclosing, hkind] using hsubset
  | ofFunction hkind hm =>
    refine ⟨h.held hm, ?_⟩
    have hsubset := hm.sites_subset h outer
    rwa [enclosing_of_isFunction hkind] at hsubset
  | @ofAccessor a body _ ha haccessor hbody hm =>
    have hplain := h.child ha
    have hmethod : a.kind = .methodDefinition := by
      unfold accessor? at haccessor
      by_contra hkind
      simp [hkind] at haccessor
    have hbodyMem := mem_children_of_child? hbody
    have hinert : body.kind.isInert = true :=
      hplain.isInert hbodyMem (by rw [hmethod, field_of_child? hbody]; rfl)
    have hfunction : a.kind.isFunction = true := by rw [hmethod]; rfl
    refine ⟨(hplain.child hbodyMem).child hm, ?_⟩
    have hinside := sites_subset_of_mem (n.enclosing outer) hbodyMem
    rw [enclosing_of_isFunction hfunction] at hinside
    have hsites := List.Subset.trans (sites_subset_of_isInert hinert hm) hinside
    exact List.Subset.trans hsites (sites_subset_of_mem outer ha)
  | @ofConstructor body known hkind hbody =>
    have hbodyMem := mem_children_of_child? hbody
    have hplain := h.child hbodyMem
    have hinert : body.kind.isInert = true :=
      h.isInert hbodyMem (by rw [hkind, field_of_child? hbody]; rfl)
    have hfunction : n.kind.isFunction = true := by rw [hkind]; rfl
    refine ⟨.of_children ?_ (.takeFieldComments known fun c => hplain.child), ?_⟩
    · have hslots := map_slot_takeFieldComments known body.children
      have hself := hplain.self
      rw [hasPlainLists, slots] at hself ⊢
      rw [hslots]
      exact hself
    · have hsubset := sites_subset_of_mem outer hbodyMem
      rw [enclosing_of_isFunction hfunction] at hsubset
      rw [if_pos rfl, sites_takeFieldComments known hinert]
      exact hsubset

end Node
end EcmaPhp
