import EcmaPhp.Source.Concrete
import Mathlib.Data.List.Basic

/-! Concrete trees as their parser gives them: the nodes of a tree, and its leaves in the order of
the source. -/
namespace EcmaPhp.Concrete

def token (kind : String) (start stop : Nat) : Concrete :=
  { kind, named := false, missing := false, start, stop, field := none, children := [] }

def branch (kind : String) (start stop : Nat) (field : Option String) (children : List Concrete) :
    Concrete :=
  { kind, named := true, missing := false, start, stop, field, children }

theorem weight_le_weightAll {c : Concrete} {cs : List Concrete} (h : c ∈ cs) :
    c.weight ≤ weightAll cs := by
  induction cs with
  | nil => cases h
  | cons d rest ih =>
    rw [weightAll]
    rcases List.mem_cons.mp h with rfl | h
    · omega
    · have := ih h
      omega

theorem weight_lt_of_mem {c d : Concrete} (h : d ∈ c.children) : d.weight < c.weight := by
  have := weight_le_weightAll h
  rw [weight_eq c]
  omega

/-- What holds of a node whenever it holds of its children holds of every node. -/
theorem induction_children {P : Concrete → Prop} (h : ∀ c, (∀ d ∈ c.children, P d) → P c)
    (c : Concrete) : P c :=
  h c fun d _ => induction_children h d
termination_by c.weight
decreasing_by exact weight_lt_of_mem ‹_›

mutual
/-- All nodes, each before its children. -/
def preorder : Concrete → List Concrete
  | ⟨kind, named, missing, start, stop, field, children⟩ =>
    ⟨kind, named, missing, start, stop, field, children⟩ :: preorderAll children
def preorderAll : List Concrete → List Concrete
  | [] => []
  | c :: rest => preorder c ++ preorderAll rest
end

theorem preorder_eq (c : Concrete) : c.preorder = c :: preorderAll c.children := by
  cases c
  rw [preorder]

theorem mem_preorderAll {p : Concrete} {cs : List Concrete} :
    p ∈ preorderAll cs ↔ ∃ c ∈ cs, p ∈ c.preorder := by
  induction cs with
  | nil => simp [preorderAll]
  | cons c rest ih => simp [preorderAll, ih]

theorem mem_preorder {p c : Concrete} :
    p ∈ c.preorder ↔ p = c ∨ ∃ d ∈ c.children, p ∈ d.preorder := by
  rw [preorder_eq, List.mem_cons, mem_preorderAll]

theorem self_mem_preorder (c : Concrete) : c ∈ c.preorder := mem_preorder.mpr (.inl rfl)

theorem mem_preorder_of_mem_children {c d : Concrete} (h : d ∈ c.children) : d ∈ c.preorder :=
  mem_preorder.mpr (.inr ⟨d, h, d.self_mem_preorder⟩)

theorem mem_preorder_trans {p d c : Concrete} (h : p ∈ d.preorder) (h' : d ∈ c.preorder) :
    p ∈ c.preorder := by
  induction c using induction_children with
  | h c ih =>
    rcases mem_preorder.mp h' with rfl | ⟨e, he, hd⟩
    · exact h
    · exact mem_preorder.mpr (.inr ⟨e, he, ih e he hd⟩)

theorem preorderAll_append (cs ds : List Concrete) :
    preorderAll (cs ++ ds) = preorderAll cs ++ preorderAll ds := by
  induction cs with
  | nil => simp [preorderAll]
  | cons c rest ih => simp [preorderAll, ih]

/-- In a tree without faults no node is one. -/
theorem isFault_of_firstFaultAmong {cs : List Concrete} (h : firstFaultAmong cs = none) :
    ∀ p ∈ preorderAll cs, p.isFault = false := by
  fun_induction firstFaultAmong cs with
  | case1 => simp [preorderAll]
  | case2 c rest hc => cases h
  | case3 c rest hc ih =>
    intro p hp
    rw [preorderAll, preorder_eq, List.cons_append, ← preorderAll_append] at hp
    rcases List.mem_cons.mp hp with rfl | hp
    · simpa using hc
    · exact ih h p hp

theorem isFault_of_firstFault? {p c : Concrete} (h : c.firstFault? = none) (hp : p ∈ c.preorder) :
    p.isFault = false :=
  isFault_of_firstFaultAmong h p (mem_preorderAll.mpr ⟨c, by simp, hp⟩)

theorem leavesAmong_append (cs ds : List Concrete) :
    leavesAmong (cs ++ ds) = leavesAmong cs ++ leavesAmong ds := by
  fun_induction leavesAmong cs with
  | case1 => rfl
  | case2 c rest hleaf htoken ih => rw [List.cons_append, leavesAmong]; simp [hleaf, htoken, ih]
  | case3 c rest hleaf htoken ih => rw [List.cons_append, leavesAmong]; simp [hleaf, htoken, ih]
  | case4 c rest hleaf ih =>
    rw [List.cons_append, leavesAmong]
    simpa [hleaf] using ih

theorem leavesAmong_cons (c : Concrete) (rest : List Concrete) :
    leavesAmong (c :: rest) = c.leaves ++ leavesAmong rest :=
  leavesAmong_append [c] rest

/-- The leaves of a node with children are those of the children. -/
theorem leaves_eq_leavesAmong {c : Concrete} (h : c.children ≠ []) :
    c.leaves = leavesAmong c.children := by
  have hempty : c.children.isEmpty = false := by simpa using h
  rw [leaves, leavesAmong]
  simp [hempty]

theorem leaves_eq_of_isEmpty {c : Concrete} (h : c.children = []) :
    c.leaves = if c.isToken then [c] else [] := by
  rw [leaves, leavesAmong]
  cases htoken : c.isToken <;> simp [h, leavesAmong]

/-- Comments have no leaves. -/
theorem leavesAmong_filter {cs : List Concrete}
    (h : ∀ c ∈ cs, c.isComment = true → c.children = []) :
    leavesAmong (cs.filter fun c => !c.isComment) = leavesAmong cs := by
  induction cs with
  | nil => rfl
  | cons c rest ih =>
    have hrest := ih fun d hd => h d (by simp [hd])
    cases hc : c.isComment with
    | false => simp [hc, leavesAmong_cons, hrest]
    | true =>
      have hleaves : c.leaves = [] := by
        rw [leaves_eq_of_isEmpty (h c (by simp) hc), isToken, hc]
        rfl
      simp [hc, leavesAmong_cons, hrest, hleaves]

/-- The leaves of a node stand together among those of the tree. -/
theorem leaves_infix {p c : Concrete} (h : p ∈ c.preorder) : p.leaves <:+: c.leaves := by
  induction c using induction_children with
  | h c ih =>
    rcases mem_preorder.mp h with rfl | ⟨d, hd, hp⟩
    · exact List.infix_refl _
    · obtain ⟨before, after, hsplit⟩ := List.append_of_mem hd
      rw [leaves_eq_leavesAmong (List.ne_nil_of_mem hd), hsplit, leavesAmong_append,
        leavesAmong_cons]
      exact (ih d hd hp).trans ⟨_, _, List.append_assoc ..⟩

/-- Spans that follow each other between two offsets. -/
def Fits (first last : Nat) : List Concrete → Prop
  | [] => first ≤ last
  | c :: rest => first ≤ c.start ∧ c.start ≤ c.stop ∧ Fits c.stop last rest

instance decidableFits : (first last : Nat) → (cs : List Concrete) → Decidable (Fits first last cs)
  | first, last, [] => inferInstanceAs (Decidable (first ≤ last))
  | first, last, c :: rest =>
    have := decidableFits c.stop last rest
    inferInstanceAs (Decidable (first ≤ c.start ∧ c.start ≤ c.stop ∧ Fits c.stop last rest))

theorem Fits.le {first last : Nat} {cs : List Concrete} (h : Fits first last cs) :
    first ≤ last := by
  induction cs generalizing first with
  | nil => exact h
  | cons c rest ih => exact Nat.le_trans h.1 (Nat.le_trans h.2.1 (ih h.2.2))

theorem Fits.of_le {first first' last : Nat} {cs : List Concrete} (h : Fits first last cs)
    (hle : first' ≤ first) : Fits first' last cs := by
  cases cs with
  | nil => exact Nat.le_trans hle h
  | cons c rest => exact ⟨Nat.le_trans hle h.1, h.2⟩

theorem Fits.sublist {first last : Nat} {cs ds : List Concrete} (h : Fits first last ds)
    (hsub : cs.Sublist ds) : Fits first last cs := by
  induction hsub generalizing first with
  | slnil => exact h
  | cons c hsub ih => exact ih (h.2.2.of_le (Nat.le_trans h.1 h.2.1))
  | cons_cons c hsub ih => exact ⟨h.1, h.2.1, ih h.2.2⟩

/-- Tokens in the order of the source between two offsets. -/
structure Ordered (first last : Nat) (tokens : List Concrete) : Prop where
  apart : tokens.Pairwise fun t u => t.stop ≤ u.start
  between : ∀ t ∈ tokens, first ≤ t.start ∧ t.start < t.stop ∧ t.stop ≤ last

theorem ordered_leavesAmong {first last : Nat} {cs : List Concrete} (hfits : Fits first last cs)
    (h : ∀ c ∈ cs, Ordered c.start c.stop c.leaves) : Ordered first last (leavesAmong cs) := by
  induction cs generalizing first with
  | nil => exact ⟨by simp [leavesAmong], by simp [leavesAmong]⟩
  | cons c rest ih =>
    obtain ⟨hfirst, hspan, hrest⟩ := hfits
    obtain ⟨hapart, hbetween⟩ := h c (by simp)
    obtain ⟨hapart', hbetween'⟩ := ih hrest fun d hd => h d (by simp [hd])
    have hlast := hrest.le
    rw [leavesAmong_cons]
    refine ⟨List.pairwise_append.mpr ⟨hapart, hapart', ?_⟩, ?_⟩
    · intro t ht u hu
      exact Nat.le_trans (hbetween t ht).2.2 (hbetween' u hu).1
    · intro t ht
      rcases List.mem_append.mp ht with ht | ht
      · have := hbetween t ht
        omega
      · have := hbetween' t ht
        omega

/-- Where the children of every node lie in order, so do the leaves. -/
theorem ordered_leaves {c : Concrete} (h : ∀ d ∈ c.preorder, Fits d.start d.stop d.children) :
    Ordered c.start c.stop c.leaves := by
  induction c using induction_children with
  | h c ih =>
    have hfits := h c c.self_mem_preorder
    by_cases hleaf : c.children = []
    · rw [leaves_eq_of_isEmpty hleaf]
      have hspan := hfits.le
      cases htoken : c.isToken with
      | false => exact ⟨by simp, by simp⟩
      | true =>
        have hne : c.start ≠ c.stop := by
          simp only [isToken, Bool.and_eq_true, bne_iff_ne] at htoken
          exact htoken.2
        refine ⟨by simp, ?_⟩
        simp only [if_true, List.mem_singleton, forall_eq]
        omega
    · rw [leaves_eq_leavesAmong hleaf]
      refine ordered_leavesAmong hfits fun d hd => ih d hd fun e he => h e ?_
      exact mem_preorder_trans he (mem_preorder_of_mem_children hd)

end EcmaPhp.Concrete
