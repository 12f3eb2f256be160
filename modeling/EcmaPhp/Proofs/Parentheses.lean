import EcmaPhp.Proofs.Operators
import EcmaPhp.Proofs.Source.Neighbours
import EcmaPhp.Proofs.Tree.OfConcrete

/-! Parentheses of the source: the tree of nodes has none, and the tokens around a node tell whether
it stood in some. -/
namespace EcmaPhp

/-- Parentheses and what stands in them. -/
structure Group where
  opening : Concrete
  inner : Concrete
  closing : Concrete

namespace Concrete

/-- The parentheses of an expression in parentheses; comments may stand anywhere in it. -/
def group? (c : Concrete) : Option Group :=
  if c.kind = "parenthesized_expression" then
    match c.children.filter fun d => !d.isComment with
    | [opening, inner, closing] => some ⟨opening, inner, closing⟩
    | _ => none
  else none

theorem kind_of_group? {c : Concrete} {g : Group} (h : c.group? = some g) :
    c.kind = "parenthesized_expression" := by
  rw [group?] at h
  split at h
  · assumption
  · cases h

theorem filter_of_group? {c : Concrete} {g : Group} (h : c.group? = some g) :
    (c.children.filter fun d => !d.isComment) = [g.opening, g.inner, g.closing] := by
  rw [group?] at h
  split at h
  · split at h
    · cases h
      assumption
    · cases h
  · cases h

theorem inner_mem_of_group? {c : Concrete} {g : Group} (h : c.group? = some g) :
    g.inner ∈ c.children := by
  have hmem : g.inner ∈ c.children.filter fun d => !d.isComment := by simp [filter_of_group? h]
  exact List.mem_of_mem_filter hmem

/-- The innermost of the parentheses around one expression. -/
def innermost? (c : Concrete) : Option Group :=
  match _h : c.group? with
  | none => none
  | some g => g.inner.innermost?.or (some g)
termination_by c.weight
decreasing_by exact weight_lt_of_mem (inner_mem_of_group? _h)

theorem innermost?_of_group? {c : Concrete} {g : Group} (h : c.group? = some g) :
    c.innermost? = g.inner.innermost?.or (some g) := by
  rw [innermost?]
  split <;> simp_all

theorem innermost?_eq_none {c : Concrete} (h : c.kind ≠ "parenthesized_expression") :
    c.innermost? = none := by
  have hgroup : c.group? = none := by rw [group?, if_neg h]
  rw [innermost?]
  split <;> simp_all

/-- A token that is a sign of one byte. -/
structure IsSign (bytes : List UInt8) (sign : String) (byte : UInt8) (c : Concrete) : Prop where
  kind : c.kind = sign
  named : c.named = false
  leaf : c.children = []
  text : slice bytes c.start c.stop = [byte]

end Concrete

/-- Parentheses as a parser gives them: blanks around what stands in them are not part of it. -/
structure Group.Formed (bytes : List UInt8) (g : Group) : Prop where
  opening : g.opening.IsSign bytes "(" 40
  closing : g.closing.IsSign bytes ")" 41
  named : g.inner.named = true
  kind : g.inner.kind ≠ "optional_chain"
  nonempty : g.inner.start < g.inner.stop
  first : SolidAt bytes g.inner.start
  last : SolidAt bytes (g.inner.stop - 1)

/-- A node as a parser gives it: its children lie in it one after the other, and parentheses hold
one expression. -/
structure Concrete.Formed (bytes : List UInt8) (c : Concrete) : Prop where
  spans : Fits c.start c.stop c.children
  comment : c.isComment = true → c.children = []
  group : c.kind = "parenthesized_expression" → ∃ g ∈ c.group?, g.Formed bytes

/-- A tree as a parser gives it for a source. -/
structure Concrete.Parsed (bytes : List UInt8) (tree : Concrete) : Prop where
  inside : tree.stop ≤ bytes.length
  formed : ∀ c ∈ tree.preorder, c.Formed bytes
  faultless : tree.firstFault? = none

instance (bytes : List UInt8) (sign : String) (byte : UInt8) (c : Concrete) :
    Decidable (c.IsSign bytes sign byte) :=
  decidable_of_iff (c.kind = sign ∧ c.named = false ∧ c.children.isEmpty ∧
      Concrete.slice bytes c.start c.stop = [byte])
    ⟨fun ⟨hkind, hnamed, hleaf, htext⟩ => ⟨hkind, hnamed, List.isEmpty_iff.mp hleaf, htext⟩,
      fun h => ⟨h.kind, h.named, List.isEmpty_iff.mpr h.leaf, h.text⟩⟩

instance (bytes : List UInt8) (g : Group) : Decidable (g.Formed bytes) :=
  decidable_of_iff
    (g.opening.IsSign bytes "(" 40 ∧ g.closing.IsSign bytes ")" 41 ∧ g.inner.named = true ∧
      g.inner.kind ≠ "optional_chain" ∧ g.inner.start < g.inner.stop ∧ SolidAt bytes g.inner.start ∧
      SolidAt bytes (g.inner.stop - 1))
    ⟨fun ⟨hopening, hclosing, hnamed, hkind, hspan, hfirst, hlast⟩ =>
        ⟨hopening, hclosing, hnamed, hkind, hspan, hfirst, hlast⟩,
      fun h => ⟨h.opening, h.closing, h.named, h.kind, h.nonempty, h.first, h.last⟩⟩

instance (bytes : List UInt8) (c : Concrete) : Decidable (c.Formed bytes) :=
  decidable_of_iff
    (Concrete.Fits c.start c.stop c.children ∧ (c.isComment = true → c.children.isEmpty) ∧
      (c.kind = "parenthesized_expression" → ∃ g ∈ c.group?, g.Formed bytes))
    ⟨fun ⟨hspans, hcomment, hgroup⟩ => ⟨hspans, fun h => List.isEmpty_iff.mp (hcomment h), hgroup⟩,
      fun h => ⟨h.spans, fun hc => List.isEmpty_iff.mpr (h.comment hc), h.group⟩⟩

instance (bytes : List UInt8) (tree : Concrete) : Decidable (tree.Parsed bytes) :=
  decidable_of_iff (tree.stop ≤ bytes.length ∧ (∀ c ∈ tree.preorder, c.Formed bytes) ∧
      tree.firstFault?.isNone)
    ⟨fun ⟨hinside, hformed, hfault⟩ => ⟨hinside, hformed, Option.isNone_iff_eq_none.mp hfault⟩,
      fun h => ⟨h.inside, h.formed, Option.isNone_iff_eq_none.mpr h.faultless⟩⟩

namespace Node

open Concrete

/-- The places of the children: comments and signs add none. -/
theorem map_location_gather (bytes : List UInt8) (s : Siblings) (cs : List Concrete)
    (hkind : ∀ c ∈ cs, c.kind ≠ "optional_chain") :
    (gather bytes false s cs).children.map (·.location) =
      (((cs.filter fun c => !c.isComment).filter fun c => c.named && !c.missing).map fun c =>
        (ofConcrete bytes c).location).reverse ++ s.children.map (·.location) := by
  induction cs generalizing s with
  | nil => simp [gather]
  | cons c rest ih =>
    have hrest (s : Siblings) := ih s fun d hd => hkind d (by simp [hd])
    rw [gather]
    cases hcomment : c.isComment with
    | true => simp [hrest, hcomment, Siblings.map_addComment]
    | false =>
      cases hnamed : c.named && !c.missing with
      | true => simp [hrest, hcomment, hnamed, hkind c, Siblings.addChild]
      | false => simp [hrest, hcomment, hnamed, hkind c, Siblings.addToken]

theorem location_unwrap_of_ne {n : Node} (h : n.kind ≠ .parenthesized) :
    n.unwrap.location = n.location := by
  rw [unwrap]
  split
  · exact absurd ‹_› h
  · rfl

theorem location_ofConcrete {bytes : List UInt8} {c : Concrete}
    (h : c.kind ≠ "parenthesized_expression") :
    (ofConcrete bytes c).location = c.location bytes := by
  cases c
  rw [ofConcrete, location_unwrap_of_ne]
  · rfl
  · intro hkind
    refine h ?_
    rw [← Kind.name_ofName (Concrete.kind _)]
    exact congrArg Kind.name hkind

theorem kind_ne_optionalChain {c d : Concrete} {bytes : List UInt8} {g : Group}
    (hg : c.group? = some g) (hformed : g.Formed bytes) (hd : d ∈ c.children) :
    d.kind ≠ "optional_chain" := by
  cases hcomment : d.isComment with
  | true =>
    simp only [isComment, Bool.or_eq_true, decide_eq_true_eq] at hcomment
    rcases hcomment with hkind | hkind <;> simp [hkind]
  | false =>
    have hmem : d ∈ c.children.filter fun d => !d.isComment :=
      List.mem_filter.mpr ⟨hd, by simp [hcomment]⟩
    simp only [filter_of_group? hg, List.mem_cons, List.not_mem_nil, or_false] at hmem
    rcases hmem with rfl | rfl | rfl
    · simp [hformed.opening.kind]
    · exact hformed.kind
    · simp [hformed.closing.kind]

/-- An expression in parentheses has the place of what stands in them. -/
theorem location_ofConcrete_of_group? {bytes : List UInt8} {c : Concrete} {g : Group}
    (hg : c.group? = some g) (hformed : g.Formed bytes) (hmissing : g.inner.missing = false) :
    (ofConcrete bytes c).location = (ofConcrete bytes g.inner).location := by
  have hkind := kind_of_group? hg
  have hchildren : (gather bytes false {} c.children).children.map (·.location) =
      [(ofConcrete bytes g.inner).location] := by
    rw [map_location_gather bytes {} c.children fun d => kind_ne_optionalChain hg hformed]
    simp [filter_of_group? hg, hformed.opening.named, hformed.named, hmissing,
      hformed.closing.named]
  obtain ⟨x, hx, hlocation⟩ := List.map_eq_singleton_iff.mp hchildren
  rw [← hlocation]
  cases c
  simp only at hkind hx
  subst hkind
  have hparenthesized : Kind.ofName "parenthesized_expression" = .parenthesized := by decide
  have harray : Kind.parenthesized.isArray = false := rfl
  simp only [ofConcrete, hparenthesized, harray, hx, unwrap, List.reverse_singleton]

end Node

namespace Concrete

variable {bytes : List UInt8} {tree c : Concrete}

theorem Parsed.missing_eq (h : tree.Parsed bytes) (hc : c ∈ tree.preorder) : c.missing = false := by
  have hfault := isFault_of_firstFault? h.faultless hc
  simp only [isFault, Bool.or_eq_false_iff] at hfault
  exact hfault.2

/-- An expression in parentheses is placed where its innermost parentheses have their content. -/
theorem Parsed.exists_innermost? (h : tree.Parsed bytes) (hc : c ∈ tree.preorder)
    (hkind : c.kind = "parenthesized_expression") :
    ∃ g p, c.innermost? = some g ∧ p ∈ tree.preorder ∧ p.group? = some g ∧ g.Formed bytes ∧
      (Node.ofConcrete bytes c).location = g.inner.location bytes := by
  induction c using induction_children with
  | h c ih =>
    obtain ⟨g, hg, hformed⟩ := (h.formed c hc).group hkind
    have hinner := inner_mem_of_group? hg
    have hmem := mem_preorder_trans (mem_preorder_of_mem_children hinner) hc
    have hlocation := Node.location_ofConcrete_of_group? hg hformed (h.missing_eq hmem)
    rw [innermost?_of_group? hg]
    by_cases hdeeper : g.inner.kind = "parenthesized_expression"
    · obtain ⟨g', p, hinnermost, hp, hgroup, hformed', hlocation'⟩ := ih g.inner hinner hmem hdeeper
      exact ⟨g', p, by rw [hinnermost, Option.some_or], hp, hgroup, hformed',
        hlocation.trans hlocation'⟩
    · rw [Node.location_ofConcrete hdeeper] at hlocation
      exact ⟨g, c, by rw [innermost?_eq_none hdeeper, Option.none_or], hc, hg, hformed, hlocation⟩

/-- A sign of one byte stands at the start of its token. -/
theorem IsSign.solidAt {sign : String} {b : UInt8} (h : c.IsSign bytes sign b)
    (hblank : Token.isBlankByte b = false) :
    c.start < c.stop ∧ SolidAt bytes c.start := by
  have htext := h.text
  rw [slice] at htext
  have hspan : c.start < c.stop := by
    by_contra hle
    rw [Nat.sub_eq_zero_of_le (by omega), List.take_zero] at htext
    cases htext
  refine ⟨hspan, b, ?_, hblank⟩
  have hfirst := congrArg (·[0]?) htext
  simp only [List.getElem?_take_of_lt (show 0 < c.stop - c.start by omega), List.getElem?_drop]
    at hfirst
  simpa using hfirst

theorem IsSign.leaves_eq {sign : String} {b : UInt8} (h : c.IsSign bytes sign b)
    (hblank : Token.isBlankByte b = false) (hcomment : c.isComment = false)
    (hmissing : c.missing = false) : c.leaves = [c] := by
  have hspan := (h.solidAt hblank).1
  have htoken : c.isToken = true := by
    simp only [isToken, hcomment, hmissing, Bool.not_false, Bool.true_and, bne_iff_ne]
    omega
  rw [leaves_eq_of_isEmpty h.leaf, htoken]
  rfl

/-- Parentheses and their content among the leaves of the tree. -/
theorem Parsed.leaves_of_group? (h : tree.Parsed bytes) (hc : c ∈ tree.preorder) {g : Group}
    (hg : c.group? = some g) (hformed : g.Formed bytes) :
    ∃ before after,
      tree.leaves = before ++ g.opening :: (g.inner.leaves ++ g.closing :: after) := by
  have hmember {d : Concrete} (hd : d ∈ c.children.filter fun d => !d.isComment) :
      d.isComment = false ∧ d.missing = false := by
    have hmem := List.mem_filter.mp hd
    have htree := mem_preorder_trans (mem_preorder_of_mem_children hmem.1) hc
    exact ⟨by simpa using hmem.2, h.missing_eq htree⟩
  have hfilter := filter_of_group? hg
  have hopening := hmember (show g.opening ∈ _ by simp [hfilter])
  have hclosing := hmember (show g.closing ∈ _ by simp [hfilter])
  have hleaves : c.leaves = g.opening :: (g.inner.leaves ++ [g.closing]) := by
    have hcomments : ∀ d ∈ c.children, d.isComment = true → d.children = [] := fun d hd =>
      (h.formed d (mem_preorder_trans (mem_preorder_of_mem_children hd) hc)).comment
    rw [leaves_eq_leavesAmong (List.ne_nil_of_mem (inner_mem_of_group? hg)),
      ← leavesAmong_filter hcomments, hfilter, leavesAmong_cons, leavesAmong_cons, leavesAmong_cons,
      hformed.opening.leaves_eq (by decide) hopening.1 hopening.2,
      hformed.closing.leaves_eq (by decide) hclosing.1 hclosing.2]
    simp [leavesAmong]
  obtain ⟨before, after, htree⟩ := leaves_infix hc
  exact ⟨before, after, by rw [← htree, hleaves]; simp⟩

theorem Parsed.ordered_leaves (h : tree.Parsed bytes) (hc : c ∈ tree.preorder) :
    Ordered c.start c.stop c.leaves :=
  Concrete.ordered_leaves fun d hd => (h.formed d (mem_preorder_trans hd hc)).spans

/-- What stands in parentheses lies between them. -/
theorem Parsed.stop_le_start (h : tree.Parsed bytes) (hc : c ∈ tree.preorder) {g : Group}
    (hg : c.group? = some g) : g.opening.stop ≤ g.inner.start ∧ g.inner.stop ≤ g.closing.start := by
  have hfits := (h.formed c hc).spans.sublist (List.filter_sublist (p := fun d => !d.isComment))
  rw [filter_of_group? hg] at hfits
  obtain ⟨-, -, hinner, -, hclosing, -⟩ := hfits
  exact ⟨hinner, hclosing⟩

/-- A token stands before a group, in it, or after it. -/
theorem Parsed.leaf_cases (h : tree.Parsed bytes) (hc : c ∈ tree.preorder) {g : Group}
    (hg : c.group? = some g) (hformed : g.Formed bytes) {t : Concrete} (ht : t ∈ tree.leaves) :
    t.stop ≤ g.opening.start ∨ t = g.opening ∨ g.inner.start ≤ t.start ∧ t.stop ≤ g.inner.stop ∨
      t = g.closing ∨ g.closing.stop ≤ t.start := by
  obtain ⟨before, after, hleaves⟩ := h.leaves_of_group? hc hg hformed
  have hinner := mem_preorder_trans (mem_preorder_of_mem_children (inner_mem_of_group? hg)) hc
  have hapart := (h.ordered_leaves tree.self_mem_preorder).apart
  rw [hleaves] at hapart ht
  obtain ⟨-, hrest, hbefore⟩ := List.pairwise_append.mp hapart
  obtain ⟨-, hafter, -⟩ := List.pairwise_append.mp (List.pairwise_cons.mp hrest).2
  simp only [List.mem_append, List.mem_cons] at ht
  rcases ht with ht | rfl | ht | rfl | ht
  · exact .inl (hbefore t ht g.opening (by simp))
  · exact .inr (.inl rfl)
  · have hbetween := (h.ordered_leaves hinner).between t ht
    exact .inr (.inr (.inl ⟨hbetween.1, hbetween.2.2⟩))
  · exact .inr (.inr (.inr (.inl rfl)))
  · exact .inr (.inr (.inr (.inr ((List.pairwise_cons.mp hafter).1 t ht))))

/-- The index finds the parentheses around a span just where blanks alone separate them from it. -/
theorem Parsed.isParenthesized_iff (h : tree.Parsed bytes) (hc : c ∈ tree.preorder) {g : Group}
    (hg : c.group? = some g) (hformed : g.Formed bytes) :
    (TokenIndex.ofTree bytes tree).isParenthesized (g.inner.location bytes) = true ↔
      BlankBetween bytes g.opening.stop g.inner.start ∧
        BlankBetween bytes g.inner.stop g.closing.start := by
  obtain ⟨before, after, hleaves⟩ := h.leaves_of_group? hc hg hformed
  have hgap := h.stop_le_start hc hg
  have hopening := hformed.opening.solidAt (by decide)
  have hclosing := hformed.closing.solidAt (by decide)
  have hspan := hformed.nonempty
  have hlength := hformed.last.lt_length
  have hleaf (t : Concrete) (ht : t ∈ tree.leaves) : t.start < t.stop ∧ t.stop ≤ bytes.length := by
    have hbetween := (h.ordered_leaves tree.self_mem_preorder).between t ht
    have hinside := h.inside
    omega
  have hforward (t : Concrete) : Token.skipForward bytes t.stop = g.inner.start ↔
      t.stop ≤ g.inner.start ∧ BlankBetween bytes t.stop g.inner.start :=
    Token.skipForward_eq_iff hformed.first
  have hback (t : Concrete) (ht : t ∈ tree.leaves) : Token.skipBack bytes t.start = g.inner.stop ↔
      g.inner.stop ≤ t.start ∧ BlankBetween bytes g.inner.stop t.start :=
    Token.skipBack_eq_iff (Nat.le_trans (hleaf t ht).1.le (hleaf t ht).2) (by omega) hformed.last
  -- Whatever else reaches the span over blanks would reach it over a parenthesis.
  have hbefore : ∀ t ∈ tree.leaves,
      Token.skipForward bytes t.stop = g.inner.start → t = g.opening := by
    intro t ht hreach
    obtain ⟨hle, hblank⟩ := (hforward t).mp hreach
    have hnonempty := hleaf t ht
    rcases h.leaf_cases hc hg hformed ht with hcase | rfl | hcase | rfl | hcase
    · exact absurd hopening.2 (hblank.not_solidAt hcase (by omega))
    · rfl
    all_goals omega
  have hafter : ∀ t ∈ tree.leaves, Token.skipBack bytes t.start = g.inner.stop → t = g.closing := by
    intro t ht hreach
    obtain ⟨hle, hblank⟩ := (hback t ht).mp hreach
    have hnonempty := hleaf t ht
    rcases h.leaf_cases hc hg hformed ht with hcase | rfl | hcase | rfl | hcase
    · omega
    · omega
    · omega
    · rfl
    · exact absurd hclosing.2 (hblank.not_solidAt hgap.2 (by omega))
  have hmemOpening : g.opening ∈ tree.leaves := by simp [hleaves]
  have hmemClosing : g.closing ∈ tree.leaves := by simp [hleaves]
  have hinside : ∀ t ∈ tree.leaves, t.start ≤ bytes.length ∧ t.stop ≤ bytes.length := fun t ht =>
    ⟨Nat.le_trans (hleaf t ht).1.le (hleaf t ht).2, (hleaf t ht).2⟩
  rw [location,
    TokenIndex.isParenthesized_ofTree hinside (by omega) (by omega) hmemOpening hmemClosing
    hbefore hafter, hforward, hback _ hmemClosing, hformed.opening.kind, hformed.closing.kind]
  simp [hgap]

end Concrete

/-- The index finds the parentheses that stood around a node just where blanks alone separate the
node from the innermost of them; then PHP reads the node in parentheses too. -/
theorem parentheses_survive {bytes : List UInt8} {tree c : Concrete} (h : tree.Parsed bytes)
    (hc : c ∈ tree.preorder) (hkind : c.kind = "parenthesized_expression") :
    ∃ g, c.innermost? = some g ∧
      ((TokenIndex.ofTree bytes tree).isParenthesized (Node.ofConcrete bytes c).location = true ↔
        BlankBetween bytes g.opening.stop g.inner.start ∧
          BlankBetween bytes g.inner.stop g.closing.start) ∧
      ∀ (n : Node) (e : OperatorTree n) (env : EmitEnv) (s : EmitState),
        BlankBetween bytes g.opening.stop g.inner.start →
        BlankBetween bytes g.inner.stop g.closing.start →
        n.location = (Node.ofConcrete bytes c).location → env.tokens = .ofTree bytes tree →
        ∃ (t : EmitState) (written : List Char) (p : Php.Expr),
          (emitNode n {}).run env s = .ok () t ∧
          t.output.text = Text.trimEnd Text.isBlank s.output.text ++ written ∧
          Php.Spells e.comments written (Php.Expr.parens p).lexemes ∧ p.tree = e.tree s.scopes := by
  obtain ⟨g, p, hinnermost, hp, hgroup, hformed, hlocation⟩ := h.exists_innermost? hc hkind
  have hiff := h.isParenthesized_iff hp hgroup hformed
  refine ⟨g, hinnermost, hlocation ▸ hiff, ?_⟩
  intro n e env s hbefore hafter hplace htokens
  have hwraps : Parens.asSource.wraps env.tokens n = true := by
    rw [Parens.wraps, htokens, hplace, hlocation]
    exact hiff.mpr ⟨hbefore, hafter⟩
  obtain ⟨q, hq⟩ : ∃ q, e.expr env.tokens s.scopes .asSource = .parens q := by
    cases e <;> simp [OperatorTree.expr, hwraps, Php.Expr.wrap]
  have hwrites : Writes env e.comments s.scopes (emitNode n {})
      (e.expr env.tokens s.scopes .asSource).lexemes := e.writes rfl rfl (List.Subset.refl _)
  obtain ⟨t, hrun, ⟨written, hspells, htext, -⟩, -⟩ := hwrites s rfl
  have htree : (Php.Expr.parens q).tree = e.tree s.scopes := hq ▸ e.tree_expr _ _ _
  exact ⟨t, written, q, hrun, htext, hq ▸ hspells, htree⟩

namespace Concrete

def nestedSum : Concrete :=
  branch "binary_expression" 4 9 none
    [branch "identifier" 4 5 (some "left") [], token "+" 6 7,
      branch "identifier" 8 9 (some "right") []]

def nestedGroup : Concrete :=
  branch "parenthesized_expression" 0 11 (some "left")
    [token "(" 0 1,
      branch "parenthesized_expression" 1 10 none [token "(" 1 2, nestedSum, token ")" 9 10],
      token ")" 10 11]

/-- A product of a sum in two pairs of parentheses, the inner one with a line end and a space. -/
def nestedProduct : Concrete :=
  branch "binary_expression" 0 15 none
    [nestedGroup, token "*" 12 13, branch "identifier" 14 15 (some "right") []]

def nestedBytes : List UInt8 := Text.Utf8.encode "((\n a + b)) * c".toList

end Concrete

open Concrete in
theorem parentheses_survive_nested :
    nestedProduct.Parsed nestedBytes ∧ nestedGroup ∈ nestedProduct.preorder ∧
      (TokenIndex.ofTree nestedBytes nestedProduct).isParenthesized
        (Node.ofConcrete nestedBytes nestedGroup).location = true := by
  have hparsed : nestedProduct.Parsed nestedBytes := by decide +kernel
  have hmem : nestedGroup ∈ nestedProduct.preorder :=
    mem_preorder_of_mem_children (by simp [nestedProduct, branch])
  obtain ⟨g, hinnermost, hiff, -⟩ := parentheses_survive hparsed hmem rfl
  refine ⟨hparsed, hmem, hiff.mpr ?_⟩
  have hblank : ∀ g ∈ nestedGroup.innermost?,
      BlankBetween nestedBytes g.opening.stop g.inner.start ∧
      BlankBetween nestedBytes g.inner.stop g.closing.start := by decide +kernel
  exact hblank g hinnermost

open Concrete in
/-- A comment behind a parenthesis hides it. -/
example :
    let bytes := Text.Utf8.encode "(/**/a)".toList
    let group := branch "parenthesized_expression" 0 7 none
      [token "(" 0 1, branch "comment" 1 5 none [], branch "identifier" 5 6 none [], token ")" 6 7]
    group.Parsed bytes ∧
      (TokenIndex.ofTree bytes group).isParenthesized (Node.ofConcrete bytes group).location =
        false := by
  decide +kernel

end EcmaPhp
