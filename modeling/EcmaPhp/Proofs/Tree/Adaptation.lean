import EcmaPhp.Proofs.Builtin.Purity
import EcmaPhp.Proofs.Source.Neighbours
import EcmaPhp.Proofs.Tree.OfConcrete

/-! The tree of a program loses nothing of the concrete one: its nodes are the named nodes that are
not parentheses, each in its field, and its comments are the comments of the source in their
order. -/
namespace EcmaPhp

/-- What is told of a node in a listing: its kind, its bytes, and the field that holds it. -/
structure Entry where
  kind : String
  start : Nat
  stop : Nat
  field : Option String
  deriving DecidableEq, Repr

namespace Concrete

def isWrapper (c : Concrete) : Bool := c.kind = "parenthesized_expression"

/-- Whether a concrete node becomes a node of its own. -/
def isKept (c : Concrete) : Bool := c.isPart && !c.isWrapper

mutual
/-- All nodes, each before its children, with the field in which the tree holds them. What stands in
parentheses is held where they are. -/
def placed (field : Option String) : Concrete → List (Concrete × Option String)
  | ⟨kind, named, missing, start, stop, ownField, children⟩ =>
    let c : Concrete := ⟨kind, named, missing, start, stop, ownField, children⟩
    (c, field) :: placedAll (if c.isWrapper then some field else none) children
def placedAll (outer : Option (Option String)) : List Concrete → List (Concrete × Option String)
  | [] => []
  | c :: rest => placed (outer.getD c.field) c ++ placedAll outer rest
end

def entry (p : Concrete × Option String) : Entry := ⟨p.1.kind, p.1.start, p.1.stop, p.2⟩

/-- The nodes that are kept, in preorder. -/
def listing (field : Option String) (c : Concrete) : List Entry :=
  ((c.placed field).filter (·.1.isKept)).map entry

def listingAll (outer : Option (Option String)) (cs : List Concrete) : List Entry :=
  ((placedAll outer cs).filter (·.1.isKept)).map entry

def comment (bytes : List UInt8) (c : Concrete) : Comment :=
  .ofText c.start (c.location bytes) (c.text bytes)

/-- The comments at and below a node, in the order of the source. -/
def comments (bytes : List UInt8) (c : Concrete) : List Comment :=
  (c.preorder.filter isComment).map (comment bytes)

def commentsAll (bytes : List UInt8) (cs : List Concrete) : List Comment :=
  ((preorderAll cs).filter isComment).map (comment bytes)

/-- Parentheses hold one node, and neither nodes nor comments stand below a sign or a comment. -/
structure Regular (c : Concrete) : Prop where
  wrapper : ∀ d ∈ c.preorder, d.isWrapper = true → (d.children.filter isPart).length = 1
  sign : ∀ d ∈ c.preorder, d.isPart = false →
    ∀ e ∈ d.children, e.isPart = false ∧ e.isComment = false

instance (c : Concrete) : Decidable c.Regular :=
  decidable_of_iff
    ((∀ d ∈ c.preorder, d.isWrapper = true → (d.children.filter isPart).length = 1) ∧
      ∀ d ∈ c.preorder, d.isPart = false →
        ∀ e ∈ d.children, e.isPart = false ∧ e.isComment = false)
    ⟨fun h => ⟨h.1, h.2⟩, fun h => ⟨h.1, h.2⟩⟩

theorem placed_eq (field : Option String) (c : Concrete) :
    c.placed field =
      (c, field) :: placedAll (if c.isWrapper then some field else none) c.children := by
  cases c
  rw [placed]

theorem map_fst_placedAll {cs : List Concrete}
    (h : ∀ c ∈ cs, ∀ field, (c.placed field).map (·.1) = c.preorder)
    (outer : Option (Option String)) :
    (placedAll outer cs).map (·.1) = preorderAll cs := by
  induction cs with
  | nil => rfl
  | cons c rest ih =>
    rw [placedAll, preorderAll, List.map_append, h c (by simp), ih fun d hd => h d (by simp [hd])]

/-- Fields apart, the listing goes through the nodes in preorder. -/
theorem map_fst_placed (c : Concrete) (field : Option String) :
    (c.placed field).map (·.1) = c.preorder := by
  induction c using induction_children generalizing field with
  | h c ih => rw [placed_eq, preorder_eq, List.map_cons, map_fst_placedAll ih]

theorem listing_eq (field : Option String) (c : Concrete) :
    c.listing field = (if c.isKept then [entry (c, field)] else []) ++
      listingAll (if c.isWrapper then some field else none) c.children := by
  rw [listing, placed_eq, List.filter_cons]
  split <;> rfl

theorem listingAll_cons (outer : Option (Option String)) (c : Concrete) (rest : List Concrete) :
    listingAll outer (c :: rest) = c.listing (outer.getD c.field) ++ listingAll outer rest := by
  simp [listingAll, listing, placedAll]

theorem comments_eq (bytes : List UInt8) (c : Concrete) :
    c.comments bytes = (if c.isComment then [c.comment bytes] else []) ++
      commentsAll bytes c.children := by
  rw [comments, preorder_eq, List.filter_cons]
  split <;> rfl

theorem commentsAll_cons (bytes : List UInt8) (c : Concrete) (rest : List Concrete) :
    commentsAll bytes (c :: rest) = c.comments bytes ++ commentsAll bytes rest := by
  simp [commentsAll, comments, preorderAll]

namespace Regular

variable {c d : Concrete} {cs : List Concrete}

theorem child (h : c.Regular) (hd : d ∈ c.children) : d.Regular where
  wrapper e he := h.wrapper e (mem_preorder.mpr (.inr ⟨d, hd, he⟩))
  sign e he := h.sign e (mem_preorder.mpr (.inr ⟨d, hd, he⟩))

/-- A sign has only signs below it. -/
theorem isPart_of_mem (h : c.Regular) (hc : c.isPart = false) (hd : d ∈ c.preorder) :
    d.isPart = false ∧ (d = c ∨ d.isComment = false) := by
  induction c using induction_children with
  | h c ih =>
    rcases mem_preorder.mp hd with rfl | ⟨e, he, hd⟩
    · exact ⟨hc, .inl rfl⟩
    · obtain ⟨hpart, hcomment⟩ := h.sign c c.self_mem_preorder hc e he
      obtain ⟨hpart', hcases⟩ := ih e he (h.child he) hpart hd
      refine ⟨hpart', .inr ?_⟩
      rcases hcases with rfl | hnone
      · exact hcomment
      · exact hnone

theorem listing_eq_nil (h : c.Regular) (hc : c.isPart = false) (field : Option String) :
    c.listing field = [] := by
  rw [listing, List.map_eq_nil_iff, List.filter_eq_nil_iff]
  intro p hp
  have hmem : p.1 ∈ c.preorder := c.map_fst_placed field ▸ List.mem_map_of_mem hp
  simp [isKept, (h.isPart_of_mem hc hmem).1]

/-- Only nodes are listed. -/
theorem listingAll_filter (h : ∀ d ∈ cs, d.Regular) (outer : Option (Option String)) :
    listingAll outer (cs.filter isPart) = listingAll outer cs := by
  induction cs with
  | nil => rfl
  | cons c rest ih =>
    have hrest := ih fun d hd => h d (by simp [hd])
    rw [List.filter_cons]
    cases hc : c.isPart with
    | true => simp [listingAll_cons, hrest]
    | false => simp [listingAll_cons, hrest, (h c (by simp)).listing_eq_nil hc]

theorem comments_eq_of_sign (bytes : List UInt8) (h : c.Regular) (hc : c.isPart = false) :
    c.comments bytes = if c.isComment then [c.comment bytes] else [] := by
  have hnone : commentsAll bytes c.children = [] := by
    rw [commentsAll, List.map_eq_nil_iff, List.filter_eq_nil_iff]
    intro d hd
    obtain ⟨e, he, hd⟩ := mem_preorderAll.mp hd
    obtain ⟨hpart, hcomment⟩ := h.sign c c.self_mem_preorder hc e he
    rcases ((h.child he).isPart_of_mem hpart hd).2 with rfl | hnone
    · simp [hcomment]
    · simp [hnone]
  rw [comments_eq, hnone, List.append_nil]

end Regular
end Concrete

namespace Node

/-- A node that stands for a hole of an array. -/
def isHole (n : Node) : Bool := n.kind = .elision && n.isSynthetic

def entry (n : Node) : Entry := ⟨n.kind.name, n.start, n.stop, n.field.map Field.text⟩

/-- The node in another field. -/
def under (n : Node) (field : Option String) : Node := { n with field := field.map Field.ofText }

/-- The nodes without the holes, in preorder. -/
def listing (n : Node) : List Entry := (n.preorder.filter fun m => !m.isHole).map entry

def listingAll (ns : List Node) : List Entry :=
  ((preorderAll ns).filter fun m => !m.isHole).map entry

mutual
/-- The comments before a node, below it, inside it and behind it. -/
def comments : Node → List Comment
  | ⟨_, _, _, _, _, _, _, _, leading, trailing, inner, _, children⟩ =>
    leading ++ commentsAll children ++ inner ++ trailing
def commentsAll : List Node → List Comment
  | [] => []
  | n :: rest => comments n ++ commentsAll rest
end

theorem comments_eq (n : Node) :
    n.comments = n.leading ++ commentsAll n.children ++ n.inner ++ n.trailing := by
  cases n
  rw [comments]

theorem commentsAll_append (ns ms : List Node) :
    commentsAll (ns ++ ms) = commentsAll ns ++ commentsAll ms := by
  induction ns with
  | nil => rfl
  | cons n rest ih => rw [List.cons_append, commentsAll, commentsAll, ih, List.append_assoc]

@[simp] theorem commentsAll_singleton (n : Node) : commentsAll [n] = n.comments := by
  rw [commentsAll, commentsAll, List.append_nil]

theorem listing_eq (n : Node) :
    n.listing = (if n.isHole then [] else [n.entry]) ++ listingAll n.children := by
  rw [listing, preorder_eq, List.filter_cons]
  cases n.isHole <;> rfl

theorem listingAll_cons (n : Node) (rest : List Node) :
    listingAll (n :: rest) = n.listing ++ listingAll rest := by
  simp [listingAll, listing, preorderAll]

@[simp] theorem listingAll_singleton (n : Node) : listingAll [n] = n.listing := by
  rw [listingAll_cons]
  exact List.append_nil _

theorem listingAll_append (ns ms : List Node) :
    listingAll (ns ++ ms) = listingAll ns ++ listingAll ms := by
  induction ns with
  | nil => rfl
  | cons n rest ih => rw [List.cons_append, listingAll_cons, listingAll_cons, ih, List.append_assoc]

/-- Comments make no difference to the listing. -/
theorem listing_uncommented (n : Node) : n.uncommented.listing = n.listing := by
  rw [listing_eq, listing_eq]
  rfl

theorem listingAll_map_uncommented (ns : List Node) :
    listingAll (ns.map uncommented) = listingAll ns := by
  induction ns with
  | nil => rfl
  | cons n rest ih => rw [List.map_cons, listingAll_cons, listingAll_cons, listing_uncommented, ih]

theorem kind_eq_parenthesized {c : Concrete} :
    Kind.ofName c.kind = .parenthesized ↔ c.isWrapper = true := by
  constructor
  · intro h
    have hname := congrArg Kind.name h
    rw [Kind.name_ofName] at hname
    exact decide_eq_true hname
  · intro h
    rw [show c.kind = "parenthesized_expression" by simpa [Concrete.isWrapper] using h]
    rfl

variable {bytes : List UInt8} {isArray : Bool} {s : Siblings} {c : Concrete}

/-- Outside arrays the children are the nodes among the concrete children. -/
theorem map_uncommented_gather (cs : List Concrete) :
    (gather bytes false s cs).children.map uncommented =
      ((cs.filter Concrete.isPart).map (child bytes)).reverse ++ s.children.map uncommented := by
  induction cs generalizing s with
  | nil => rfl
  | cons c rest ih =>
    rw [gather, ih, List.filter_cons]
    split
    · rename_i hcomment
      rw [Siblings.map_addComment (fun _ _ => rfl)]
      simp [Concrete.isPart, hcomment]
    · split
      · rename_i hchain
        simp [Concrete.isPart, hchain]
      · split
        · rename_i hcomment hchain hnamed
          have hpart : c.isPart = true := by simp_all [Concrete.isPart]
          simp only [hpart, if_true, List.map_cons, List.reverse_cons, List.append_assoc]
          rfl
        · rename_i hcomment hchain hsign
          have hpart : c.isPart = false := by simp_all [Concrete.isPart]
          simp [hpart, Siblings.addToken]

/-- Parentheses hold the node inside them and nothing else. -/
theorem exists_children_wrapped (h : c.Regular) (hc : c.isWrapper = true) (bytes : List UInt8) :
    ∃ d ∈ c.children, d.isPart = true ∧ c.children.filter Concrete.isPart = [d] ∧
      ∃ m, (wrapped bytes c).children = [m] ∧ m.uncommented = child bytes d := by
  obtain ⟨d, hfilter⟩ := List.length_eq_one_iff.mp (h.wrapper c c.self_mem_preorder hc)
  have hd : d ∈ c.children.filter Concrete.isPart := by simp [hfilter]
  obtain ⟨hmem, hpart⟩ := List.mem_filter.mp hd
  have hkind := kind_eq_parenthesized.mpr hc
  have hchildren : (gather bytes false {} c.children).children.map uncommented = _ :=
    map_uncommented_gather c.children
  rw [hfilter] at hchildren
  obtain ⟨m, hm, huncommented⟩ := List.map_eq_singleton_iff.mp hchildren
  refine ⟨d, hmem, hpart, hfilter, m, ?_, huncommented⟩
  simp only [wrapped, hkind, Kind.isArray, hm, List.reverse_singleton]

theorem unwrap_of_children_eq {n m : Node} (hkind : n.kind = .parenthesized)
    (hchildren : n.children = [m]) :
    n.unwrap = { m with trailing := m.trailing ++ n.inner } := by
  unfold unwrap
  split
  · rename_i first rest _ heq
    rw [hchildren] at heq
    cases heq
    rfl
  · rename_i hnone
    exact absurd hchildren (hnone m [] hkind)

theorem unwrap_of_not_isWrapper (hc : c.isWrapper = false) (bytes : List UInt8) :
    (wrapped bytes c).unwrap = wrapped bytes c := by
  have hkind : (wrapped bytes c).kind ≠ .parenthesized := by
    intro h
    simp [kind_eq_parenthesized.mp h] at hc
  unfold unwrap
  split
  · rename_i h _
    exact absurd h hkind
  · rfl

/-- The nodes below a node are listed as its concrete children list them. -/
theorem listingAll_gather {cs : List Concrete}
    (hcs : ∀ d ∈ cs, d.Regular ∧ (d.isPart = true → (child bytes d).listing = d.listing d.field)) :
    listingAll (gather bytes isArray s cs).children.reverse =
      listingAll s.children.reverse ++ Concrete.listingAll none cs := by
  induction cs generalizing s with
  | nil => simp [gather, Concrete.listingAll, Concrete.placedAll]
  | cons c rest ih =>
    obtain ⟨hregular, hlisting⟩ := hcs c (by simp)
    obtain ⟨s', hgather, hstep⟩ := exists_gather_cons bytes isArray s c rest
    rw [hgather, ih fun d hd => hcs d (by simp [hd]), Concrete.listingAll_cons,
      ← List.append_assoc]
    congr 1
    rw [← listingAll_map_uncommented, ← listingAll_map_uncommented s.children.reverse,
      List.map_reverse, List.map_reverse]
    rcases hstep with ⟨hpart, hchild⟩ | ⟨hpart, hsame | hhole⟩
    · rw [hchild, List.reverse_cons, listingAll_append, listingAll_singleton, hlisting hpart]
      rfl
    · rw [hsame, hregular.listing_eq_nil hpart, List.append_nil]
    · rw [hhole, List.reverse_cons, listingAll_append, hregular.listing_eq_nil hpart]
      rfl

/-- What comes from the source has a place in it. -/
theorem isSynthetic_ofConcrete (h : c.Regular) (bytes : List UInt8) :
    (ofConcrete bytes c).isSynthetic = false := by
  induction c using Concrete.induction_children with
  | h c ih =>
    rw [ofConcrete_eq_unwrap]
    cases hc : c.isWrapper with
    | true =>
      obtain ⟨d, hd, -, -, m, hchildren, hm⟩ := exists_children_wrapped h hc bytes
      rw [unwrap_of_children_eq (kind_eq_parenthesized.mpr hc) hchildren]
      have hlocation : m.uncommented.location = (child bytes d).location := by rw [hm]
      exact (congrArg Location.isUnknown hlocation).trans (ih d hd (h.child hd))
    | false =>
      rw [unwrap_of_not_isWrapper hc]
      exact Location.isUnknown_ofSpan bytes c.start c.stop

/-- A node is listed with the nodes below it, under the field that it is put in. -/
theorem listing_ofConcrete (h : c.Regular) (hpart : c.isPart = true) (field : Option String) :
    ((ofConcrete bytes c).under field).listing = c.listing field := by
  induction c using Concrete.induction_children generalizing field with
  | h c ih =>
    rw [ofConcrete_eq_unwrap, Concrete.listing_eq, Concrete.isKept, hpart]
    cases hc : c.isWrapper with
    | true =>
      -- The node inside takes the place of its parentheses, and their field.
      obtain ⟨d, hd, hinside, hfilter, m, hchildren, hm⟩ := exists_children_wrapped h hc bytes
      have hplaced : (m.under field).uncommented = ((ofConcrete bytes d).under field).uncommented :=
        congrArg (·.under field) hm
      rw [unwrap_of_children_eq (kind_eq_parenthesized.mpr hc) hchildren]
      calc ({ m with trailing := m.trailing ++ (wrapped bytes c).inner }.under field).listing
        _ = (m.under field).uncommented.listing := (listing_uncommented _).symm
        _ = ((ofConcrete bytes d).under field).listing := by rw [hplaced, listing_uncommented]
        _ = d.listing field := ih d hd (h.child hd) hinside field
        _ = Concrete.listingAll (some field) [d] := by
          simp [Concrete.listingAll, Concrete.listing, Concrete.placedAll]
        _ = Concrete.listingAll (some field) c.children := by
          rw [← hfilter, Concrete.Regular.listingAll_filter fun e he => h.child he]
    | false =>
      have hhole : ((wrapped bytes c).under field).isHole = false := by
        have hknown := Location.isUnknown_ofSpan bytes c.start c.stop
        simp [under, isHole, isSynthetic, wrapped, Concrete.location, hknown]
      rw [unwrap_of_not_isWrapper hc, listing_eq, hhole]
      congr 1
      · simp [under, Node.entry, Concrete.entry, wrapped, Function.comp_def]
      · refine listingAll_gather fun d hd => ⟨h.child hd, fun hpart => ?_⟩
        rw [← ih d hd (h.child hd) hpart, ← listing_uncommented ((ofConcrete bytes d).under _)]
        rfl

end Node

namespace Siblings

open Node

/-- The comments seen so far: those of the children, and those that wait. -/
def comments (s : Siblings) : List Comment := commentsAll s.children.reverse ++ s.pending

/-- Holes have no comments. -/
def Tidy (children : List Node) : Prop :=
  ∀ n ∈ children, n.isSynthetic = true → n.comments = []

theorem tidy_nil : Tidy [] := by
  intro n hn
  cases hn

theorem Tidy.cons {n : Node} {ns : List Node} (hn : n.isSynthetic = true → n.comments = [])
    (h : Tidy ns) : Tidy (n :: ns) := by
  intro m hm
  rcases List.mem_cons.mp hm with rfl | hm
  · exact hn
  · exact h m hm

/-- A comment that trails a child comes after all comments of the children. -/
theorem Tidy.trail? {c : Comment} {ns ns' : List Node} (h : Tidy ns)
    (hns : trail? c ns = some ns') :
    Tidy ns' ∧ commentsAll ns'.reverse = commentsAll ns.reverse ++ [c] := by
  induction ns generalizing ns' with
  | nil => cases hns
  | cons n rest ih =>
    have hrest : Tidy rest := fun m hm => h m (by simp [hm])
    rw [Siblings.trail?] at hns
    split at hns
    · rename_i hsynthetic
      obtain ⟨rest', hrest', rfl⟩ := Option.map_eq_some_iff.mp hns
      obtain ⟨htidy, hcomments⟩ := ih hrest hrest'
      have hnone := h n (by simp) hsynthetic
      refine ⟨htidy.cons fun _ => hnone, ?_⟩
      simp [commentsAll_append, hcomments, hnone]
    · rename_i hsource
      split at hns
      · cases hns
        refine ⟨hrest.cons fun hn => absurd hn hsource, ?_⟩
        simp [commentsAll_append, comments_eq]
      · cases hns

theorem comments_addComment {s : Siblings} (h : Tidy s.children) (c : Comment) :
    Tidy (s.addComment c).children ∧ (s.addComment c).comments = s.comments ++ [c] := by
  rw [addComment]
  split
  · rename_i children htrail
    split at htrail
    · rename_i hpending
      obtain ⟨htidy, hcomments⟩ := h.trail? htrail
      refine ⟨htidy, ?_⟩
      rw [List.isEmpty_iff] at hpending
      simp [comments, hcomments, hpending]
    · cases htrail
  · exact ⟨h, by simp [comments]⟩

theorem comments_addChild {s : Siblings} {n : Node} (h : Tidy s.children)
    (hn : n.isSynthetic = false) :
    Tidy (s.addChild n).children ∧ (s.addChild n).comments = s.comments ++ n.comments := by
  constructor
  · refine h.cons fun hsynthetic => ?_
    rw [show ({ n with leading := s.pending ++ n.leading } : Node).isSynthetic = n.isSynthetic
      from rfl, hn] at hsynthetic
    cases hsynthetic
  · simp [comments, addChild, commentsAll_append, comments_eq]

theorem comments_addToken {s : Siblings} (h : Tidy s.children) (isArray : Bool)
    (field : Option Field) (token : String) :
    Tidy (s.addToken isArray field token).children ∧
      (s.addToken isArray field token).comments = s.comments := by
  unfold addToken comments
  dsimp only
  split
  · refine ⟨h.cons fun _ => rfl, ?_⟩
    rw [List.reverse_cons, commentsAll_append, commentsAll_singleton]
    simp [comments_eq, hole, commentsAll]
  · exact ⟨h, rfl⟩

end Siblings

namespace Node

variable {bytes : List UInt8} {isArray : Bool} {s : Siblings} {c : Concrete}

/-- Each concrete node adds its comments behind those seen before. -/
theorem comments_gather {cs : List Concrete} (htidy : Siblings.Tidy s.children)
    (hcs : ∀ d ∈ cs, d.Regular ∧
      (d.isPart = true → (ofConcrete bytes d).comments = d.comments bytes)) :
    (gather bytes isArray s cs).comments = s.comments ++ Concrete.commentsAll bytes cs := by
  induction cs generalizing s with
  | nil => simp [gather, Concrete.commentsAll, Concrete.preorderAll]
  | cons c rest ih =>
    obtain ⟨hregular, hcomments⟩ := hcs c (by simp)
    have hrest := fun d hd => hcs d (List.mem_cons_of_mem c hd)
    rw [gather, Concrete.commentsAll_cons, ← List.append_assoc]
    dsimp only
    split
    · rename_i hcomment
      change (gather bytes isArray (s.addComment (c.comment bytes)) rest).comments = _
      obtain ⟨htidy', heq⟩ := Siblings.comments_addComment htidy (c.comment bytes)
      have hsign : c.isPart = false := by simp [Concrete.isPart, hcomment]
      rw [ih htidy' hrest, heq, hregular.comments_eq_of_sign bytes hsign, if_pos hcomment]
    · rename_i hcomment
      split
      · rename_i hchain
        have hsign : c.isPart = false := by simp [Concrete.isPart, hchain]
        rw [ih (s := { s with tokens := s.tokens ++ ["?."] }) htidy hrest,
          hregular.comments_eq_of_sign bytes hsign, if_neg hcomment, List.append_nil]
        rfl
      · rename_i hchain
        split
        · rename_i hnamed
          have hpart : c.isPart = true := by simp_all [Concrete.isPart]
          obtain ⟨htidy', heq⟩ := Siblings.comments_addChild
            (n := { ofConcrete bytes c with field := c.field.map Field.ofText }) htidy
            (isSynthetic_ofConcrete hregular bytes)
          rw [ih htidy' hrest, heq, ← hcomments hpart, comments_eq, comments_eq]
        · rename_i hnamed
          have hsign : c.isPart = false := by simp_all [Concrete.isPart]
          obtain ⟨htidy', heq⟩ := Siblings.comments_addToken htidy isArray
            (c.field.map Field.ofText) c.kind
          rw [ih htidy' hrest, heq, hregular.comments_eq_of_sign bytes hsign, if_neg hcomment,
            List.append_nil]

theorem comments_ofConcrete (h : c.Regular) (hpart : c.isPart = true) (bytes : List UInt8) :
    (ofConcrete bytes c).comments = c.comments bytes := by
  induction c using Concrete.induction_children with
  | h c ih =>
    have hcomment : c.isComment = false := by
      cases hc : c.isComment <;> simp_all [Concrete.isPart]
    have hwrapped : (wrapped bytes c).comments = c.comments bytes := by
      have hgather : (gather bytes (Kind.ofName c.kind).isArray {} c.children).comments = _ :=
        comments_gather Siblings.tidy_nil fun d hd => ⟨h.child hd, ih d hd (h.child hd)⟩
      rw [Concrete.comments_eq, hcomment, comments_eq]
      simpa [wrapped, Siblings.comments, commentsAll] using hgather
    rw [ofConcrete_eq_unwrap, ← hwrapped]
    cases hc : c.isWrapper with
    | true =>
      obtain ⟨d, -, -, -, m, hchildren, -⟩ := exists_children_wrapped h hc bytes
      rw [unwrap_of_children_eq (kind_eq_parenthesized.mpr hc) hchildren, comments_eq,
        comments_eq (wrapped bytes c), hchildren, commentsAll_singleton, comments_eq m]
      simp [wrapped]
    | false => rw [unwrap_of_not_isWrapper hc]

/-- The tree lists the named nodes that are not parentheses, each with its kind, its bytes and the
field that holds it or its parentheses, and it lists all comments in the order of the source. -/
theorem listings_ofConcrete (bytes : List UInt8) (h : c.Regular) (hroot : c.isKept = true) :
    (ofConcrete bytes c).listing = c.listing none ∧
      (ofConcrete bytes c).comments = c.comments bytes := by
  obtain ⟨hpart, hwrapper⟩ := Bool.and_eq_true_iff.mp hroot
  refine ⟨?_, comments_ofConcrete h hpart bytes⟩
  have hfield : (ofConcrete bytes c).under none = ofConcrete bytes c := by
    rw [ofConcrete_eq_unwrap, unwrap_of_not_isWrapper (by simpa using hwrapper)]
    rfl
  rw [← hfield]
  exact listing_ofConcrete h hpart none

end Node

namespace Concrete

def commentedBytes : List UInt8 :=
  Text.Utf8.encode "g((/*a*/ x)/*b*/, [, y?.z]) // c\n".toList

/-- A call with a name in parentheses, a hole, an optional member and three comments. -/
def commentedCall : Concrete :=
  branch "program" 0 33 none
    [branch "expression_statement" 0 27 none
      [branch "call_expression" 0 27 none
        [branch "identifier" 0 1 (some "function") [],
          branch "arguments" 1 27 (some "arguments")
            [token "(" 1 2,
              branch "parenthesized_expression" 2 11 none
                [token "(" 2 3, branch "comment" 3 8 none [], branch "identifier" 9 10 none [],
                  token ")" 10 11],
              branch "comment" 11 16 none [], token "," 16 17,
              branch "array" 18 26 none
                [token "[" 18 19, token "," 19 20,
                  branch "member_expression" 21 25 none
                    [branch "identifier" 21 22 (some "object") [],
                      branch "optional_chain" 22 24 (some "optional_chain") [],
                      branch "property_identifier" 24 25 (some "property") []],
                  token "]" 25 26],
              token ")" 26 27]]],
      branch "comment" 28 32 none []]

end Concrete

open Concrete in
theorem Node.listings_ofConcrete_call :
    commentedCall.Regular ∧ commentedCall.isKept = true ∧
      (Node.ofConcrete commentedBytes commentedCall).listing =
        [⟨"program", 0, 33, none⟩, ⟨"expression_statement", 0, 27, none⟩,
          ⟨"call_expression", 0, 27, none⟩, ⟨"identifier", 0, 1, some "function"⟩,
          ⟨"arguments", 1, 27, some "arguments"⟩, ⟨"identifier", 9, 10, none⟩,
          ⟨"array", 18, 26, none⟩, ⟨"member_expression", 21, 25, none⟩,
          ⟨"identifier", 21, 22, some "object"⟩,
          ⟨"property_identifier", 24, 25, some "property"⟩] ∧
      (Node.ofConcrete commentedBytes commentedCall).comments.map (·.value) = ["a", "b", " c"] := by
  have hregular : commentedCall.Regular := by decide +kernel
  have hroot : commentedCall.isKept = true := by decide +kernel
  obtain ⟨hlisting, hcomments⟩ := Node.listings_ofConcrete commentedBytes hregular hroot
  refine ⟨hregular, hroot, hlisting.trans ?_, ?_⟩
  · decide +kernel
  · rw [hcomments]
    decide +kernel

end EcmaPhp
