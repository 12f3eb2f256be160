import EcmaPhp.Proofs.Tree.OfConcrete

/-! Positions in arrays: an element has as many children before it as there are commas before it in
the source, and a position without an element is a hole. -/
namespace EcmaPhp

namespace Concrete

/-- A token with this text. -/
def isSign (c : Concrete) (text : String) : Bool := !c.named && c.kind = text

def isComma (c : Concrete) : Bool := c.isSign ","

/-- What can stand between the brackets of an array: elements, between any two of them a comma, more
commas, and comments. `room` says whether an element can come first. -/
inductive Items : (room : Bool) → List Concrete → Prop where
  | nil {room : Bool} : Items room []
  | comment {room : Bool} {c : Concrete} {rest : List Concrete} (hc : c.isComment = true)
      (hrest : Items room rest) : Items room (c :: rest)
  | comma {room : Bool} {c : Concrete} {rest : List Concrete} (hc : c.isComma = true)
      (hrest : Items true rest) : Items room (c :: rest)
  | element {c : Concrete} {rest : List Concrete} (hc : c.isPart = true)
      (hrest : Items false rest) : Items true (c :: rest)

/-- An array or an array pattern of the grammar, with what stands between its brackets. -/
structure IsArrayOf (items : List Concrete) (c : Concrete) : Prop where
  kind : (Kind.ofName c.kind).isArray = true
  grammar : Items true items
  children : ∃ opening closing, opening.isSign "[" = true ∧ closing.isSign "]" = true ∧
    c.children = opening :: (items ++ [closing])

/-- An element comes after the last comma. -/
def EndsInElement (items : List Concrete) : Prop :=
  ∃ front c back, items = front ++ c :: back ∧ c.isPart = true ∧ ∀ d ∈ back, d.isComma = false

/-- The elements by position, cut at the commas: `current` has come since the last one. Behind the
last comma there is a position only if an element stands there. -/
def positions (current : Option Concrete) : List Concrete → List (Option Concrete)
  | [] => (current.map some).toList
  | c :: rest =>
    if c.isComma then current :: positions none rest
    else if c.isPart then positions (some c) rest
    else positions current rest

variable {c : Concrete} {text : String} {items rest front back : List Concrete}
  {current : Option Concrete} {room : Bool}

theorem isComment_of_isSign (h : c.isSign text = true) (htext : text ≠ "comment")
    (hhtml : text ≠ "html_comment") : c.isComment = false := by
  simp only [isSign, Bool.and_eq_true, decide_eq_true_eq] at h
  simp [isComment, h.2, htext, hhtml]

theorem isComma_of_isPart (h : c.isPart = true) : c.isComma = false := by
  simp only [isPart, Bool.and_eq_true] at h
  simp [isComma, isSign, h.1.1.1]

theorem isPart_of_isComment (h : c.isComment = true) : c.isPart = false := by
  simp [isPart, h]

theorem isComma_of_isComment (h : c.isComment = true) : c.isComma = false := by
  cases hcomma : c.isComma with
  | false => rfl
  | true => simp [isComment_of_isSign hcomma (by decide) (by decide)] at h

theorem positions_comma (h : c.isComma = true) :
    positions current (c :: rest) = current :: positions none rest := by
  simp [positions, h]

theorem positions_element (h : c.isPart = true) :
    positions current (c :: rest) = positions (some c) rest := by
  simp [positions, h, isComma_of_isPart h]

theorem positions_comment (h : c.isComment = true) :
    positions current (c :: rest) = positions current rest := by
  simp [positions, isComma_of_isComment h, isPart_of_isComment h]

/-- Where no element can come before the next comma, the current one keeps its position. -/
theorem head?_positions_some (h : Items room items) (hroom : room = false) :
    (positions (some c) items)[0]? = some (some c) := by
  induction h with
  | nil => rfl
  | comment hd _ ih =>
    rw [positions_comment hd]
    exact ih hroom
  | comma hd _ _ =>
    rw [positions_comma hd]
    rfl
  | element => cases hroom

/-- An element is at the position that the commas before it count. -/
theorem getElem?_positions (h : Items room (front ++ c :: back)) (hc : c.isPart = true) :
    (positions current (front ++ c :: back))[front.countP isComma]? = some (some c) := by
  induction front generalizing room current with
  | nil =>
    rw [List.nil_append] at h ⊢
    rw [positions_element hc]
    cases h with
    | comment hcomment => simp [isPart_of_isComment hcomment] at hc
    | comma hcomma => simp [isComma_of_isPart hc] at hcomma
    | element _ hrest => exact head?_positions_some hrest rfl
  | cons d front ih =>
    rw [List.cons_append] at h ⊢
    cases h with
    | comment hd hrest =>
      rw [positions_comment hd, List.countP_cons_of_neg (by simp [isComma_of_isComment hd])]
      exact ih hrest
    | comma hd hrest =>
      rw [positions_comma hd, List.countP_cons_of_pos hd, List.getElem?_cons_succ]
      exact ih hrest
    | element hd hrest =>
      rw [positions_element hd, List.countP_cons_of_neg (by simp [isComma_of_isPart hd])]
      exact ih hrest

/-- There are no other elements. -/
theorem exists_of_getElem?_positions {k : Nat} (h : (positions current items)[k]? = some (some c)) :
    current = some c ∧ k = 0 ∨
      ∃ front back, items = front ++ c :: back ∧ c.isPart = true ∧ front.countP isComma = k := by
  induction items generalizing current k with
  | nil =>
    cases current with
    | none => simp [positions] at h
    | some d =>
      obtain ⟨hk, hd⟩ := List.getElem?_eq_some_iff.mp h
      simp only [positions, Option.map_some, Option.toList_some, List.length_singleton] at hk
      obtain rfl : k = 0 := by omega
      exact .inl ⟨by simpa [positions] using hd, rfl⟩
  | cons d rest ih =>
    rw [positions] at h
    split at h
    · rename_i hcomma
      cases k with
      | zero => exact .inl ⟨by simpa using h, rfl⟩
      | succ k =>
        rw [List.getElem?_cons_succ] at h
        rcases ih h with ⟨hnone, -⟩ | ⟨front, back, rfl, hc, rfl⟩
        · cases hnone
        · exact .inr ⟨d :: front, back, rfl, hc, List.countP_cons_of_pos hcomma⟩
    · rename_i hcomma
      split at h
      · rename_i hpart
        rcases ih h with ⟨hd, rfl⟩ | ⟨front, back, rfl, hc, rfl⟩
        · obtain rfl := Option.some.inj hd
          exact .inr ⟨[], rest, rfl, hpart, rfl⟩
        · exact .inr ⟨d :: front, back, rfl, hc, List.countP_cons_of_neg hcomma⟩
      · rcases ih h with hcurrent | ⟨front, back, rfl, hc, rfl⟩
        · exact .inl hcurrent
        · exact .inr ⟨d :: front, back, rfl, hc, List.countP_cons_of_neg hcomma⟩

theorem not_endsInElement_nil : ¬ EndsInElement [] := by
  rintro ⟨front, c, back, h, -⟩
  simp at h

theorem endsInElement_cons_iff :
    EndsInElement (c :: rest) ↔
      c.isPart = true ∧ (∀ d ∈ rest, d.isComma = false) ∨ EndsInElement rest := by
  constructor
  · rintro ⟨front, e, back, h, he, hback⟩
    cases front with
    | nil =>
      obtain ⟨rfl, rfl⟩ := List.cons.inj h
      exact .inl ⟨he, hback⟩
    | cons d front =>
      obtain ⟨rfl, rfl⟩ := List.cons.inj h
      exact .inr ⟨front, e, back, rfl, he, hback⟩
  · rintro (⟨hc, hrest⟩ | ⟨front, e, back, rfl, he, hback⟩)
    · exact ⟨[], c, rest, rfl, hc, hrest⟩
    · exact ⟨c :: front, e, back, rfl, he, hback⟩

/-- There is a position before each comma, and one more if an element comes after the last. -/
theorem length_positions (current : Option Concrete) (items : List Concrete) :
    let open? := EndsInElement items ∨ current.isSome = true ∧ ∀ d ∈ items, d.isComma = false
    (open? → (positions current items).length = items.countP isComma + 1) ∧
      (¬ open? → (positions current items).length = items.countP isComma) := by
  induction items generalizing current with
  | nil => cases current <;> simp [positions, not_endsInElement_nil]
  | cons c rest ih =>
    dsimp only at ih ⊢
    rw [positions, endsInElement_cons_iff, List.countP_cons]
    by_cases hcomma : c.isComma = true
    · have hpart : c.isPart = false := by
        cases hpart : c.isPart with
        | false => rfl
        | true => simp [isComma_of_isPart hpart] at hcomma
      have hnone := ih none
      simp [hcomma, hpart] at hnone ⊢
      exact hnone
    · by_cases hpart : c.isPart = true
      · have hsome := ih (some c)
        simp [hcomma, hpart] at hsome ⊢
        grind
      · have hsame := ih current
        simp [hcomma, hpart] at hsame ⊢
        exact hsame

end Concrete

namespace Siblings

@[simp] theorem lastToken_addComment (s : Siblings) (c : Comment) :
    (s.addComment c).lastToken = s.lastToken := by
  rw [addComment]
  split <;> rfl

end Siblings

namespace Node

open Concrete

/-- The child at a position, but for the comments around it. -/
def atPosition (bytes : List UInt8) : Option Concrete → Node
  | some c => child bytes c
  | none => Siblings.hole

section Gathering

variable {bytes : List UInt8} {isArray : Bool} {s : Siblings} {c : Concrete} {text : String}
  {items rest : List Concrete} {current : Option Concrete} {done : List Node}

theorem gather_comment (h : c.isComment = true) :
    gather bytes isArray s (c :: rest) = gather bytes isArray
      (s.addComment (.ofText c.start (c.location bytes) (c.text bytes))) rest := by
  rw [gather]
  simp [h]

theorem gather_part (h : c.isPart = true) :
    gather bytes isArray s (c :: rest) = gather bytes isArray
      (s.addChild { ofConcrete bytes c with field := c.field.map Field.ofText }) rest := by
  simp only [isPart, Bool.and_eq_true, Bool.not_eq_true', bne_iff_ne, ne_eq] at h
  rw [gather]
  simp [h]

theorem gather_sign (h : c.isSign text = true) (htext : text = "[" ∨ text = "," ∨ text = "]") :
    gather bytes isArray s (c :: rest) =
      gather bytes isArray (s.addToken isArray (c.field.map Field.ofText) text) rest := by
  have hcomment : c.isComment = false := by
    rcases htext with rfl | rfl | rfl <;>
      exact isComment_of_isSign h (by decide) (by decide)
  simp only [isSign, Bool.and_eq_true, Bool.not_eq_true', decide_eq_true_eq] at h
  obtain ⟨hnamed, rfl⟩ := h
  have hchain : c.kind ≠ "optional_chain" := by
    rcases htext with htext | htext | htext <;> rw [htext] <;> decide
  rw [gather]
  simp [hcomment, hnamed, hchain]

/-- Between the brackets of an array, the children follow the positions. The last token tells
whether the current position has its element. -/
theorem children_gather_items {room : Bool} (h : Items room items) (hroom : room = current.isNone)
    (hfull : current ≠ none → s.lastToken = none)
    (hfree : current = none → s.lastToken = some "[" ∨ s.lastToken = some ",")
    (hchildren : s.children.reverse.map uncommented = done ++ (current.map (child bytes)).toList) :
    (gather bytes true s items).children.reverse.map uncommented =
      done ++ (positions current items).map (atPosition bytes) := by
  induction h generalizing s current done with
  | nil =>
    rw [gather, hchildren]
    cases current <;> rfl
  | comment hc _ ih =>
    rw [gather_comment hc, positions_comment hc]
    refine ih hroom (by simpa using hfull) (by simpa using hfree) ?_
    rw [List.map_reverse, Siblings.map_addComment (fun _ _ => rfl), ← List.map_reverse, hchildren]
  | comma hc _ ih =>
    rw [gather_sign hc (by simp), positions_comma hc, List.map_cons, ← List.singleton_append,
      ← List.append_assoc]
    refine ih rfl (absurd rfl) (fun _ => .inr rfl) ?_
    cases current with
    | none => simp [Siblings.addToken, hfree rfl, hchildren, atPosition, Siblings.hole, uncommented]
    | some e => simp [Siblings.addToken, hfull (by simp), hchildren, atPosition]
  | element hc _ ih =>
    obtain rfl : current = none := by simpa using hroom.symm
    rw [gather_part hc, positions_element hc]
    refine ih rfl (fun _ => rfl) (fun h => by cases h) ?_
    simp only [Siblings.addChild, List.reverse_cons, List.map_append, hchildren]
    simp [child, uncommented]

theorem gather_append (front back : List Concrete) :
    gather bytes isArray s (front ++ back) =
      gather bytes isArray (gather bytes isArray s front) back := by
  induction front generalizing s with
  | nil => rw [List.nil_append, gather]
  | cons d front ih =>
    rw [List.cons_append, gather, gather, ih]

end Gathering

/-- The children of an array follow the positions of its elements. -/
theorem children_ofConcrete_array (bytes : List UInt8) {c : Concrete} {items : List Concrete}
    (h : c.IsArrayOf items) :
    (ofConcrete bytes c).children.map uncommented =
      (positions none items).map (atPosition bytes) := by
  obtain ⟨opening, closing, hopening, hclosing, hchildren⟩ := h.children
  have hunwrap : ofConcrete bytes c = wrapped bytes c := by
    rw [ofConcrete_eq_unwrap]
    rcases unwrap_cases (wrapped bytes c) with hsame | ⟨hkind, -⟩
    · exact hsame
    · have hkind : Kind.ofName c.kind = .parenthesized := hkind
      have harray := h.kind
      simp [hkind, Kind.isArray] at harray
  have hopened : gather bytes true {} [opening] =
      Siblings.addToken {} true (opening.field.map Field.ofText) "[" := by
    rw [gather_sign hopening (by simp), gather]
  have hitems : (gather bytes true (gather bytes true {} [opening]) items).children.reverse.map
      uncommented = [] ++ (positions none items).map (atPosition bytes) :=
    children_gather_items h.grammar rfl (absurd rfl) (fun _ => .inl (by rw [hopened]; rfl))
      (by rw [hopened]; rfl)
  rw [hunwrap, wrapped, h.kind, hchildren, ← List.singleton_append, gather_append, gather_append,
    gather_sign hclosing (by simp), gather]
  simpa [Siblings.addToken] using hitems

/-- Every element is the child at the position that the commas before it count, every other child is
a hole, and there is a child before each comma and one more if an element comes after the last. -/
structure KeepsPositions (bytes : List UInt8) (items : List Concrete) (children : List Node) :
    Prop where
  element : ∀ front c back, items = front ++ c :: back → c.isPart = true →
    children[front.countP isComma]?.map uncommented = some (child bytes c)
  hole : ∀ k m, children[k]? = some m →
    (∀ front c back, items = front ++ c :: back → c.isPart = true → front.countP isComma ≠ k) →
    m.uncommented = Siblings.hole
  length_of_endsInElement : EndsInElement items → children.length = items.countP isComma + 1
  length_of_not_endsInElement : ¬ EndsInElement items → children.length = items.countP isComma

theorem keepsPositions_ofConcrete (bytes : List UInt8) {c : Concrete} {items : List Concrete}
    (h : c.IsArrayOf items) : KeepsPositions bytes items (ofConcrete bytes c).children := by
  have hchildren := children_ofConcrete_array bytes h
  have hlength : (ofConcrete bytes c).children.length = (positions none items).length := by
    simpa using congrArg List.length hchildren
  have hget (k : Nat) : (ofConcrete bytes c).children[k]?.map uncommented =
      (positions none items)[k]?.map (atPosition bytes) := by
    rw [← List.getElem?_map, ← List.getElem?_map, hchildren]
  obtain ⟨hended, hnot⟩ := length_positions none items
  constructor
  · rintro front e back rfl he
    rw [hget, getElem?_positions h.grammar he]
    rfl
  · intro k m hm hother
    have hk := hget k
    rw [hm, Option.map_some, eq_comm, Option.map_eq_some_iff] at hk
    obtain ⟨position, hposition, heq⟩ := hk
    cases position with
    | none => exact heq.symm
    | some e =>
      rcases exists_of_getElem?_positions hposition with ⟨hnone, -⟩ | ⟨front, back, hitems, he, hk⟩
      · cases hnone
      · exact absurd hk (hother front e back hitems he)
  · intro hends
    rw [hlength]
    exact hended (.inl hends)
  · intro hends
    rw [hlength]
    exact hnot (by simpa using hends)

end Node
end EcmaPhp
