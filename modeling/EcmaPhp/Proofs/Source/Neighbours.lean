import EcmaPhp.Proofs.Source.Leaves
import EcmaPhp.Source.Tokens
import Mathlib.Data.List.TakeWhile

/-! What stands directly before and after a span: points tell offsets apart, and a token reaches as
far as blanks do. -/
namespace EcmaPhp

namespace Point

/-- One point lies ahead of another. -/
def Precedes (p q : Point) : Prop := p.line < q.line ∨ p.line = q.line ∧ p.column < q.column

theorem Precedes.trans {p q r : Point} (h : Precedes p q) (h' : Precedes q r) : Precedes p r := by
  unfold Precedes at *
  omega

theorem precedes_advance (p : Point) (b : UInt8) : Precedes p (p.advance b) := by
  rw [advance]
  split
  · exact .inl (Int.lt_succ p.line)
  · exact .inr ⟨rfl, Int.lt_succ p.column⟩

theorem precedes_foldl_advance (p : Point) {bytes : List UInt8} (h : bytes ≠ []) :
    Precedes p (bytes.foldl advance p) := by
  induction bytes generalizing p with
  | nil => exact absurd rfl h
  | cons b rest ih =>
    rw [List.foldl_cons]
    by_cases hrest : rest = []
    · rw [hrest]
      exact precedes_advance p b
    · exact (precedes_advance p b).trans (ih (p.advance b) hrest)

theorem precedes_ofOffset {bytes : List UInt8} {i j : Nat} (h : i < j) (hj : j ≤ bytes.length) :
    Precedes (ofOffset bytes i) (ofOffset bytes j) := by
  have hsplit : bytes.take j = bytes.take i ++ Concrete.slice bytes i j := by
    rw [Concrete.slice, ← List.take_add]
    congr 1
    omega
  rw [ofOffset, ofOffset, hsplit, List.foldl_append]
  refine precedes_foldl_advance _ ?_
  rw [Concrete.slice, Ne, ← List.length_eq_zero_iff, List.length_take, List.length_drop]
  omega

/-- No two offsets have the same point. -/
theorem ofOffset_inj {bytes : List UInt8} {i j : Nat} (hi : i ≤ bytes.length)
    (hj : j ≤ bytes.length) : ofOffset bytes i = ofOffset bytes j ↔ i = j := by
  refine ⟨fun h => ?_, fun h => h ▸ rfl⟩
  have hirrefl (p : Point) : ¬ Precedes p p := by
    unfold Precedes
    omega
  rcases Nat.lt_trichotomy i j with hlt | heq | hgt
  · exact absurd (h ▸ precedes_ofOffset hlt hj) (hirrefl _)
  · exact heq
  · exact absurd (h ▸ precedes_ofOffset hgt hi) (hirrefl _)

theorem line_ofOffset_pos (bytes : List UInt8) (i : Nat) : 0 < (ofOffset bytes i).line := by
  have hfold (bytes : List UInt8) (p : Point) (hp : 0 < p.line) :
      0 < (bytes.foldl advance p).line := by
    induction bytes generalizing p with
    | nil => exact hp
    | cons b rest ih =>
      refine ih (p.advance b) ?_
      have := precedes_advance p b
      unfold Precedes at this
      omega
  exact hfold _ _ (by decide)

end Point

theorem Location.isUnknown_ofSpan (bytes : List UInt8) (start stop : Nat) :
    (ofSpan bytes start stop).isUnknown = false := by
  have hline := Point.line_ofOffset_pos bytes start
  simp only [isUnknown, decide_eq_false_iff_not]
  intro h
  rw [show Point.ofOffset bytes start = ⟨0, 0⟩ from congrArg Location.first h] at hline
  cases hline

/-- Only blanks stand between two offsets. -/
def BlankBetween (bytes : List UInt8) (first last : Nat) : Prop :=
  ∀ b ∈ Concrete.slice bytes first last, Token.isBlankByte b = true

instance (bytes : List UInt8) (first last : Nat) : Decidable (BlankBetween bytes first last) :=
  List.decidableBAll _ _

/-- The byte at an offset is not a blank. -/
def SolidAt (bytes : List UInt8) (offset : Nat) : Prop :=
  ∃ b ∈ bytes[offset]?, Token.isBlankByte b = false

instance (bytes : List UInt8) (offset : Nat) : Decidable (SolidAt bytes offset) :=
  decidable_of_iff ((bytes[offset]?).any (!Token.isBlankByte ·) = true)
    (by cases h : bytes[offset]? <;> simp [SolidAt, h])

theorem SolidAt.lt_length {bytes : List UInt8} {offset : Nat} (h : SolidAt bytes offset) :
    offset < bytes.length := by
  obtain ⟨b, hb, -⟩ := h
  exact (List.getElem?_eq_some_iff.mp hb).1

theorem BlankBetween.not_solidAt {bytes : List UInt8} {first last offset : Nat}
    (h : BlankBetween bytes first last) (hfirst : first ≤ offset) (hlast : offset < last) :
    ¬ SolidAt bytes offset := by
  rintro ⟨b, hb, hsolid⟩
  have hmem : b ∈ Concrete.slice bytes first last := by
    rw [Concrete.slice, List.mem_iff_getElem?]
    refine ⟨offset - first, ?_⟩
    rw [List.getElem?_take_of_lt (by omega), List.getElem?_drop, ← hb]
    congr 1
    omega
  rw [h b hmem] at hsolid
  cases hsolid

namespace Token

theorem skipForward_eq_iff {bytes : List UInt8} {offset stop : Nat} (hstop : SolidAt bytes stop) :
    skipForward bytes offset = stop ↔ offset ≤ stop ∧ BlankBetween bytes offset stop := by
  constructor
  · rintro rfl
    refine ⟨Nat.le_add_right _ _, fun b hb => ?_⟩
    rw [Concrete.slice, skipForward, Nat.add_sub_cancel_left,
      ← List.prefix_iff_eq_take.mp (List.takeWhile_prefix _)] at hb
    exact List.mem_takeWhile_imp hb
  · rintro ⟨hle, hblank⟩
    have hlength := hstop.lt_length
    obtain ⟨b, hb, hsolid⟩ := hstop
    have hsplit : bytes.drop offset = Concrete.slice bytes offset stop ++ bytes.drop stop := by
      rw [Concrete.slice, show bytes.drop stop = (bytes.drop offset).drop (stop - offset) by
        rw [List.drop_drop]; congr 1; omega, List.take_append_drop]
    have hrest : (bytes.drop stop).takeWhile isBlankByte = [] := by
      rw [List.drop_eq_getElem_cons hlength, (List.getElem?_eq_some_iff.mp hb).2]
      simp [hsolid]
    rw [skipForward, hsplit, List.takeWhile_append_of_pos hblank, hrest, List.append_nil,
      Concrete.slice, List.length_take, List.length_drop]
    omega

theorem skipBack_eq_iff {bytes : List UInt8} {offset start : Nat} (hoffset : offset ≤ bytes.length)
    (hstart : 0 < start) (hsolid : SolidAt bytes (start - 1)) :
    skipBack bytes offset = start ↔ start ≤ offset ∧ BlankBetween bytes start offset := by
  have hslice : Concrete.slice bytes start offset = (bytes.take offset).drop start := by
    rw [Concrete.slice, List.drop_take]
  constructor
  · intro h
    rw [skipBack] at h
    refine ⟨by omega, fun b hb => ?_⟩
    have hwhile := List.prefix_iff_eq_take.mp
      (List.takeWhile_prefix isBlankByte (l := (bytes.take offset).reverse))
    rw [List.take_reverse, List.length_take, Nat.min_eq_left hoffset, h, ← hslice] at hwhile
    exact List.mem_takeWhile_imp (hwhile ▸ List.mem_reverse.mpr hb)
  · rintro ⟨hle, hblank⟩
    obtain ⟨b, hb, hsolid⟩ := hsolid
    have hsplit : bytes.take offset = bytes.take start ++ Concrete.slice bytes start offset := by
      rw [hslice, ← Nat.min_eq_left hle, ← List.take_take, Nat.min_eq_left hle,
        List.take_append_drop]
    have hrest : (bytes.take start).reverse.takeWhile isBlankByte = [] := by
      obtain ⟨before, rfl⟩ : ∃ before, start = before + 1 := ⟨start - 1, by omega⟩
      rw [List.take_add_one, show bytes[before]? = some b from hb]
      simp [hsolid]
    have hreverse : ∀ b ∈ (Concrete.slice bytes start offset).reverse, isBlankByte b = true :=
      fun b hb => hblank b (List.mem_reverse.mp hb)
    rw [skipBack, hsplit, List.reverse_append, List.takeWhile_append_of_pos hreverse, hrest,
      List.append_nil, List.length_reverse, Concrete.slice, List.length_take, List.length_drop]
    omega

theorem skipForward_le {bytes : List UInt8} {offset : Nat} (h : offset ≤ bytes.length) :
    skipForward bytes offset ≤ bytes.length := by
  have hwhile := (List.takeWhile_sublist isBlankByte (l := bytes.drop offset)).length_le
  rw [List.length_drop] at hwhile
  rw [skipForward]
  omega

theorem skipBack_le (bytes : List UInt8) (offset : Nat) : skipBack bytes offset ≤ offset :=
  Nat.sub_le _ _

end Token

/-- Looking up a key that belongs to one element at most. -/
theorem lookup_map_of_unique {α κ β : Type} [DecidableEq κ] {l : List α} {f : α → κ} {g : α → β}
    {k : κ} {a : α} (ha : a ∈ l) (h : ∀ c ∈ l, f c = k → c = a) :
    (l.map fun c => (f c, g c)).lookup k = if f a = k then some (g a) else none := by
  cases hlookup : (l.map fun c => (f c, g c)).lookup k with
  | none =>
    rw [List.lookup_eq_none_iff] at hlookup
    have hne := hlookup (f a, g a) (List.mem_map.mpr ⟨a, ha, rfl⟩)
    rw [if_neg fun heq => by simp [heq] at hne]
  | some b =>
    obtain ⟨before, after, hsplit, -⟩ := List.lookup_eq_some_iff.mp hlookup
    have hmem : (k, b) ∈ l.map fun c => (f c, g c) := by simp [hsplit]
    obtain ⟨c, hc, hpair⟩ := List.mem_map.mp hmem
    obtain ⟨hkey, rfl⟩ := Prod.mk.inj hpair
    obtain rfl := h c hc hkey
    rw [if_pos hkey]

namespace TokenIndex

variable {bytes : List UInt8} {tree c : Concrete} {sign : String}

/-- Looking up the leaf of an offset, where one leaf at most has it. -/
theorem lookup_leaves {offset : Concrete → Nat} {place : Nat} (hc : c ∈ tree.leaves)
    (hinside : ∀ t ∈ tree.leaves, offset t ≤ bytes.length) (hplace : place ≤ bytes.length)
    (hunique : ∀ t ∈ tree.leaves, offset t = place → t = c) :
    ((tree.leaves.reverse.map fun c =>
      (Point.ofOffset bytes (offset c), (⟨c.kind, c.text bytes, c.location bytes⟩ : Token))).lookup
        (Point.ofOffset bytes place)).any (·.kind = sign) = true ↔
      offset c = place ∧ c.kind = sign := by
  have hpoint (t : Concrete) (ht : t ∈ tree.leaves) :
      Point.ofOffset bytes (offset t) = Point.ofOffset bytes place ↔ offset t = place :=
    Point.ofOffset_inj (hinside t ht) hplace
  rw [lookup_map_of_unique (List.mem_reverse.mpr hc) fun t ht h =>
    hunique t (List.mem_reverse.mp ht) ((hpoint t (List.mem_reverse.mp ht)).mp h)]
  by_cases hoffset : offset c = place
  · simp [hoffset]
  · rw [if_neg ((hpoint c hc).not.mpr hoffset)]
    simp [hoffset]

/-- A span is in parentheses if they alone can reach it and both do. -/
theorem isParenthesized_ofTree {opening closing : Concrete} {start stop : Nat}
    (hinside : ∀ t ∈ tree.leaves, t.start ≤ bytes.length ∧ t.stop ≤ bytes.length)
    (hstart : start ≤ bytes.length) (hstop : stop ≤ bytes.length)
    (hopening : opening ∈ tree.leaves) (hclosing : closing ∈ tree.leaves)
    (hbefore : ∀ t ∈ tree.leaves, Token.skipForward bytes t.stop = start → t = opening)
    (hafter : ∀ t ∈ tree.leaves, Token.skipBack bytes t.start = stop → t = closing) :
    (ofTree bytes tree).isParenthesized (.ofSpan bytes start stop) = true ↔
      (Token.skipForward bytes opening.stop = start ∧ opening.kind = "(") ∧
        Token.skipBack bytes closing.start = stop ∧ closing.kind = ")" := by
  rw [isParenthesized, Location.isUnknown_ofSpan, Bool.not_false, Bool.true_and, Bool.and_eq_true]
  refine and_congr ?_ ?_
  · exact lookup_leaves hopening (fun t ht => Token.skipForward_le (hinside t ht).2) hstart hbefore
  · exact lookup_leaves hclosing
      (fun t ht => Nat.le_trans (Token.skipBack_le bytes t.start) (hinside t ht).1) hstop hafter

end TokenIndex
end EcmaPhp
