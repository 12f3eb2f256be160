import EcmaPhp.Proofs.Source.Neighbours
import Mathlib.Data.List.Chain
import Mathlib.Data.List.Find

/-! When the source wraps a span in parentheses. The index of any tokens in order tells it from points
alone, on whatever lines the parentheses stand. -/
namespace EcmaPhp

theorem Concrete.mem_slice {bytes : List UInt8} {first last : Nat} {b : UInt8} :
    b ∈ slice bytes first last ↔ ∃ i, first ≤ i ∧ i < last ∧ bytes[i]? = some b := by
  rw [slice, List.mem_iff_getElem?]
  constructor
  · rintro ⟨i, hi⟩
    rw [List.getElem?_take] at hi
    split at hi
    · rw [List.getElem?_drop] at hi
      exact ⟨first + i, by omega, by omega, hi⟩
    · cases hi
  · rintro ⟨i, hfirst, hlast, hb⟩
    refine ⟨i - first, ?_⟩
    rw [List.getElem?_take_of_lt (by omega), List.getElem?_drop, ← hb]
    congr 1
    omega

/-- Where only blanks stand, only blanks stand in any part. -/
theorem BlankBetween.mono {bytes : List UInt8} {first last first' last' : Nat}
    (h : BlankBetween bytes first last) (hfirst : first ≤ first') (hlast : last' ≤ last) :
    BlankBetween bytes first' last' := by
  intro b hb
  obtain ⟨i, hi, hi', hbyte⟩ := Concrete.mem_slice.mp hb
  exact h b (Concrete.mem_slice.mpr ⟨i, by omega, by omega, hbyte⟩)

theorem lookup_map_eq_find? {α κ β : Type} [DecidableEq κ] (l : List α) (f : α → κ) (g : α → β)
    (k : κ) : (l.map fun a => (f a, g a)).lookup k = (l.find? fun a => f a = k).map g := by
  induction l with
  | nil => rfl
  | cons a rest ih =>
    by_cases h : f a = k
    · simp [h]
    · have hne : (k == f a) = false := beq_false_of_ne fun heq => h heq.symm
      simp [List.lookup_cons, h, hne, ih]

theorem mem_find?_iff {α : Type} {l : List α} {p : α → Prop} [DecidablePred p] {a : α} :
    a ∈ l.find? (p ·) ↔
      p a ∧ ∃ before after, l = before ++ a :: after ∧ ∀ b ∈ before, ¬ p b := by
  simp [List.find?_eq_some_iff_append]

theorem mem_find?_reverse_iff {α : Type} {l : List α} {p : α → Prop} [DecidablePred p] {a : α} :
    a ∈ l.reverse.find? (p ·) ↔
      p a ∧ ∃ before after, l = before ++ a :: after ∧ ∀ b ∈ after, ¬ p b := by
  rw [mem_find?_iff]
  apply and_congr_right
  intro _
  constructor
  · rintro ⟨after, before, hsplit, hnone⟩
    rw [List.reverse_eq_iff] at hsplit
    exact ⟨before.reverse, after.reverse, by simp [hsplit], by simpa using hnone⟩
  · rintro ⟨before, after, rfl, hnone⟩
    exact ⟨after.reverse, before.reverse, by simp, by simpa using hnone⟩

namespace Concrete

/-- The last of the tokens that end at or before an offset. -/
def lastBefore? (tokens : List Concrete) (offset : Nat) : Option Concrete :=
  tokens.reverse.find? (·.stop ≤ offset)

/-- The first of the tokens that start at or after an offset. -/
def firstAfter? (tokens : List Concrete) (offset : Nat) : Option Concrete :=
  tokens.find? (offset ≤ ·.start)

end Concrete

namespace TokenIndex
open Concrete

variable {bytes : List UInt8} {tokens : List Concrete} {start stop : Nat}

/-- A sign is found at an offset if it is the last token that reaches the offset. -/
theorem lookup_eq_sign {offset : Concrete → Nat} {place : Nat} {sign : String}
    (hinside : ∀ t ∈ tokens, offset t ≤ bytes.length) (hplace : place ≤ bytes.length) :
    ((tokens.reverse.map fun c => (Point.ofOffset bytes (offset c),
      (⟨c.kind, c.text bytes, c.location bytes⟩ : Token))).lookup
        (Point.ofOffset bytes place)).any (·.kind = sign) = true ↔
      ∃ t ∈ tokens.reverse.find? (offset · = place), t.kind = sign := by
  have hpoint : ∀ t ∈ tokens.reverse,
      decide (Point.ofOffset bytes (offset t) = Point.ofOffset bytes place) =
        decide (offset t = place) := by
    intro t ht
    rw [decide_eq_decide]
    exact Point.ofOffset_inj (hinside t (List.mem_reverse.mp ht)) hplace
  rw [lookup_map_eq_find?, Option.any_map, Option.any_eq_true, List.find?_congr hpoint]
  simp

/-- The last token that reaches the start of a span is the last one that ends at or before it. -/
theorem mem_find?_skipForward (hordered : Ordered 0 bytes.length tokens)
    (hstart : SolidAt bytes start) (t : Concrete) :
    t ∈ tokens.reverse.find? (Token.skipForward bytes ·.stop = start) ↔
      t ∈ lastBefore? tokens start ∧ BlankBetween bytes t.stop start := by
  have hreach (t : Concrete) : Token.skipForward bytes t.stop = start ↔
      t.stop ≤ start ∧ BlankBetween bytes t.stop start :=
    Token.skipForward_eq_iff hstart
  rw [lastBefore?, mem_find?_reverse_iff, mem_find?_reverse_iff, hreach, and_right_comm]
  simp only [hreach]
  apply and_congr_left
  intro hblank
  apply and_congr_right
  intro _
  constructor
  · rintro ⟨before, after, hsplit, hlater⟩
    refine ⟨before, after, hsplit, fun u hu hle => hlater u hu ⟨hle, ?_⟩⟩
    have hapart := hsplit ▸ hordered.apart
    have htu := (List.pairwise_cons.mp (List.pairwise_append.mp hapart).2.1).1 u hu
    have hspan := hordered.between u (by simp [hsplit, hu])
    exact hblank.mono (by omega) (by omega)
  · rintro ⟨before, after, hsplit, hlater⟩
    exact ⟨before, after, hsplit, fun u hu hreached => hlater u hu hreached.1⟩

/-- No token but the one before it can be blank and hide a sign from the span that it follows. -/
theorem mem_find?_skipBack (hordered : Ordered 0 bytes.length tokens) {sign : String}
    (hsign : ∀ t ∈ tokens, t.kind = sign → SolidAt bytes t.start)
    (hdirect : tokens.IsChain fun t u => u.kind = sign → ¬ BlankBetween bytes t.start t.stop)
    (hpos : 0 < stop) (hstop : SolidAt bytes (stop - 1)) {t : Concrete} (hkind : t.kind = sign) :
    t ∈ tokens.reverse.find? (Token.skipBack bytes ·.start = stop) ↔
      t ∈ firstAfter? tokens stop ∧ BlankBetween bytes stop t.start := by
  have hspan (u : Concrete) (hu : u ∈ tokens) : u.start < u.stop ∧ u.stop ≤ bytes.length :=
    (hordered.between u hu).2
  have hreach (u : Concrete) (hu : u ∈ tokens) : Token.skipBack bytes u.start = stop ↔
      stop ≤ u.start ∧ BlankBetween bytes stop u.start :=
    Token.skipBack_eq_iff (by have := hspan u hu; omega) hpos hstop
  rw [firstAfter?, mem_find?_reverse_iff, mem_find?_iff]
  constructor
  · rintro ⟨hreached, before, after, hsplit, hlater⟩
    have ht : t ∈ tokens := by simp [hsplit]
    obtain ⟨hle, hblank⟩ := (hreach t ht).mp hreached
    refine ⟨⟨hle, before, after, hsplit, ?_⟩, hblank⟩
    intro u hu hafter
    -- The token directly before the sign would be one of blanks.
    rcases List.eq_nil_or_concat' before with rfl | ⟨init, v, rfl⟩
    · cases hu
    rw [List.append_assoc, List.singleton_append] at hsplit
    have hv : v ∈ tokens := by simp [hsplit]
    have hapart := List.pairwise_append.mp (hsplit ▸ hordered.apart)
    have hvt := (List.pairwise_cons.mp hapart.2.1).1 t (by simp)
    have huv : u.start ≤ v.start := by
      rcases List.mem_append.mp hu with hu | hu
      · have := hapart.2.2 u hu v (by simp)
        have := hspan u (by simp [hsplit, hu])
        omega
      · rw [List.mem_singleton.mp hu]
    have hsolid := List.isChain_iff_forall_rel_of_append_cons_cons.mp hdirect hsplit hkind
    exact hsolid (hblank.mono (by omega) hvt)
  · rintro ⟨⟨hle, before, after, hsplit, hearlier⟩, hblank⟩
    have ht : t ∈ tokens := by simp [hsplit]
    refine ⟨(hreach t ht).mpr ⟨hle, hblank⟩, before, after, hsplit, ?_⟩
    intro u hu hreached
    have hu' : u ∈ tokens := by simp [hsplit, hu]
    have hapart := hsplit ▸ hordered.apart
    have htu := (List.pairwise_cons.mp (List.pairwise_append.mp hapart).2.1).1 u hu
    have hsolid := hsign t ht hkind
    have hstarts := hspan t ht
    exact ((hreach u hu').mp hreached).2.not_solidAt hle (by omega) hsolid

end TokenIndex

namespace Concrete

def spreadBytes : List UInt8 := Text.Utf8.encode "f(\r\n\n\t a\n\r\n ) b".toList

/-- The tokens of a call over five lines, and behind it one of blanks and a name. -/
def spreadTokens : List Concrete :=
  [token "identifier" 0 1, token "(" 1 2, token "identifier" 7 8, token ")" 12 13,
    token "string_fragment" 13 14, token "identifier" 14 15]

end Concrete

end EcmaPhp
