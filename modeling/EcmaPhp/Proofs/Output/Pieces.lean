import EcmaPhp.Proofs.Php.Spelling

/-! Texts whose array delimiters are left open, and their two renderings. -/
namespace EcmaPhp
open Text

/-- A piece of the text: a character, or a delimiter of an array. -/
inductive Piece where
  | char (c : Char)
  | opening
  | closing
  deriving DecidableEq, Repr

namespace Piece

/-- A piece as it is written. -/
def chars (concise : Bool) : Piece → List Char
  | .char c => [c]
  | .opening => if concise then ['['] else "array(".toList
  | .closing => if concise then [']'] else [')']

def render (concise : Bool) (ps : List Piece) : List Char := ps.flatMap (chars concise)

def isBlank : Piece → Bool
  | .char c => Text.isBlank c
  | _ => false

/-- The last character of a piece. -/
def last (concise : Bool) : Piece → Char
  | .char c => c
  | .opening => if concise then '[' else '('
  | .closing => if concise then ']' else ')'

variable {concise : Bool}

@[simp] theorem render_nil : render concise [] = [] := rfl

@[simp] theorem render_cons (p : Piece) (ps : List Piece) :
    render concise (p :: ps) = p.chars concise ++ render concise ps := rfl

@[simp] theorem render_append (ps qs : List Piece) :
    render concise (ps ++ qs) = render concise ps ++ render concise qs :=
  List.flatMap_append

@[simp] theorem render_map_char (cs : List Char) : render concise (cs.map .char) = cs := by
  induction cs with
  | nil => rfl
  | cons c rest ih => simp [chars, ih]

/-- Every piece ends in a character, and its kind is plain to see from that character. -/
theorem exists_chars_eq (p : Piece) (concise : Bool) :
    ∃ front, p.chars concise = front ++ [p.last concise] := by
  cases p with
  | char c => exact ⟨[], rfl⟩
  | opening =>
    cases concise with
    | true => exact ⟨[], rfl⟩
    | false => exact ⟨"array".toList, rfl⟩
  | closing => cases concise <;> exact ⟨[], rfl⟩

theorem chars_ne_nil (p : Piece) (concise : Bool) : p.chars concise ≠ [] := by
  obtain ⟨front, h⟩ := p.exists_chars_eq concise
  simp [h]

@[simp] theorem render_eq_nil {ps : List Piece} : render concise ps = [] ↔ ps = [] := by
  cases ps with
  | nil => simp
  | cons p rest => simp [chars_ne_nil]

theorem isBlank_last (p : Piece) (concise : Bool) : Text.isBlank (p.last concise) = p.isBlank := by
  cases p with
  | char c => rfl
  | opening => cases concise <;> rfl
  | closing => cases concise <;> rfl

theorem getLast?_render (ps : List Piece) :
    (render concise ps).getLast? = ps.getLast?.map (last concise) := by
  induction ps using List.reverseRecOn with
  | nil => rfl
  | append_singleton ps p _ =>
    obtain ⟨front, h⟩ := p.exists_chars_eq concise
    simp only [render_append, render_cons, render_nil, List.append_nil, h, ← List.append_assoc,
      List.getLast?_concat, Option.map_some]

/-- Drops the blanks at the end. -/
def trimEnd (ps : List Piece) : List Piece := (ps.reverse.dropWhile isBlank).reverse

theorem trimEnd_isPrefix (ps : List Piece) : trimEnd ps <+: ps := by
  rw [trimEnd, ← List.reverse_suffix, List.reverse_reverse]
  exact List.dropWhile_suffix isBlank

/-- Blanks are characters, so both renderings have the same ones at their ends. -/
theorem render_trimEnd (ps : List Piece) :
    render concise (trimEnd ps) = Text.trimEnd Text.isBlank (render concise ps) := by
  induction ps using List.reverseRecOn with
  | nil => rfl
  | append_singleton ps p ih =>
    obtain ⟨front, h⟩ := p.exists_chars_eq concise
    cases hblank : p.isBlank with
    | true =>
      have htrim : trimEnd (ps ++ [p]) = trimEnd ps := by simp [trimEnd, hblank]
      cases p with
      | char c =>
        rw [htrim, ih, render_append]
        exact (trimEnd_concat_of_pos hblank _).symm
      | opening => cases hblank
      | closing => cases hblank
    | false =>
      have htrim : trimEnd (ps ++ [p]) = ps ++ [p] := by simp [trimEnd, hblank]
      have hrender : render concise (ps ++ [p]) =
          (render concise ps ++ front) ++ [p.last concise] := by
        simp [h]
      rw [htrim, hrender, trimEnd_concat_of_neg (by rwa [isBlank_last])]

/-- How many characters pieces are written with. -/
def width (concise : Bool) (ps : List Piece) : ℕ := (render concise ps).length

@[simp] theorem width_append (ps qs : List Piece) :
    width concise (ps ++ qs) = width concise ps + width concise qs := by
  simp [width]

@[simp] theorem width_map_char (cs : List Char) : width concise (cs.map .char) = cs.length := by
  simp [width]

theorem length_le_width (concise : Bool) (ps : List Piece) : ps.length ≤ width concise ps := by
  induction ps with
  | nil => exact Nat.le_refl 0
  | cons p rest ih =>
    have hpos := List.length_pos_iff.mpr (p.chars_ne_nil concise)
    simp only [width, render_cons, List.length_cons, List.length_append] at ih ⊢
    omega

theorem width_take_add_drop (concise : Bool) (ps : List Piece) (k : ℕ) :
    width concise (ps.take k) + width concise (ps.drop k) = width concise ps := by
  rw [← width_append, List.take_append_drop]

theorem take_render (ps : List Piece) (k : ℕ) :
    (render concise ps).take (width concise (ps.take k)) = render concise (ps.take k) := by
  have hsplit : render concise ps = render concise (ps.take k) ++ render concise (ps.drop k) := by
    rw [← render_append, List.take_append_drop]
  rw [hsplit]
  exact List.take_left

theorem drop_render (ps : List Piece) (k : ℕ) :
    (render concise ps).drop (width concise (ps.take k)) = render concise (ps.drop k) := by
  have hsplit : render concise ps = render concise (ps.take k) ++ render concise (ps.drop k) := by
    rw [← render_append, List.take_append_drop]
  rw [hsplit]
  exact List.drop_left

theorem width_take_mono {ps : List Piece} {k j : ℕ} (h : k ≤ j) :
    width concise (ps.take k) ≤ width concise (ps.take j) := by
  have hsplit := width_take_add_drop concise (ps.take j) k
  rw [List.take_take, Nat.min_eq_left h] at hsplit
  omega

theorem width_take_min (ps : List Piece) (k j : ℕ) :
    width concise (ps.take (min k j)) =
      min (width concise (ps.take k)) (width concise (ps.take j)) := by
  rcases Nat.le_total k j with h | h
  · rw [Nat.min_eq_left h, Nat.min_eq_left (width_take_mono h)]
  · rw [Nat.min_eq_right h, Nat.min_eq_right (width_take_mono h)]

/-- Every piece is written with a character at least, so both renderings reach a place together. -/
theorem width_take_append_le_iff {ps qs : List Piece} {k : ℕ} (hk : k ≤ (ps ++ qs).length) :
    width concise ((ps ++ qs).take k) ≤ width concise ps ↔ k ≤ ps.length := by
  constructor
  · intro h
    by_contra hlt
    rw [List.take_append, List.take_of_length_le (by omega), width_append] at h
    have hpos := length_le_width concise (qs.take (k - ps.length))
    rw [List.length_take] at hpos
    rw [List.length_append] at hk
    omega
  · intro h
    rw [List.take_append_of_le_length h]
    have := width_take_add_drop concise ps k
    omega

end Piece

end EcmaPhp
