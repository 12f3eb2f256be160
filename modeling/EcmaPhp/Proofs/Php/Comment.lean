import EcmaPhp.Text.Split
import Mathlib.Data.List.Chain
import Mathlib.Data.List.TakeWhile

/-! How PHP reads a comment, and texts of which nothing but one comment is read. -/
namespace EcmaPhp

namespace Text

/-- Nowhere in a text does one character stand right before another. -/
def Avoids (a b : Char) (text : List Char) : Prop := text.IsChain fun x y => ¬ (x = a ∧ y = b)

section Avoids

variable {a b c : Char} {text front back : List Char}

theorem avoids_iff : Avoids a b text ↔ ¬ [a, b] <:+: text := by
  rw [Avoids, List.isChain_iff_forall_rel_of_append_cons_cons]
  constructor
  · rintro h ⟨front, back, htext⟩
    exact h (show text = front ++ a :: b :: back by simp [← htext]) ⟨rfl, rfl⟩
  · rintro h x y front back rfl ⟨rfl, rfl⟩
    exact h ⟨front, back, by simp⟩

theorem Avoids.mono {part : List Char} (h : Avoids a b text) (hpart : part <:+: text) :
    Avoids a b part :=
  avoids_iff.mpr fun hpair => avoids_iff.mp h (hpair.trans hpart)

theorem avoids_append : Avoids a b (front ++ back) ↔
    Avoids a b front ∧ Avoids a b back ∧
      ∀ x ∈ front.getLast?, ∀ y ∈ back.head?, ¬ (x = a ∧ y = b) :=
  List.isChain_append

theorem avoids_cons : Avoids a b (c :: back) ↔
    (∀ y ∈ back.head?, ¬ (c = a ∧ y = b)) ∧ Avoids a b back :=
  List.isChain_cons

/-- Another character than the first may stand in front. -/
theorem avoids_cons_of_ne (h : c ≠ a) : Avoids a b (c :: back) ↔ Avoids a b back := by
  simp [avoids_cons, h]

/-- So may a text without that character. -/
theorem avoids_append_of_notMem (h : a ∉ front) : Avoids a b (front ++ back) ↔ Avoids a b back := by
  induction front with
  | nil => rfl
  | cons c rest ih =>
    obtain ⟨hc, hrest⟩ : a ≠ c ∧ a ∉ rest := by simpa using h
    rw [List.cons_append, avoids_cons_of_ne hc.symm, ih hrest]

/-- Behind a text, one without the second character may stand. -/
theorem avoids_append_of_notMem_right (h : b ∉ back) :
    Avoids a b (front ++ back) ↔ Avoids a b front := by
  have hback : Avoids a b back := by
    rw [avoids_iff]
    intro hpair
    exact h (hpair.subset (by simp))
  rw [avoids_append]
  refine ⟨fun h => h.1, fun hfront => ⟨hfront, hback, ?_⟩⟩
  rintro x - y hy ⟨-, rfl⟩
  exact h (List.mem_of_mem_head? hy)

end Avoids

end Text

namespace Php
open Text

def isSpace (c : Char) : Bool := isBlank c || c = '\n' || c = '\r'

/-- What is left behind a line comment, which ends before a line end or a closing tag. -/
def afterLine : List Char → List Char
  | [] => []
  | c :: rest =>
    if c = '\n' ∨ c = '\r' ∨ c = '?' ∧ rest.head? = some '>' then c :: rest else afterLine rest

/-- What is left behind a block comment, which ends with the first star before a slash. -/
def afterBlock? : List Char → Option (List Char)
  | [] => none
  | c :: rest => if c = '*' ∧ rest.head? = some '/' then some (rest.drop 1) else afterBlock? rest

/-- What is left behind the comment at the start of a text. -/
def afterComment? : List Char → Option (List Char)
  | '/' :: '/' :: rest => some (afterLine rest)
  | '/' :: '*' :: rest => afterBlock? rest
  | _ => none

/-- Nothing, or a line end and blanks. -/
def IsBreak (after : List Char) : Prop :=
  after = [] ∨ ∃ blanks, after = '\n' :: blanks ∧ ∀ c ∈ blanks, isBlank c = true

/-- Whatever follows a text, nothing but white space and one comment is read of it, which reaches up
to its end or its last line end. -/
def ReadsAsComment (text : List Char) : Prop :=
  ∃ after, IsBreak after ∧
    ∀ rest, afterComment? ((text ++ rest).dropWhile isSpace) = some (after ++ rest)

variable {body inside rest : List Char}

theorem afterLine_of_avoids (hends : ∀ c ∈ body, c ≠ '\n' ∧ c ≠ '\r') (h : Avoids '?' '>' body) :
    afterLine (body ++ '\n' :: rest) = '\n' :: rest := by
  induction body with
  | nil => simp [afterLine]
  | cons c body ih =>
    rw [List.forall_mem_cons] at hends
    rw [avoids_cons] at h
    have hstop : ¬ (c = '\n' ∨ c = '\r' ∨ c = '?' ∧ (body ++ '\n' :: rest).head? = some '>') := by
      rintro (hc | hc | ⟨hc, hhead⟩)
      · exact hends.1.1 hc
      · exact hends.1.2 hc
      · cases body with
        | nil => simp at hhead
        | cons d more => exact h.1 d rfl ⟨hc, by simpa using hhead⟩
    rw [List.cons_append, afterLine, if_neg hstop, ih hends.2 h.2]

/-- A closing tag ends a line comment. -/
theorem exists_afterLine_eq (hends : ∀ c ∈ body, c ≠ '\n' ∧ c ≠ '\r') (h : ¬ Avoids '?' '>' body) :
    ∃ more, afterLine (body ++ rest) = '?' :: more := by
  induction body with
  | nil => exact absurd List.isChain_nil h
  | cons c body ih =>
    rw [List.forall_mem_cons] at hends
    rw [List.cons_append, afterLine]
    split
    · rename_i hstop
      obtain ⟨rfl, -⟩ : c = '?' ∧ (body ++ rest).head? = some '>' := by
        simpa [hends.1] using hstop
      exact ⟨_, rfl⟩
    · rename_i hstop
      apply ih hends.2
      intro hbody
      refine h (avoids_cons.mpr ⟨?_, hbody⟩)
      rintro y hy ⟨rfl, rfl⟩
      exact hstop (.inr (.inr ⟨rfl, by simp [List.head?_append, Option.mem_def.mp hy]⟩))

theorem afterBlock?_of_avoids (h : Avoids '*' '/' inside) :
    afterBlock? (inside ++ '*' :: '/' :: rest) = some rest := by
  induction inside with
  | nil => simp [afterBlock?]
  | cons c inside ih =>
    rw [avoids_cons] at h
    have hclosing : ¬ (c = '*' ∧ (inside ++ '*' :: '/' :: rest).head? = some '/') := by
      rintro ⟨hc, hhead⟩
      cases inside with
      | nil => simp at hhead
      | cons d more => exact h.1 d rfl ⟨hc, by simpa using hhead⟩
    rw [List.cons_append, afterBlock?, if_neg hclosing, ih h.2]

variable {spaces after blanks : List Char} (hspaces : ∀ c ∈ spaces, isSpace c = true)
include hspaces

/-- A block comment is read up to its end if it is not closed before. -/
theorem readsAsComment_block (hinside : Avoids '*' '/' inside) (hafter : IsBreak after) :
    ReadsAsComment (spaces ++ ('/' :: '*' :: inside ++ '*' :: '/' :: after)) := by
  refine ⟨after, hafter, fun rest => ?_⟩
  rw [List.append_assoc, List.dropWhile_append_of_pos hspaces]
  simpa [isSpace, isBlank, afterComment?] using afterBlock?_of_avoids hinside

/-- A line comment is read up to its line end if there is no closing tag in it. -/
theorem readsAsComment_line_iff (hends : ∀ c ∈ body, c ≠ '\n' ∧ c ≠ '\r')
    (hblanks : ∀ c ∈ blanks, isBlank c = true) :
    ReadsAsComment (spaces ++ ('/' :: '/' :: body ++ '\n' :: blanks)) ↔ Avoids '?' '>' body := by
  have hread (rest : List Char) :
      afterComment? ((spaces ++ ('/' :: '/' :: body ++ '\n' :: blanks) ++ rest).dropWhile isSpace) =
        some (afterLine (body ++ '\n' :: (blanks ++ rest))) := by
    rw [List.append_assoc, List.dropWhile_append_of_pos hspaces]
    simp [isSpace, isBlank, afterComment?]
  constructor
  · rintro ⟨after, hafter, hrest⟩
    by_contra htag
    obtain ⟨more, hmore⟩ : ∃ more, afterLine (body ++ '\n' :: (blanks ++ [])) = '?' :: more :=
      exists_afterLine_eq hends htag
    have hleft := (hread []).symm.trans (hrest [])
    rw [hmore, Option.some_inj, List.append_nil] at hleft
    rcases hafter with rfl | ⟨_, rfl, -⟩
    · cases hleft
    · exact absurd (List.cons.inj hleft).1 (by decide)
  · intro h
    refine ⟨'\n' :: blanks, .inr ⟨blanks, rfl, hblanks⟩, fun rest => ?_⟩
    rw [hread, afterLine_of_avoids hends h]
    rfl

end Php
end EcmaPhp
