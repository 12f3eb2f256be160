import EcmaPhp.Output.Lines
import EcmaPhp.Output.Terminator
import Mathlib.Data.List.Basic
import Mathlib.Data.List.TakeWhile

/-! How a text ends: whether a line or a statement is at its end depends on its last characters,
down to the first one that is neither a blank nor a line end. -/
namespace EcmaPhp.Output

/-- A character that a statement's end may be followed by. -/
def isSoft (c : Char) : Bool := Text.isBlank c || c = '\n'

/-- How a text ends: its blanks and line ends, and whether they follow a semicolon. -/
def ending (text : List Char) : List Char × Bool :=
  (text.reverse.takeWhile isSoft, (text.reverse.dropWhile isSoft).head? = some ';')

theorem ending_append_of_soft {front back : List Char} (h : ∀ c ∈ back, isSoft c = true) :
    ending (front ++ back) = (back.reverse ++ (ending front).1, (ending front).2) := by
  have hback : ∀ c ∈ back.reverse, isSoft c = true := fun c hc => h c (List.mem_reverse.mp hc)
  rw [ending, List.reverse_append, List.takeWhile_append_of_pos hback,
    List.dropWhile_append_of_pos hback]
  rfl

theorem ending_append_of_hard {front back : List Char} (h : ∃ c ∈ back, isSoft c = false) :
    ending (front ++ back) = ending back := by
  obtain ⟨c, hc, hsoft⟩ := h
  have hdrop : back.reverse.dropWhile isSoft ≠ [] := by
    intro hnil
    have := List.dropWhile_eq_nil_iff.mp hnil c (List.mem_reverse.mpr hc)
    simp [hsoft] at this
  have htake : (back.reverse ++ front.reverse).takeWhile isSoft =
      back.reverse.takeWhile isSoft := by
    rw [List.takeWhile_append]
    split
    · rename_i hall
      have hlength := congrArg List.length (List.takeWhile_append_dropWhile (p := isSoft)
        (l := back.reverse))
      have := List.length_pos_iff.mpr hdrop
      simp only [List.length_append] at hlength
      omega
    · rfl
  rw [ending, ending, List.reverse_append, htake, List.dropWhile_append]
  simp only [List.isEmpty_iff, hdrop, if_false]
  rw [List.head?_append_of_ne_nil _ hdrop]

/-- The shortest text, reversed, that ends in the same way. -/
def endingText (e : List Char × Bool) : List Char := e.1 ++ if e.2 then [';'] else []

section Endings

variable {soft rest : List Char} (hrest : ∀ c ∈ rest.head?, isSoft c = false)
include hrest

theorem head?_dropWhile_isBlank (soft : List Char) {c : Char} (hc : c = ';' ∨ c = '\n') :
    ((soft ++ rest).dropWhile Text.isBlank).head? = some c ↔
      ((endingText (soft, rest.head? = some ';')).dropWhile Text.isBlank).head? = some c := by
  induction soft with
  | nil =>
    cases rest with
    | nil => simp [endingText]
    | cons x more =>
      have hx : isSoft x = false := hrest x rfl
      have hblank : Text.isBlank x = false := by simp_all [isSoft]
      have hline : x ≠ '\n' := by simp_all [isSoft]
      by_cases hsemi : x = ';'
      · subst hsemi
        simp [endingText, Text.isBlank]
      · rcases hc with rfl | rfl <;> simp [endingText, hblank, hsemi, hline]
  | cons x more ih =>
    simp only [endingText, List.cons_append, List.dropWhile_cons] at ih ⊢
    split
    · exact ih
    · simp

theorem startsTerminated_eq (hsoft : ∀ c ∈ soft, isSoft c = true) :
    startsTerminated (soft ++ rest) =
      startsTerminated (endingText (soft, rest.head? = some ';')) := by
  induction soft with
  | nil =>
    cases rest with
    | nil => simp [endingText]
    | cons x more =>
      have hx : isSoft x = false := hrest x rfl
      have hblank : Text.isBlank x = false := by simp_all [isSoft]
      have hline : x ≠ '\n' := by simp_all [isSoft]
      by_cases hsemi : x = ';'
      · subst hsemi
        simp [endingText, startsTerminated, Text.isBlank]
      · simp [endingText, startsTerminated, hblank, hsemi, hline]
  | cons x more ih =>
    have hmore := ih fun c hc => hsoft c (by simp [hc])
    cases hblank : Text.isBlank x with
    | true => simpa [startsTerminated, endingText, hblank] using hmore
    | false =>
      have hline : x = '\n' := by
        have := hsoft x (by simp)
        simpa [isSoft, hblank] using this
      subst hline
      have hhead := head?_dropWhile_isBlank hrest more (c := ';') (.inl rfl)
      simpa [startsTerminated, endingText, Text.isBlank] using hhead

theorem isTerminated_eq (hsoft : ∀ c ∈ soft, isSoft c = true) :
    isTerminated (soft ++ rest).reverse =
      isTerminated (endingText (soft, rest.head? = some ';')).reverse := by
  simp only [isTerminated, List.reverse_reverse, startsTerminated_eq hrest hsoft]
  congr 1
  cases soft with
  | nil =>
    cases rest with
    | nil => rfl
    | cons x more =>
      have hline : x ≠ '\n' := by
        rintro rfl
        exact absurd (hrest '\n' rfl) (by decide)
      by_cases hsemi : x = ';'
      · subst hsemi
        rfl
      · simp [endingText, hline, hsemi]
  | cons x more =>
    by_cases hline : x = '\n'
    · subst hline
      exact startsTerminated_eq hrest fun c hc => hsoft c (by simp [hc])
    · simp [endingText, hline]

end Endings

theorem head?_dropWhile_isSoft (text : List Char) :
    ∀ c ∈ (text.dropWhile isSoft).head?, isSoft c = false := by
  intro c hc
  have := List.head?_dropWhile_not isSoft text
  simp_all

/-- Whether a statement is at its end depends on how the text ends. -/
theorem isTerminated_eq_of_ending {t u : List Char} (h : ending t = ending u) :
    isTerminated t = isTerminated u := by
  have heq (t : List Char) : isTerminated t = isTerminated (endingText (ending t)).reverse := by
    have hsoft : ∀ c ∈ t.reverse.takeWhile isSoft, isSoft c = true :=
      fun c hc => List.mem_takeWhile_imp hc
    have hend := isTerminated_eq (head?_dropWhile_isSoft t.reverse) hsoft
    rwa [List.takeWhile_append_dropWhile, List.reverse_reverse] at hend
  rw [heq t, heq u, h]

theorem stopsAtLineStart_eq_of_ending {t u : List Char} (h : ending t = ending u) :
    stopsAtLineStart t = stopsAtLineStart u := by
  have heq (t : List Char) : stopsAtLineStart t =
      decide (((endingText (ending t)).dropWhile Text.isBlank).head? = some '\n') := by
    rw [stopsAtLineStart, ← List.takeWhile_append_dropWhile (p := isSoft) (l := t.reverse)]
    exact decide_eq_decide.mpr
      (head?_dropWhile_isBlank (head?_dropWhile_isSoft _) _ (.inr rfl))
  rw [heq, heq, h]

end EcmaPhp.Output
