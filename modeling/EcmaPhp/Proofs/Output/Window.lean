import EcmaPhp.Proofs.Output.Ending
import EcmaPhp.Proofs.Output.Insertion
import EcmaPhp.Proofs.Output.Writing
import Mathlib.Computability.RegularExpressions

/-! The end of the output seen through a window of whole chunks: unless very many blanks and line
ends come last, the window shows all that the whole text would. -/
namespace EcmaPhp
open Output

namespace Pattern
open RegularExpression

def blanks : RegularExpression Char := star (char ' ' + char '\t')

/-- The start of a line. -/
def lineStart : RegularExpression Char := char '\n' * blanks

/-- A semicolon and blanks. -/
def terminator : RegularExpression Char := char ';' * blanks

/-- A semicolon and blanks, with a line end among them or without. -/
def terminated : RegularExpression Char := terminator * (1 + lineStart)

/-- What may follow at the end of a text: nothing, or a line end that is the very last character. -/
def IsEnd (rest : List Char) : Prop := rest = [] ∨ rest = ['\n']

/-- A pattern matches at the end of a text. -/
def AtEnd (pattern : RegularExpression Char) (text : List Char) : Prop :=
  ∃ found rest, found ++ rest <:+ text ∧ found ∈ pattern.matches' ∧ IsEnd rest

variable {pattern : RegularExpression Char} {text found : List Char}

theorem atEnd_iff : AtEnd pattern text ↔ (∃ found, found <:+ text ∧ found ∈ pattern.matches') ∨
    ∃ init, text = init ++ ['\n'] ∧ ∃ found, found <:+ init ∧ found ∈ pattern.matches' := by
  constructor
  · rintro ⟨found, rest, ⟨front, rfl⟩, hfound, rfl | rfl⟩
    · exact .inl ⟨found, ⟨front, by simp⟩, hfound⟩
    · exact .inr ⟨front ++ found, by simp, found, List.suffix_append _ _, hfound⟩
  · rintro (⟨found, ⟨front, rfl⟩, hfound⟩ | ⟨_, rfl, found, ⟨front, rfl⟩, hfound⟩)
    · exact ⟨found, [], ⟨front, by simp⟩, hfound, .inl rfl⟩
    · exact ⟨found, ['\n'], ⟨front, by simp⟩, hfound, .inr rfl⟩

instance (pattern : RegularExpression Char) (text : List Char) : Decidable (AtEnd pattern text) :=
  decidable_of_iff ((∃ found ∈ text.tails, pattern.rmatch found = true) ∨
    text.getLast? = some '\n' ∧ ∃ found ∈ text.dropLast.tails, pattern.rmatch found = true) (by
      simp only [List.mem_tails, rmatch_iff_matches', atEnd_iff, List.getLast?_eq_some_iff]
      refine or_congr_right ⟨?_, ?_⟩
      · rintro ⟨⟨init, rfl⟩, hfound⟩
        exact ⟨init, rfl, by simpa using hfound⟩
      · rintro ⟨init, rfl, hfound⟩
        exact ⟨⟨init, rfl⟩, by simpa using hfound⟩)

theorem mem_blanks : found ∈ blanks.matches' ↔ ∀ c ∈ found, Text.isBlank c = true := by
  have hblank {word : List Char} : word ∈ (char ' ' + char '\t').matches' ↔
      ∃ c, Text.isBlank c = true ∧ word = [c] := by
    rw [matches'_add, Language.mem_add, matches'_char, matches'_char]
    change word = [' '] ∨ word = ['\t'] ↔ _
    simp [Text.isBlank, or_and_right, exists_or]
  rw [blanks, matches'_star, Language.mem_kstar]
  constructor
  · rintro ⟨words, rfl, hwords⟩ c hc
    obtain ⟨word, hword, hc⟩ := List.mem_flatten.mp hc
    obtain ⟨d, hd, rfl⟩ := hblank.mp (hwords word hword)
    rwa [List.mem_singleton.mp hc]
  · intro h
    refine ⟨found.map fun c => [c], (List.flatMap_singleton' found).symm, ?_⟩
    intro word hword
    obtain ⟨c, hc, rfl⟩ := List.mem_map.mp hword
    exact hblank.mpr ⟨c, h c hc, rfl⟩

theorem mem_char_mul {c : Char} : found ∈ (char c * pattern).matches' ↔
    ∃ back, found = c :: back ∧ back ∈ pattern.matches' := by
  rw [matches'_mul, Language.mem_mul, matches'_char]
  constructor
  · rintro ⟨_, rfl, back, hback, rfl⟩
    exact ⟨back, rfl, hback⟩
  · rintro ⟨back, rfl, hback⟩
    exact ⟨[c], rfl, back, hback, rfl⟩

theorem mem_terminated : found ∈ terminated.matches' ↔
    ∃ front back, found = ';' :: (front ++ back) ∧ (∀ c ∈ front, Text.isBlank c = true) ∧
      (back = [] ∨ back ∈ lineStart.matches') := by
  rw [terminated, matches'_mul, Language.mem_mul, matches'_add, matches'_epsilon]
  simp only [terminator, mem_char_mul, mem_blanks, Language.mem_add, Language.mem_one]
  constructor
  · rintro ⟨_, ⟨front, rfl, hfront⟩, back, hback, rfl⟩
    exact ⟨front, back, rfl, hfront, hback⟩
  · rintro ⟨front, back, rfl, hfront, hback⟩
    exact ⟨_, ⟨front, rfl, hfront⟩, back, hback, rfl⟩

theorem mem_terminator : found ∈ terminator.matches' ↔
    ∃ back, found = ';' :: back ∧ ∀ c ∈ back, Text.isBlank c = true := by
  simp only [terminator, mem_char_mul, mem_blanks]

/-- All but the first character of what a pattern matches are blanks and line ends. -/
def Trails (pattern : RegularExpression Char) : Prop :=
  ∀ found ∈ pattern.matches', ∃ c back, found = c :: back ∧ ∀ x ∈ back, isSoft x = true

theorem isSoft_of_isBlank {c : Char} (h : Text.isBlank c = true) : isSoft c = true := by
  simp [isSoft, h]

theorem trails_lineStart : Trails lineStart := by
  intro found hfound
  obtain ⟨back, rfl, hback⟩ := mem_char_mul.mp hfound
  exact ⟨'\n', back, rfl, fun x hx => isSoft_of_isBlank (mem_blanks.mp hback x hx)⟩

theorem trails_terminated : Trails terminated := by
  intro found hfound
  obtain ⟨front, back, rfl, hfront, hback⟩ := mem_terminated.mp hfound
  refine ⟨';', front ++ back, rfl, ?_⟩
  rw [List.forall_mem_append]
  refine ⟨fun x hx => isSoft_of_isBlank (hfront x hx), ?_⟩
  rcases hback with rfl | hback
  · simp
  · obtain ⟨c, more, rfl, hmore⟩ := trails_lineStart back hback
    obtain ⟨_, hc, -⟩ := mem_char_mul.mp hback
    obtain rfl : c = '\n' := (List.cons.inj hc).1
    exact List.forall_mem_cons.mpr ⟨rfl, hmore⟩

theorem isSoft_of_isEnd {rest : List Char} (h : IsEnd rest) : ∀ c ∈ rest, isSoft c = true := by
  rcases h with rfl | rfl
  · simp
  · simp [isSoft]

end Pattern

namespace Output

section Endings

variable {text reversed rest : List Char}

theorem dropWhile_isBlank_eq_cons_iff {c : Char} (hc : Text.isBlank c = false) :
    reversed.dropWhile Text.isBlank = c :: rest ↔
      ∃ blanks, reversed = blanks ++ c :: rest ∧ ∀ x ∈ blanks, Text.isBlank x = true := by
  constructor
  · intro h
    refine ⟨reversed.takeWhile Text.isBlank, ?_, fun x hx => List.mem_takeWhile_imp hx⟩
    rw [← h, List.takeWhile_append_dropWhile]
  · rintro ⟨blanks, rfl, hblanks⟩
    simp [List.dropWhile_append_of_pos hblanks, hc]

/-- A text stops at the start of a line if it ends in the pattern for that. -/
theorem stopsAtLineStart_iff :
    stopsAtLineStart text = true ↔ Pattern.AtEnd Pattern.lineStart text := by
  rw [stopsAtLineStart, decide_eq_true_iff, List.head?_eq_some_iff, Pattern.atEnd_iff]
  simp only [dropWhile_isBlank_eq_cons_iff (show Text.isBlank '\n' = false by decide),
    Pattern.lineStart, Pattern.mem_char_mul, Pattern.mem_blanks]
  constructor
  · rintro ⟨rest, blanks, htext, hblanks⟩
    refine .inl ⟨'\n' :: blanks.reverse, ⟨rest.reverse, ?_⟩, _, rfl, by simpa using hblanks⟩
    rw [← List.reverse_reverse text, htext]
    simp
  · rintro (⟨_, ⟨front, rfl⟩, blanks, rfl, hblanks⟩ | ⟨init, rfl, -⟩)
    · exact ⟨front.reverse, blanks.reverse, by simp, by simpa using hblanks⟩
    · exact ⟨init.reverse, [], by simp, by simp⟩

theorem startsTerminated_iff : startsTerminated reversed = true ↔
    ∃ gap blanks rest, reversed = gap ++ (blanks ++ ';' :: rest) ∧
      (∀ x ∈ blanks, Text.isBlank x = true) ∧
      (gap = [] ∨ ∃ more, gap = more ++ ['\n'] ∧ ∀ x ∈ more, Text.isBlank x = true) := by
  constructor
  · intro h
    rw [startsTerminated] at h
    split at h
    · rename_i rest hdrop
      obtain ⟨blanks, rfl, hblanks⟩ := (dropWhile_isBlank_eq_cons_iff (by decide)).mp hdrop
      exact ⟨[], blanks, rest, rfl, hblanks, .inl rfl⟩
    · rename_i rest hdrop
      obtain ⟨more, rfl, hmore⟩ := (dropWhile_isBlank_eq_cons_iff (by decide)).mp hdrop
      obtain ⟨rest, hrest⟩ := List.head?_eq_some_iff.mp (of_decide_eq_true h)
      obtain ⟨blanks, rfl, hblanks⟩ := (dropWhile_isBlank_eq_cons_iff (by decide)).mp hrest
      exact ⟨more ++ ['\n'], blanks, rest, by simp, hblanks, .inr ⟨more, rfl, hmore⟩⟩
    · cases h
  · rintro ⟨gap, blanks, rest, rfl, hblanks, hgap⟩
    have hdrop : (blanks ++ ';' :: rest).dropWhile Text.isBlank = ';' :: rest :=
      (dropWhile_isBlank_eq_cons_iff (by decide)).mpr ⟨blanks, rfl, hblanks⟩
    rcases hgap with rfl | ⟨more, rfl, hmore⟩
    · simp [startsTerminated, hdrop]
    · have hgap : (more ++ ['\n'] ++ (blanks ++ ';' :: rest)).dropWhile Text.isBlank =
          '\n' :: (blanks ++ ';' :: rest) :=
        (dropWhile_isBlank_eq_cons_iff (by decide)).mpr ⟨more, by simp, hmore⟩
      rw [startsTerminated, hgap]
      simp [hdrop]

/-- The reversed text begins with the end of a statement if the text ends in the pattern. -/
theorem startsTerminated_reverse_iff : startsTerminated text.reverse = true ↔
    ∃ found, found <:+ text ∧ found ∈ Pattern.terminated.matches' := by
  simp only [startsTerminated_iff, Pattern.mem_terminated, Pattern.lineStart, Pattern.mem_char_mul,
    Pattern.mem_blanks]
  constructor
  · rintro ⟨gap, blanks, rest, htext, hblanks, hgap⟩
    refine ⟨';' :: (blanks.reverse ++ gap.reverse), ⟨rest.reverse, ?_⟩, _, _, rfl,
      by simpa using hblanks, ?_⟩
    · rw [← List.reverse_reverse text, htext]
      simp
    · rcases hgap with rfl | ⟨more, rfl, hmore⟩
      · exact .inl rfl
      · exact .inr ⟨more.reverse, by simp, by simpa using hmore⟩
  · rintro ⟨_, ⟨front, rfl⟩, blanks, gap, rfl, hblanks, hgap⟩
    refine ⟨gap.reverse, blanks.reverse, front.reverse, by simp, by simpa using hblanks, ?_⟩
    rcases hgap with rfl | ⟨more, rfl, hmore⟩
    · exact .inl rfl
    · exact .inr ⟨more.reverse, by simp, by simpa using hmore⟩

/-- A text ends a statement if it ends in the pattern for that. -/
theorem isTerminated_iff :
    isTerminated text = true ↔ Pattern.AtEnd Pattern.terminated text := by
  rw [isTerminated, Bool.or_eq_true, startsTerminated_reverse_iff, Pattern.atEnd_iff]
  refine or_congr_right ?_
  constructor
  · intro h
    split at h
    · rename_i rest hrest
      refine ⟨rest.reverse, ?_, ?_⟩
      · rw [← List.reverse_reverse text, hrest, List.reverse_cons]
      · rwa [← startsTerminated_reverse_iff, List.reverse_reverse]
    · cases h
  · rintro ⟨init, rfl, hinit⟩
    rw [← startsTerminated_reverse_iff] at hinit
    simpa using hinit

theorem separateReversed?_eq_some_iff {result : List Char} :
    separateReversed? reversed = some result ↔ ∃ blanks rest, reversed = blanks ++ ';' :: rest ∧
      result = blanks ++ ' ' :: ',' :: rest ∧ ∀ c ∈ blanks, Text.isBlank c = true := by
  constructor
  · exact separateReversed?_eq_some
  · rintro ⟨blanks, rest, rfl, rfl, hblanks⟩
    have hdrop : (blanks ++ ';' :: rest).dropWhile Text.isBlank = ';' :: rest :=
      (dropWhile_isBlank_eq_cons_iff (by decide)).mpr ⟨blanks, rfl, hblanks⟩
    have htake : (blanks ++ ';' :: rest).takeWhile Text.isBlank = blanks := by
      simp [List.takeWhile_append_of_pos hblanks, Text.isBlank]
    simp [separateReversed?, hdrop, htake]

theorem map_reverse_separateReversed?_iff {result : List Char} :
    (separateReversed? text.reverse).map List.reverse = some result ↔
      ∃ front blanks, text = front ++ ';' :: blanks ∧ result = front ++ ',' :: ' ' :: blanks ∧
        ∀ c ∈ blanks, Text.isBlank c = true := by
  simp only [Option.map_eq_some_iff, separateReversed?_eq_some_iff]
  constructor
  · rintro ⟨_, ⟨blanks, rest, htext, rfl, hblanks⟩, rfl⟩
    refine ⟨rest.reverse, blanks.reverse, ?_, by simp, by simpa using hblanks⟩
    rw [← List.reverse_reverse text, htext]
    simp
  · rintro ⟨front, blanks, rfl, rfl, hblanks⟩
    exact ⟨_, ⟨blanks.reverse, front.reverse, by simp, rfl, by simpa using hblanks⟩, by simp⟩

theorem separate?_concat_newline (init : List Char) : separate? (init ++ ['\n']) =
    ((separateReversed? init.reverse).map List.reverse).map (· ++ ['\n']) := by
  simp [separate?, Function.comp_def]

theorem separate?_of_getLast? (h : text.getLast? ≠ some '\n') :
    separate? text = (separateReversed? text.reverse).map List.reverse := by
  rw [separate?]
  split
  · rename_i rest hrest
    rw [← List.head?_reverse, hrest] at h
    exact absurd rfl h
  · rfl

/-- The semicolon that the pattern of a terminator finds becomes a comma and a space. -/
theorem separate?_eq_some_iff {result : List Char} : separate? text = some result ↔
    ∃ front blanks rest, text = front ++ ';' :: (blanks ++ rest) ∧
      result = front ++ ',' :: ' ' :: (blanks ++ rest) ∧
      (∀ c ∈ blanks, Text.isBlank c = true) ∧ Pattern.IsEnd rest := by
  constructor
  · intro h
    by_cases hlast : text.getLast? = some '\n'
    · obtain ⟨init, rfl⟩ := List.getLast?_eq_some_iff.mp hlast
      rw [separate?_concat_newline, Option.map_eq_some_iff] at h
      obtain ⟨_, hinit, rfl⟩ := h
      obtain ⟨front, blanks, rfl, rfl, hblanks⟩ := map_reverse_separateReversed?_iff.mp hinit
      exact ⟨front, blanks, ['\n'], by simp, by simp, hblanks, .inr rfl⟩
    · rw [separate?_of_getLast? hlast] at h
      obtain ⟨front, blanks, rfl, rfl, hblanks⟩ := map_reverse_separateReversed?_iff.mp h
      exact ⟨front, blanks, [], by simp, by simp, hblanks, .inl rfl⟩
  · rintro ⟨front, blanks, rest, rfl, rfl, hblanks, rfl | rfl⟩
    · have hlast : (front ++ ';' :: blanks).getLast? ≠ some '\n' := by
        intro hlast
        rw [List.getLast?_append_of_ne_nil _ (List.cons_ne_nil _ _)] at hlast
        rcases List.mem_cons.mp (List.mem_of_getLast? hlast) with hc | hc
        · exact absurd hc (by decide)
        · exact absurd (hblanks _ hc) (by decide)
      simp only [List.append_nil]
      rw [separate?_of_getLast? hlast]
      exact map_reverse_separateReversed?_iff.mpr ⟨front, blanks, rfl, rfl, hblanks⟩
    · have hinit := map_reverse_separateReversed?_iff.mpr ⟨front, blanks, rfl, rfl, hblanks⟩
      have htext : front ++ ';' :: (blanks ++ ['\n']) = front ++ ';' :: blanks ++ ['\n'] := by simp
      rw [htext, separate?_concat_newline, hinit]
      simp

end Endings

section Window

variable {text window : List Char}

/-- The blanks and line ends that a text ends with. -/
def softEnd (text : List Char) : List Char := text.reverse.takeWhile isSoft

theorem length_le_softEnd {back : List Char} (h : back <:+ text)
    (hback : ∀ c ∈ back, isSoft c = true) :
    back.length ≤ (softEnd text).length := by
  obtain ⟨front, rfl⟩ := h
  have hreverse : ∀ c ∈ back.reverse, isSoft c = true :=
    fun c hc => hback c (List.mem_reverse.mp hc)
  rw [softEnd, List.reverse_append, List.takeWhile_append_of_pos hreverse, List.length_append,
    List.length_reverse]
  exact Nat.le_add_right _ _

/-- Whole chunks are as long as they are asked to be, if the text is. -/
theorem min_le_length_joinLast (size : Nat) (held : List (List Char)) :
    min size (Chunks.join held).length ≤ (Chunks.joinLast size held).length := by
  induction held generalizing size with
  | nil => simp
  | cons c older ih =>
    rw [Chunks.joinLast, Chunks.join_cons, List.length_append]
    split
    · omega
    · have := ih (size - c.length)
      rw [List.length_append]
      omega

/-- What a text ends with is seen in whole chunks of its length. -/
theorem suffix_lastChunks_iff {chunks : Chunks} {back : List Char} {size : Nat}
    (h : back.length ≤ size) : back <:+ chunks.lastChunks size ↔ back <:+ chunks.text := by
  have hwindow := chunks.lastChunks_suffix size
  refine ⟨fun hback => hback.trans hwindow, fun hback => ?_⟩
  have hlength : min size chunks.text.length ≤ (chunks.lastChunks size).length :=
    min_le_length_joinLast size chunks.held
  have := hback.length_le
  exact List.suffix_of_suffix_length_le hback hwindow (by omega)

theorem endsWith_iff (o : Output) (back : List Char) :
    o.endsWith back = true ↔ back <:+ o.text := by
  rw [endsWith, List.isSuffixOf_iff_suffix]
  exact suffix_lastChunks_iff (Nat.le_refl _)

/-- What comes last in a text is seen through the window if only blanks and line ends follow its
first character. -/
theorem suffix_tail_iff {o : Output} (h : (softEnd o.text).length < 255) {c : Char}
    {back : List Char} (hback : ∀ x ∈ back, isSoft x = true) :
    c :: back <:+ o.tail ↔ c :: back <:+ o.text := by
  refine ⟨fun hsuffix => hsuffix.trans o.tail_suffix, fun hsuffix => ?_⟩
  have hlength := length_le_softEnd ((List.suffix_cons c back).trans hsuffix) hback
  exact (suffix_lastChunks_iff (by simp only [List.length_cons, tailSize]; omega)).mpr hsuffix

/-- So the window decides on a pattern as the whole text does. -/
theorem atEnd_tail_iff {o : Output} (h : (softEnd o.text).length < 255)
    {pattern : RegularExpression Char} (hpattern : Pattern.Trails pattern) :
    Pattern.AtEnd pattern o.tail ↔ Pattern.AtEnd pattern o.text := by
  refine exists_congr fun found => exists_congr fun rest => and_congr_left ?_
  rintro ⟨hfound, hrest⟩
  obtain ⟨c, back, rfl, hback⟩ := hpattern found hfound
  exact suffix_tail_iff h (List.forall_mem_append.mpr ⟨hback, Pattern.isSoft_of_isEnd hrest⟩)

theorem isEmpty_chunks {o : Output} (h : o.text ≠ []) : o.chunks.isEmpty = false := by
  rw [Chunks.isEmpty, List.isEmpty_eq_false_iff]
  intro hnil
  exact h (by rw [text, Chunks.text, hnil, Chunks.join_nil])

theorem ensureNewline_eq {o : Output} (htext : o.text ≠ []) (h : (softEnd o.text).length < 255) :
    o.ensureNewline = if Pattern.AtEnd Pattern.lineStart o.text then o else o.newline := by
  have hwindow := stopsAtLineStart_iff.trans (atEnd_tail_iff h Pattern.trails_lineStart)
  simp only [ensureNewline, isEmpty_chunks htext, Bool.false_or, hwindow]

theorem ensureTerminator_eq {o : Output} (h : (softEnd o.text).length < 255) :
    o.ensureTerminator = if Pattern.AtEnd Pattern.terminated o.text then o else o.emit ";" := by
  have hwindow := isTerminated_iff.trans (atEnd_tail_iff h Pattern.trails_terminated)
  simp only [ensureTerminator, hwindow]

theorem text_increaseIndent (o : Output) :
    o.increaseIndent.text = if ['\t'] <:+ o.text then o.text ++ ['\t'] else o.text := by
  have htab := endsWith_iff { o with indent := o.indent + 1 } ['\t']
  simp only [increaseIndent, htab]
  change Output.text (if ['\t'] <:+ o.text then _ else _) = _
  split
  · exact text_emitChars _ _
  · rfl

theorem text_decreaseIndent (o : Output) :
    o.decreaseIndent.text = if ['\t'] <:+ o.text then o.text.dropLast else o.text := by
  have htab := endsWith_iff { o with indent := o.indent - 1 } ['\t']
  simp only [decreaseIndent, htab]
  change Output.text (if ['\t'] <:+ o.text then _ else _) = _
  split
  · rw [text_dropTail, List.dropLast_eq_take]
    rfl
  · rfl

theorem line_emitChars (o : Output) (cs : List Char) : (o.emitChars cs).line = o.line := by
  cases cs <;> rfl

theorem line_terminatorToSeparator (o : Output) : o.terminatorToSeparator.line = o.line := by
  unfold terminatorToSeparator
  split
  · exact line_emitChars _ _
  · rfl

/-- Every terminator at the end of the text becomes a separator; what follows it stays. -/
theorem text_terminatorToSeparator {o : Output} (h : (softEnd o.text).length < 255)
    {front blanks rest : List Char} (htext : o.text = front ++ ';' :: (blanks ++ rest))
    (hblanks : ∀ c ∈ blanks, Text.isBlank c = true) (hrest : Pattern.IsEnd rest) :
    o.terminatorToSeparator.text = front ++ ',' :: ' ' :: (blanks ++ rest) := by
  have hsoft : ∀ c ∈ blanks ++ rest, isSoft c = true := List.forall_mem_append.mpr
    ⟨fun c hc => Pattern.isSoft_of_isBlank (hblanks c hc), Pattern.isSoft_of_isEnd hrest⟩
  obtain ⟨start, hstart⟩ := (suffix_tail_iff h hsoft).mpr ⟨front, htext.symm⟩
  obtain ⟨hidden, hhidden⟩ := o.tail_suffix
  have hfront : hidden ++ start = front := by
    rw [← hstart, htext, ← List.append_assoc] at hhidden
    exact List.append_cancel_right hhidden
  have hresult : separate? o.tail = some (start ++ ',' :: ' ' :: (blanks ++ rest)) :=
    separate?_eq_some_iff.mpr ⟨start, blanks, rest, hstart.symm, rfl, hblanks, hrest⟩
  have hkept : (o.dropTail o.tail.length).text = hidden := by
    rw [text_dropTail, ← hhidden]
    simp
  rw [terminatorToSeparator, hresult]
  simp only [text_emitChars, hkept, ← List.append_assoc, hfront]

theorem terminatorToSeparator_eq_self {o : Output}
    (h : ¬ Pattern.AtEnd Pattern.terminator o.text) : o.terminatorToSeparator = o := by
  unfold terminatorToSeparator
  split
  · rename_i result hresult
    obtain ⟨front, blanks, rest, htail, -, hblanks, hrest⟩ := separate?_eq_some_iff.mp hresult
    have hsuffix : ';' :: blanks ++ rest <:+ o.tail := ⟨front, htail.symm⟩
    exact absurd ⟨_, _, hsuffix.trans o.tail_suffix,
      Pattern.mem_terminator.mpr ⟨blanks, rfl, hblanks⟩, hrest⟩ h
  · rfl

/-- The window at the end of the output decides as the whole text does, however that is cut into
chunks: on line ends, terminators and tabs as its patterns and endings are found in the whole text,
and on a separator, for which nothing but the last semicolon changes. -/
theorem window_decides_as_text {o : Output} (htext : o.text ≠ [])
    (hend : (softEnd o.text).length < 255) :
    (o.ensureNewline.text, o.ensureNewline.line) =
        (if Pattern.AtEnd Pattern.lineStart o.text then (o.text, o.line)
          else (Text.trimEnd Text.isBlank o.text ++ '\n' :: o.indentation, o.line + 1)) ∧
      (o.ensureTerminator.text, o.ensureTerminator.line) =
        (if Pattern.AtEnd Pattern.terminated o.text then (o.text, o.line)
          else (o.text ++ [';'], o.line)) ∧
      (o.increaseIndent.text, o.increaseIndent.line) =
        (if ['\t'] <:+ o.text then (o.text ++ ['\t'], o.line) else (o.text, o.line)) ∧
      (o.decreaseIndent.text, o.decreaseIndent.line) =
        (if ['\t'] <:+ o.text then (o.text.dropLast, o.line) else (o.text, o.line)) ∧
      o.terminatorToSeparator.line = o.line ∧
      (∀ front blanks rest, o.text = front ++ ';' :: (blanks ++ rest) →
        blanks ∈ Pattern.blanks.matches' → Pattern.IsEnd rest →
          ';' ∉ blanks ++ rest ∧
            o.terminatorToSeparator.text = front ++ ',' :: ' ' :: (blanks ++ rest)) ∧
      (¬ Pattern.AtEnd Pattern.terminator o.text → o.terminatorToSeparator.text = o.text) := by
  have hincrease : o.increaseIndent.line = o.line := by simpa using (writes_increaseIndent o).line
  have hdecrease : o.decreaseIndent.line = o.line := by simpa using (writes_decreaseIndent o).line
  refine ⟨?_, ?_, ?_, ?_, line_terminatorToSeparator o, ?_, ?_⟩
  · rw [ensureNewline_eq htext hend]
    split
    · rfl
    · rw [text_newline]
      exact congrArg _ (writes_newline o).line
  · rw [ensureTerminator_eq hend]
    split
    · rfl
    · rw [text_emit, emit, line_emitChars]
      rfl
  · rw [text_increaseIndent, hincrease]
    split <;> rfl
  · rw [text_decreaseIndent, hdecrease]
    split <;> rfl
  · intro front blanks rest hsplit hblanks hrest
    rw [Pattern.mem_blanks] at hblanks
    refine ⟨?_, text_terminatorToSeparator hend hsplit hblanks hrest⟩
    intro hmem
    rcases List.mem_append.mp hmem with hmem | hmem
    · exact absurd (hblanks _ hmem) (by decide)
    · exact absurd (Pattern.isSoft_of_isEnd hrest _ hmem) (by decide)
  · intro h
    rw [terminatorToSeparator_eq_self h]

/-- A text longer than the window, with an empty chunk, and a line end behind its terminator. -/
def splicedOutput : Output :=
  let o := (Output.emit {} "<?php\n").emitChars (List.replicate 300 'x')
  ((o.pushPoint.emit ";").emit " \n").insertAt 0 ['y']

theorem window_decides_spliced :
    let front := "<?php\n".toList ++ List.replicate 300 'x' ++ ['y']
    [] ∈ splicedOutput.chunks.held ∧ splicedOutput.tail.length < splicedOutput.text.length ∧
      splicedOutput.text ≠ [] ∧ (softEnd splicedOutput.text).length < 255 ∧
      splicedOutput.ensureTerminator.text = splicedOutput.text ∧
      splicedOutput.terminatorToSeparator.text = front ++ ',' :: ' ' :: ([' '] ++ ['\n']) := by
  intro front
  have htext : splicedOutput.text ≠ [] := by decide +kernel
  have hend : (softEnd splicedOutput.text).length < 255 := by decide +kernel
  have hsplit : splicedOutput.text = front ++ ';' :: ([' '] ++ ['\n']) := by decide +kernel
  clear_value front
  have hfound : [';', ' ', '\n'] ∈ Pattern.terminated.matches' :=
    Pattern.mem_terminated.mpr ⟨[' '], ['\n'], rfl, by simp [Text.isBlank],
      .inr (Pattern.mem_char_mul.mpr ⟨[], rfl, Pattern.mem_blanks.mpr (by simp)⟩)⟩
  have hpattern : Pattern.AtEnd Pattern.terminated splicedOutput.text :=
    ⟨[';', ' ', '\n'], [], ⟨front, hsplit.symm⟩, hfound, .inl rfl⟩
  obtain ⟨-, hterminated, -, -, -, hseparated, -⟩ := window_decides_as_text htext hend
  rw [if_pos hpattern, Prod.mk.injEq] at hterminated
  have hblank : [' '] ∈ Pattern.blanks.matches' := Pattern.mem_blanks.mpr (by simp [Text.isBlank])
  obtain ⟨-, hresult⟩ := hseparated front [' '] ['\n'] hsplit hblank (.inr rfl)
  exact ⟨by decide +kernel, by decide +kernel, htext, hend, hterminated.1, hresult⟩

end Window

end Output
end EcmaPhp
