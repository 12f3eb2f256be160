import EcmaPhp.Output.Comments
import EcmaPhp.Proofs.Output.LineCount
import Mathlib.Data.List.DropRight

/-! Block comments in new places: the later lines change the blanks before them and nothing else, and
a comment that is in its place stays as it is. -/
namespace EcmaPhp
open Text

namespace Text

/-- Changes all lines but the first. -/
def onLater (f : List Char → List Char) : List (List Char) → List (List Char)
  | [] => []
  | first :: rest => first :: rest.map f

/-- The lines of a text, the later ones without the blanks before them. -/
def flushLines (text : List Char) : List (List Char) :=
  onLater (List.dropWhile isBlank) (split '\n' text)

theorem intercalate_cons (separator first : List Char) (rest : List (List Char)) :
    separator.intercalate (first :: rest) = first ++ rest.flatMap (separator ++ ·) := by
  induction rest generalizing first with
  | nil => simp
  | cons second others ih => simp [List.intercalate_cons_cons, ih]

theorem onLater_onLater (f g : List Char → List Char) (lines : List (List Char)) :
    onLater f (onLater g lines) = onLater (f ∘ g) lines := by
  cases lines with
  | nil => rfl
  | cons first rest => simp [onLater]

theorem onLater_ne_nil (f : List Char → List Char) {lines : List (List Char)} (h : lines ≠ []) :
    onLater f lines ≠ [] := by
  cases lines with
  | nil => exact absurd rfl h
  | cons first rest => exact List.cons_ne_nil _ _

/-- Tabs behind every line end are tabs before the later lines. -/
theorem intercalate_onLater (tabs : List Char) (lines : List (List Char)) :
    ('\n' :: tabs).intercalate lines = ['\n'].intercalate (onLater (tabs ++ ·) lines) := by
  cases lines with
  | nil => rfl
  | cons first rest => simp [onLater, intercalate_cons, List.flatMap_map]

/-- So are tabs behind the last line, which ends as the others do. -/
theorem flatMap_eq_intercalate (ending : List Char) {lines : List (List Char)} (h : lines ≠ []) :
    lines.flatMap (· ++ ending) = ending.intercalate lines ++ ending := by
  obtain ⟨first, rest, rfl⟩ := List.exists_cons_of_ne_nil h
  have hrest : ending ++ rest.flatMap (· ++ ending) = rest.flatMap (ending ++ ·) ++ ending := by
    induction rest with
    | nil => simp
    | cons second others ih => simp_all
  simp [intercalate_cons, hrest]

/-- Lines without line ends are read back from their text. -/
theorem split_intercalate {lines : List (List Char)} (hne : lines ≠ [])
    (h : ∀ line ∈ lines, '\n' ∉ line) : split '\n' (['\n'].intercalate lines) = lines := by
  rw [split_eq_splitOn, List.splitOn_intercalate '\n' h hne]

theorem intercalate_split (text : List Char) : ['\n'].intercalate (split '\n' text) = text := by
  rw [split_eq_splitOn, List.intercalate_splitOn]

theorem mem_intercalate {c : Char} {separator : List Char} {lines : List (List Char)}
    (h : c ∈ separator.intercalate lines) : c ∈ separator ∨ ∃ line ∈ lines, c ∈ line := by
  cases lines with
  | nil => cases h
  | cons first rest =>
    rw [intercalate_cons, List.mem_append, List.mem_flatMap] at h
    rcases h with hfirst | ⟨line, hline, hc⟩
    · exact .inr ⟨first, List.mem_cons_self, hfirst⟩
    · exact (List.mem_append.mp hc).imp_right fun hc => ⟨line, List.mem_cons_of_mem _ hline, hc⟩

theorem mem_of_mem_split {c : Char} {text line : List Char} (hline : line ∈ split '\n' text)
    (hc : c ∈ line) : c ∈ text := by
  rw [← intercalate_split text]
  obtain ⟨before, after, hlines⟩ := List.append_of_mem hline
  cases before with
  | nil => simp [hlines, intercalate_cons, hc]
  | cons first rest => simp [hlines, intercalate_cons, hc]

end Text

namespace Comment

/-- A later line in its place, but for the indentation. -/
def flushLine (line : List Char) : List Char := alignLine (line.dropWhile isBlank)

/-- A comment as one text, with tabs before its later lines. -/
def placed (c : Comment) (level : Nat) : List Char :=
  ('\n' :: List.replicate level '\t').intercalate c.outputLines

/-- The text of a block comment. -/
def enclosed (body : List Char) : List Char := '/' :: '*' :: body ++ ['*', '/']

theorem joinLineEnds_of_notMem {text : List Char} (h : '\r' ∉ text) : joinLineEnds text = text := by
  induction text with
  | nil => rfl
  | cons c rest ih =>
    obtain ⟨hc, hrest⟩ : '\r' ≠ c ∧ '\r' ∉ rest := by simpa using h
    rw [joinLineEnds, ih hrest]
    intro more heq
    exact absurd heq.symm hc

theorem carriage_notMem_enclosed {body : List Char} : '\r' ∉ enclosed body ↔ '\r' ∉ body := by
  simp [enclosed]

/-- The text of a block comment is read as such, whatever its line ends were. -/
theorem ofText_of_joinLineEnds {text body : List Char} (h : joinLineEnds text = enclosed body)
    (id : Nat) (location : Location) :
    ofText id location (String.ofList text) = ⟨id, .block, String.ofList body, location⟩ := by
  have hclosed : ['*', '/'].isSuffixOf (enclosed body) = true := by
    rw [List.isSuffixOf_iff_suffix]
    exact List.suffix_append _ _
  have hbody : ((enclosed body).take ((enclosed body).length - 2)).drop 2 = body := by
    simp [enclosed]
  rw [ofText, String.toList_ofList, h]
  simp only [hclosed, if_true, hbody]
  rfl

theorem ofText_enclosed {body : List Char} (h : '\r' ∉ body) (id : Nat) (location : Location) :
    ofText id location (String.ofList (enclosed body)) =
      ⟨id, .block, String.ofList body, location⟩ :=
  ofText_of_joinLineEnds (joinLineEnds_of_notMem (carriage_notMem_enclosed.mpr h)) id location

section Lines

variable {body : List Char}

theorem dropWhile_append_closing (line : List Char) :
    (line ++ ['*', '/']).dropWhile isBlank = line.dropWhile isBlank ++ ['*', '/'] := by
  induction line with
  | nil => rfl
  | cons c rest ih =>
    rw [List.cons_append, List.dropWhile_cons, List.dropWhile_cons, ih]
    split <;> rfl

theorem blockRest_append (init : List (List Char)) (last : List Char) :
    blockRest (init ++ [last]) = (init ++ [last ++ ['*', '/']]).map flushLine := by
  induction init with
  | nil => simp [blockRest, flushLine, dropWhile_append_closing]
  | cons line rest ih =>
    rw [List.cons_append, blockRest, ih]
    · rfl
    · simp

/-- The lines of a block comment are those of its body with the delimiters at both ends. -/
theorem split_enclosed {first last : List Char} {init : List (List Char)}
    (h : split '\n' body = first :: (init ++ [last])) :
    split '\n' (enclosed body) = ('/' :: '*' :: first) :: (init ++ [last ++ ['*', '/']]) := by
  have hlines : ∀ line ∈ first :: (init ++ [last]), '\n' ∉ line := by
    rw [← h]
    exact fun line => notMem_of_mem_split
  have hbody : enclosed body =
      ['\n'].intercalate (('/' :: '*' :: first) :: (init ++ [last ++ ['*', '/']])) := by
    rw [← intercalate_split body, h]
    simp [enclosed, intercalate_cons]
  rw [hbody]
  apply split_intercalate (by simp)
  simp only [List.forall_mem_cons, List.forall_mem_append, List.not_mem_nil, false_implies,
    implies_true, and_true] at hlines ⊢
  simpa using hlines

/-- A block comment has one line, or a first and a last. -/
theorem split_enclosed_cases (body : List Char) :
    (split '\n' body = [body] ∧ split '\n' (enclosed body) = [enclosed body]) ∨
      ∃ first init last, split '\n' body = first :: (init ++ [last]) ∧
        split '\n' (enclosed body) = ('/' :: '*' :: first) :: (init ++ [last ++ ['*', '/']]) := by
  obtain ⟨first, rest, hsplit⟩ := List.exists_cons_of_ne_nil (split_ne_nil '\n' body)
  rcases List.eq_nil_or_concat' rest with rfl | ⟨init, last, rfl⟩
  · obtain rfl : first = body := by simpa [hsplit] using intercalate_split body
    have hfirst : '\n' ∉ first := notMem_of_mem_split (by rw [hsplit]; simp)
    refine .inl ⟨hsplit, ?_⟩
    rw [split_eq_splitOn, List.splitOn_eq_singleton]
    simpa [enclosed] using hfirst
  · exact .inr ⟨first, init, last, hsplit, split_enclosed hsplit⟩

/-- A block comment is written with the lines of its text, the later ones flush. -/
theorem outputLines_block (id : Nat) (location : Location) (body : List Char) :
    outputLines ⟨id, .block, String.ofList body, location⟩ =
      onLater flushLine (split '\n' (enclosed body)) := by
  rcases split_enclosed_cases body with ⟨hbody, htext⟩ | ⟨first, init, last, hbody, htext⟩
  · rw [htext]
    simp [outputLines, hbody, onLater, enclosed]
  · rw [htext, onLater, ← blockRest_append]
    cases init <;> simp [outputLines, hbody]

end Lines

/-- A later line in its place. -/
def placeLine (level : Nat) (line : List Char) : List Char :=
  List.replicate level '\t' ++ flushLine line

/-- A text with its later lines in their places. -/
def reflow (level : Nat) (text : List Char) : List Char :=
  ['\n'].intercalate (onLater (placeLine level) (split '\n' text))

section Reflow

variable (level : Nat)

/-- A line in its place has other blanks in front. -/
theorem exists_placeLine_eq (line : List Char) : ∃ blanks, (∀ c ∈ blanks, isBlank c = true) ∧
    placeLine level line = blanks ++ line.dropWhile isBlank := by
  have htabs : ∀ c ∈ List.replicate level '\t', isBlank c = true := by
    intro c hc
    rw [List.eq_of_mem_replicate hc]
    rfl
  unfold placeLine flushLine alignLine
  split
  · rename_i rest hstar
    refine ⟨List.replicate level '\t' ++ [' '], ?_, by simp [hstar]⟩
    rw [List.forall_mem_append]
    exact ⟨htabs, by simp [isBlank]⟩
  · exact ⟨List.replicate level '\t', htabs, rfl⟩

theorem dropWhile_placeLine (line : List Char) :
    (placeLine level line).dropWhile isBlank = line.dropWhile isBlank := by
  obtain ⟨blanks, hblanks, heq⟩ := exists_placeLine_eq level line
  rw [heq, List.dropWhile_append_of_pos hblanks, List.dropWhile_idempotent]

theorem placeLine_placeLine (line : List Char) :
    placeLine level (placeLine level line) = placeLine level line := by
  rw [placeLine, flushLine, dropWhile_placeLine]
  rfl

theorem exists_placeLine_closing (line : List Char) :
    ∃ front, placeLine level (line ++ ['*', '/']) = front ++ ['*', '/'] := by
  obtain ⟨blanks, -, heq⟩ := exists_placeLine_eq level (line ++ ['*', '/'])
  exact ⟨blanks ++ line.dropWhile isBlank, by rw [heq, dropWhile_append_closing, List.append_assoc]⟩

/-- Lines in their places have no characters of their own but blanks. -/
theorem mem_onLater_placeLine {c : Char} {line : List Char} {lines : List (List Char)}
    (hblank : isBlank c = false) (hline : line ∈ onLater (placeLine level) lines) (hc : c ∈ line) :
    ∃ old ∈ lines, c ∈ old := by
  cases lines with
  | nil => cases hline
  | cons first rest =>
    rcases List.mem_cons.mp hline with rfl | hline
    · exact ⟨line, List.mem_cons_self, hc⟩
    obtain ⟨old, hold, rfl⟩ := List.mem_map.mp hline
    obtain ⟨blanks, hblanks, heq⟩ := exists_placeLine_eq level old
    rw [heq, List.mem_append] at hc
    rcases hc with hc | hc
    · simp [hblanks c hc] at hblank
    · exact ⟨old, List.mem_cons_of_mem _ hold, List.dropWhile_subset _ hc⟩

theorem split_reflow (text : List Char) :
    split '\n' (reflow level text) = onLater (placeLine level) (split '\n' text) := by
  apply split_intercalate
  · exact onLater_ne_nil _ (split_ne_nil _ _)
  · intro line hline hmem
    obtain ⟨old, hold, hmem⟩ := mem_onLater_placeLine level (by decide) hline hmem
    exact notMem_of_mem_split hold hmem

theorem flushLines_reflow (text : List Char) : flushLines (reflow level text) = flushLines text := by
  rw [flushLines, split_reflow, onLater_onLater]
  exact congrArg (onLater · _) (funext (dropWhile_placeLine level))

theorem reflow_reflow (text : List Char) : reflow level (reflow level text) = reflow level text := by
  rw [reflow, split_reflow, onLater_onLater]
  exact congrArg (['\n'].intercalate <| onLater · _) (funext (placeLine_placeLine level))

theorem notMem_reflow {c : Char} {text : List Char} (hblank : isBlank c = false) (hc : c ≠ '\n')
    (h : c ∉ text) : c ∉ reflow level text := by
  intro hmem
  rcases mem_intercalate hmem with hsep | ⟨line, hline, hmem⟩
  · exact hc (List.mem_singleton.mp hsep)
  · obtain ⟨old, hold, hmem⟩ := mem_onLater_placeLine level hblank hline hmem
    exact h (mem_of_mem_split hold hmem)

/-- A block comment keeps its delimiters. -/
theorem exists_reflow_enclosed (body : List Char) :
    ∃ inside, reflow level (enclosed body) = enclosed inside := by
  rcases split_enclosed_cases body with ⟨-, htext⟩ | ⟨first, init, last, -, htext⟩
  · exact ⟨body, by simp [reflow, htext, onLater]⟩
  · -- the closing delimiter is behind the blanks of its line, also where nothing else is on it
    obtain ⟨front, hfront⟩ := exists_placeLine_closing level last
    refine ⟨['\n'].intercalate (first :: (init.map (placeLine level) ++ [front])), ?_⟩
    rw [reflow, htext, onLater, List.map_append, List.map_singleton, hfront]
    simp [enclosed, intercalate_cons]

theorem placed_block (id : Nat) (location : Location) (body : List Char) :
    placed ⟨id, .block, String.ofList body, location⟩ level = reflow level (enclosed body) := by
  rw [placed, outputLines_block, intercalate_onLater, onLater_onLater]
  rfl

end Reflow

theorem outputLines_ne_nil (c : Comment) : c.outputLines ≠ [] := by
  unfold outputLines
  split
  · exact List.cons_ne_nil _ _
  · split
    · rename_i hsplit
      exact absurd hsplit (split_ne_nil _ _)
    · exact List.cons_ne_nil _ _
    · exact List.cons_ne_nil _ _

theorem commentText_eq_placed {o : Output} {level : Nat} (h : o.indent = level) (c : Comment) :
    o.commentText c = c.placed level ++ '\n' :: List.replicate level '\t' := by
  have hindent : o.indentation = List.replicate level '\t' := by simp [Output.indentation, h]
  rw [Output.commentText, hindent, flatMap_eq_intercalate _ c.outputLines_ne_nil]
  rfl

/-- A block comment that is put in its place has the lines of its text, the later ones with other
blanks in front. What is written is a block comment, and its place does not change it. -/
theorem block_comment_settles {body : List Char} (h : '\r' ∉ body) (id : Nat) (location : Location)
    (level : Nat) :
    let text := placed (ofText id location (String.ofList (enclosed body))) level
    flushLines text = flushLines (enclosed body) ∧
      ∀ (newId : Nat) (newLocation : Location),
        let again := ofText newId newLocation (String.ofList text)
        again.isBlock = true ∧ again.placed level = text ∧
          ∀ o : Output, o.indent = level →
            o.commentText again = text ++ '\n' :: List.replicate level '\t' := by
  intro text
  have htext : text = reflow level (enclosed body) := by
    rw [← placed_block level id location body, ← ofText_enclosed h]
  obtain ⟨inside, hinside⟩ := exists_reflow_enclosed level body
  have hcarriage : '\r' ∉ inside := by
    rw [← carriage_notMem_enclosed, ← hinside]
    exact notMem_reflow level (by decide) (by decide) (carriage_notMem_enclosed.mpr h)
  refine ⟨by rw [htext, flushLines_reflow], ?_⟩
  intro newId newLocation again
  have hagain : again = ⟨newId, .block, String.ofList inside, newLocation⟩ := by
    rw [← ofText_enclosed hcarriage, ← hinside, ← htext]
  have hplaced : again.placed level = text := by
    rw [hagain, placed_block, ← hinside, reflow_reflow, htext]
  refine ⟨by rw [hagain]; rfl, hplaced, fun o ho => ?_⟩
  rw [commentText_eq_placed ho, hplaced]

/-- A star gets its space behind the tab, and the blanks at the end of a line stay. -/
theorem block_comment_settles_stars :
    let body := "*\n      * a\n  b \n".toList
    let text := "/**\n\t * a\n\tb \n\t */".toList
    '\r' ∉ body ∧ placed (ofText 0 .unknown (String.ofList (enclosed body))) 1 = text ∧
      flushLines text = flushLines (enclosed body) ∧
      (ofText 1 .unknown (String.ofList text)).placed 1 = text := by
  intro body text
  have hbody : '\r' ∉ body := by decide
  have htext : placed (ofText 0 .unknown (String.ofList (enclosed body))) 1 = text := by decide
  obtain ⟨hlines, hagain⟩ := block_comment_settles hbody 0 .unknown 1
  rw [htext] at hlines hagain
  exact ⟨hbody, htext, hlines, (hagain 1 .unknown).2.1⟩

end Comment
end EcmaPhp
