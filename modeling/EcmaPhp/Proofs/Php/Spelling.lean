import EcmaPhp.Output.Boundary
import EcmaPhp.Proofs.Output.Text
import EcmaPhp.Proofs.Php.Expression
import Mathlib.Data.List.DropRight
import Mathlib.Data.List.Induction

/-! How the output spells lexemes: with blanks, line ends and comments between them. -/
namespace EcmaPhp
open Text

namespace Text

@[simp] theorem trimEnd_nil (p : Char → Bool) : trimEnd p [] = [] := rfl

theorem trimEnd_concat_of_neg {p : Char → Bool} {c : Char} (h : p c = false) (text : List Char) :
    trimEnd p (text ++ [c]) = text ++ [c] := by
  simp [trimEnd, h]

theorem trimEnd_concat_of_pos {p : Char → Bool} {c : Char} (h : p c = true) (text : List Char) :
    trimEnd p (text ++ [c]) = trimEnd p text := by
  simp [trimEnd, h]

@[simp] theorem trimEnd_trimEnd (p : Char → Bool) (text : List Char) :
    trimEnd p (trimEnd p text) = trimEnd p text := by
  simp [trimEnd, List.dropWhile_idempotent]

theorem trimEnd_eq_nil {p : Char → Bool} {text : List Char} (h : ∀ c ∈ text, p c = true) :
    trimEnd p text = [] := by
  simpa [trimEnd, List.dropWhile_eq_nil_iff] using h

/-- What follows a trimmed text is trimmed by itself. -/
theorem trimEnd_append_of_trimmed {p : Char → Bool} {front : List Char}
    (h : trimEnd p front = front) (back : List Char) :
    trimEnd p (front ++ back) = front ++ trimEnd p back := by
  rw [trimEnd_append]
  split
  · rename_i hback
    rw [h, hback, List.append_nil]
  · rfl

/-- A text that begins with a blank or a line end. -/
def StartsApart (text : List Char) : Prop :=
  ∃ c rest, text = c :: rest ∧ (isBlank c = true ∨ c = '\n')

theorem StartsApart.append {text : List Char} (h : StartsApart text) (more : List Char) :
    StartsApart (text ++ more) := by
  obtain ⟨c, rest, rfl, hc⟩ := h
  exact ⟨c, rest ++ more, rfl, hc⟩

theorem StartsApart.of_isPrefix {text start : List Char} (h : StartsApart text)
    (hstart : start <+: text) (hne : start ≠ []) : StartsApart start := by
  obtain ⟨c, rest, rfl, hc⟩ := h
  cases start with
  | nil => exact absurd rfl hne
  | cons d start =>
    obtain ⟨more, hmore⟩ := hstart
    rw [List.cons_append, List.cons.injEq] at hmore
    exact ⟨d, start, rfl, hmore.1 ▸ hc⟩

theorem startsApart_of_blanks {text : List Char} (h : ∀ c ∈ text, isBlank c = true)
    (hne : text ≠ []) : StartsApart text := by
  cases text with
  | nil => exact absurd rfl hne
  | cons c rest => exact ⟨c, rest, rfl, .inl (h c (by simp))⟩

theorem trimEnd_isPrefix (p : Char → Bool) (text : List Char) : trimEnd p text <+: text := by
  obtain ⟨cut, hcut, -⟩ := trimEnd_append_blanks (p := p) text
  exact ⟨cut, hcut.symm⟩

/-- A text that ends in something else than a blank. -/
def EndsWord (text : List Char) : Prop := ∃ front c, text = front ++ [c] ∧ isBlank c = false

theorem EndsWord.trimEnd_eq {text : List Char} (h : EndsWord text) :
    trimEnd isBlank text = text := by
  obtain ⟨front, c, rfl, hc⟩ := h
  exact trimEnd_concat_of_neg hc front

theorem EndsWord.ne_nil {text : List Char} (h : EndsWord text) : text ≠ [] := by
  obtain ⟨front, c, rfl, -⟩ := h
  simp

end Text

/-- Lines as they stand in the output: the first behind `lead`, the others behind `tabs`, and no
blanks at the end of any but the last. -/
def joinLines (tabs lead : List Char) : List (List Char) → List Char
  | [] => lead
  | [last] => lead ++ last
  | line :: rest => trimEnd isBlank (lead ++ line) ++ '\n' :: joinLines tabs tabs rest

/-- The lines of a comment, with the one that has to follow a line comment. -/
def Comment.closedLines (c : Comment) : List (List Char) :=
  c.outputLines ++ if c.isBlock then [] else [[]]

namespace Php

/-- A text spells lexemes. Blanks, line ends and comments may stand between them, and blanks or line
ends do stand on both sides of an operator. -/
inductive Spells (comments : List Comment) : List Char → List Lexeme → Prop where
  | nil : Spells comments [] []
  | blank {cs : List Char} {xs : List Lexeme} {c : Char} (h : Spells comments cs xs)
      (hc : isBlank c = true ∨ c = '\n') : Spells comments (cs ++ [c]) xs
  | comment {cs tabs lead : List Char} {xs : List Lexeme} {c : Comment} (h : Spells comments cs xs)
      (hc : c ∈ comments) (htabs : ∀ b ∈ tabs, isBlank b = true)
      (hlead : ∀ b ∈ lead, isBlank b = true) :
      Spells comments (cs ++ joinLines tabs lead c.closedLines) xs
  | word {cs : List Char} {xs : List Lexeme} {x : Lexeme} (h : Spells comments cs xs)
      (hx : EndsWord x.text) (hword : ∀ op, x ≠ .operator op) :
      Spells comments (cs ++ x.text) (xs ++ [x])
  | operator {cs ds : List Char} {xs ys : List Lexeme} {op : Operator} (h : Spells comments cs xs)
      (h' : Spells comments ds ys) (hds : StartsApart ds) (hys : ys ≠ []) :
      Spells comments (cs ++ ' ' :: op.symbol.toList ++ ds) (xs ++ .operator op :: ys)

end Php

namespace Comment

theorem outputLines_line {c : Comment} (h : c.isBlock = false) :
    c.outputLines = ['/' :: '/' :: c.value.toList] := by
  cases hkind : c.kind with
  | line => simp [outputLines, hkind]
  | block => simp [isBlock, hkind] at h

theorem closedLines_line {c : Comment} (h : c.isBlock = false) :
    c.closedLines = ['/' :: '/' :: c.value.toList, []] := by
  simp [closedLines, outputLines_line h, h]

theorem closedLines_block {c : Comment} (h : c.isBlock = true) : c.closedLines = c.outputLines := by
  rw [closedLines, if_pos h, List.append_nil]

theorem alignLine_concat (text : List Char) (c : Char) (h : text ≠ []) :
    ∃ front, alignLine (text ++ [c]) = front ++ [c] := by
  cases text with
  | nil => exact absurd rfl h
  | cons first rest =>
    by_cases hstar : first = '*'
    · exact ⟨' ' :: first :: rest, by simp [alignLine, hstar]⟩
    · exact ⟨first :: rest, by simp [alignLine, hstar]⟩

theorem blockRest_concat (line : List Char) (rest : List (List Char)) :
    ∃ init front, blockRest (line :: rest) = init ++ [front ++ ['/']] := by
  induction rest generalizing line with
  | nil =>
    obtain ⟨front, hfront⟩ := alignLine_concat (line.dropWhile isBlank ++ ['*']) '/' (by simp)
    exact ⟨[], front, by simpa [blockRest] using hfront⟩
  | cons next rest ih =>
    obtain ⟨init, front, hrest⟩ := ih next
    exact ⟨alignLine (line.dropWhile isBlank) :: init, front, by simp [blockRest, hrest]⟩

/-- The last line of a block comment closes it. -/
theorem outputLines_concat {c : Comment} (h : c.isBlock = true) :
    ∃ init front, c.outputLines = init ++ [front ++ ['/']] := by
  have hkind : c.kind = .block := by simpa [isBlock] using h
  rw [outputLines, hkind]
  cases hsplit : split '\n' c.value.toList with
  | nil => exact absurd hsplit (split_ne_nil _ _)
  | cons first rest =>
    cases rest with
    | nil => exact ⟨[], '/' :: '*' :: first ++ ['*'], by simp⟩
    | cons next rest =>
      obtain ⟨init, front, hrest⟩ := blockRest_concat next rest
      exact ⟨('/' :: '*' :: first) :: init, front, by simp [hrest]⟩

end Comment

theorem joinLines_concat (tabs lead : List Char) (init : List (List Char)) (front : List Char)
    (c : Char) : ∃ front', joinLines tabs lead (init ++ [front ++ [c]]) = front' ++ [c] := by
  induction init generalizing lead with
  | nil => exact ⟨lead ++ front, by simp [joinLines]⟩
  | cons line rest ih =>
    obtain ⟨front', hrest⟩ := ih tabs
    refine ⟨trimEnd isBlank (lead ++ line) ++ '\n' :: front', ?_⟩
    cases rest <;> simp_all [joinLines]

namespace Comment

theorem closedLines_cons (c : Comment) : ∃ rest more, c.closedLines = ('/' :: rest) :: more := by
  cases hblock : c.isBlock with
  | false => exact ⟨_, _, closedLines_line hblock⟩
  | true =>
    have hkind : c.kind = .block := by simpa [isBlock] using hblock
    rw [closedLines_block hblock, outputLines, hkind]
    cases hsplit : split '\n' c.value.toList with
    | nil => exact absurd hsplit (split_ne_nil _ _)
    | cons first rest => cases rest <;> exact ⟨_, _, rfl⟩

/-- The blanks before a comment stay. -/
theorem prefix_joinLines (c : Comment) (tabs lead : List Char) :
    lead <+: joinLines tabs lead c.closedLines := by
  obtain ⟨rest, more, hlines⟩ := c.closedLines_cons
  have hslash : trimEnd isBlank ('/' :: rest) ≠ [] := by
    have htrim :=
      trimEnd_append_of_trimmed (trimEnd_concat_of_neg (show isBlank '/' = false by decide) []) rest
    rw [List.nil_append, List.singleton_append] at htrim
    simp [htrim]
  rw [hlines]
  cases more with
  | nil => exact List.prefix_append _ _
  | cons next more =>
    rw [joinLines, trimEnd_append, if_neg hslash, List.append_assoc]
    · exact List.prefix_append _ _
    · simp

end Comment

namespace Output

theorem text_emitLines {o : Output} {kept lead : List Char} (lines : List (List Char))
    (hkept : trimEnd isBlank kept = kept) (htext : o.text = kept ++ lead) :
    (o.emitLines lines).text = kept ++ joinLines o.indentation lead lines := by
  induction lines generalizing o kept lead with
  | nil => simpa [emitLines, joinLines] using htext
  | cons line rest ih =>
    cases rest with
    | nil => simp [emitLines, joinLines, htext]
    | cons next rest =>
      have hline : (o.emitChars line).newline.text =
          (kept ++ trimEnd isBlank (lead ++ line) ++ ['\n']) ++ o.indentation := by
        rw [text_newline, text_emitChars, htext, List.append_assoc, trimEnd_append_of_trimmed hkept]
        simp
      have hrest := ih (trimEnd_concat_of_neg (by decide) _) hline
      simpa [emitLines, joinLines] using hrest

theorem text_closedLines {o : Output} {kept lead : List Char} (c : Comment)
    (hkept : trimEnd isBlank kept = kept) (htext : o.text = kept ++ lead) :
    ((if c.isBlock then o.emitLines c.outputLines
      else (o.emitLines c.outputLines).newline).markWritten c).text =
        kept ++ joinLines o.indentation lead c.closedLines := by
  change (if c.isBlock then o.emitLines c.outputLines
    else (o.emitLines c.outputLines).newline).text = _
  split
  · rename_i hblock
    rw [Comment.closedLines_block hblock]
    exact text_emitLines _ hkept htext
  · rename_i hline
    have hblock : c.isBlock = false := by simpa using hline
    simp only [Comment.closedLines_line hblock, Comment.outputLines_line hblock, emitLines,
      joinLines, text_newline, text_emitChars, htext, List.append_assoc,
      trimEnd_append_of_trimmed hkept, indentation_emitChars, List.append_nil]

end Output

namespace Php

variable {comments : List Comment} {cs ds : List Char} {xs ys : List Lexeme}

namespace Spells

theorem append (h : Spells comments cs xs) (h' : Spells comments ds ys) :
    Spells comments (cs ++ ds) (xs ++ ys) := by
  induction h' with
  | nil => simpa using h
  | blank _ hc ih => exact List.append_assoc .. ▸ ih.blank hc
  | comment _ hc htabs hlead ih => exact List.append_assoc .. ▸ ih.comment hc htabs hlead
  | word _ hx hword ih =>
    rw [← List.append_assoc, ← List.append_assoc]
    exact ih.word hx hword
  | operator _ h' hds hys ih _ =>
    rw [← List.append_assoc, ← List.append_assoc, ← List.append_assoc]
    exact ih.operator h' hds hys

theorem blanks (h : ∀ c ∈ cs, isBlank c = true ∨ c = '\n') : Spells comments cs [] := by
  induction cs using List.reverseRecOn with
  | nil => exact .nil
  | append_singleton cs c ih =>
    exact (ih fun d hd => h d (by simp [hd])).blank (h c (by simp))

/-- Lexemes are more than blanks. -/
theorem trimEnd_ne_nil (h : Spells comments cs xs) (hxs : xs ≠ []) : trimEnd isBlank cs ≠ [] := by
  have hfront {front back : List Char} (h : trimEnd isBlank front ≠ []) :
      trimEnd isBlank (front ++ back) ≠ [] := by
    rw [trimEnd_append]
    split
    · exact h
    · simp [*]
  induction h with
  | nil => exact absurd rfl hxs
  | blank _ _ ih => exact hfront (ih hxs)
  | comment _ _ _ _ ih => exact hfront (ih hxs)
  | word _ hx _ _ =>
    rw [trimEnd_append, hx.trimEnd_eq, if_neg hx.ne_nil]
    simp [hx.ne_nil]
  | operator _ _ _ hys _ ih =>
    rw [trimEnd_append, if_neg (ih hys)]
    simp

/-- Blanks at the end can go. -/
theorem trim (h : Spells comments cs xs) : Spells comments (trimEnd isBlank cs) xs := by
  induction h with
  | nil => exact .nil
  | @blank cs xs c h hc ih =>
    by_cases hblank : isBlank c = true
    · rw [trimEnd_concat_of_pos hblank]
      exact ih
    · rw [trimEnd_concat_of_neg (by simpa using hblank)]
      exact h.blank hc
  | @comment cs tabs lead xs c h hc htabs hlead ih =>
    cases hblock : c.isBlock with
    | true =>
      obtain ⟨init, front, hlines⟩ := Comment.outputLines_concat hblock
      obtain ⟨front', hfront⟩ := joinLines_concat tabs lead init front '/'
      rw [← hlines, ← Comment.closedLines_block hblock] at hfront
      rw [hfront, ← List.append_assoc, trimEnd_concat_of_neg (by decide), List.append_assoc,
        ← hfront]
      exact h.comment hc htabs hlead
    | false =>
      -- Only the indentation after the line end goes.
      have hline : trimEnd isBlank (cs ++ joinLines tabs lead c.closedLines) =
          cs ++ joinLines [] lead c.closedLines := by
        simp only [Comment.closedLines_line hblock, joinLines, List.append_nil]
        rw [List.append_cons, ← List.append_assoc, trimEnd_append_of_trimmed, trimEnd_eq_nil htabs,
          List.append_nil]
        rw [← List.append_assoc]
        exact trimEnd_concat_of_neg (by decide) _
      rw [hline]
      exact h.comment hc (by simp) hlead
  | word h hx hword ih =>
    rw [trimEnd_append, hx.trimEnd_eq, if_neg hx.ne_nil]
    exact h.word hx hword
  | operator h h' hds hys _ ih =>
    have hne := h'.trimEnd_ne_nil hys
    rw [trimEnd_append, if_neg hne]
    exact h.operator ih (hds.of_isPrefix (trimEnd_isPrefix _ _) hne) hys

theorem of_append_blanks {blanks : List Char} (h : Spells comments (cs ++ blanks) xs)
    (hblank : ∀ c ∈ blanks, isBlank c = true) : Spells comments cs xs := by
  have htrim := h.trim
  rw [trimEnd_append, if_pos (trimEnd_eq_nil hblank)] at htrim
  obtain ⟨cut, hcut, hblank'⟩ := trimEnd_append_blanks (p := isBlank) cs
  rw [hcut, ← List.append_nil xs]
  exact htrim.append (Spells.blanks fun c hc => .inl (hblank' c hc))

end Spells

/-- From one output to another lexemes are added. Blanks at the end of the first may go, but not
without another gap in their place. -/
def Adds (comments : List Comment) (o o' : Output) (xs : List Lexeme) : Prop :=
  ∃ cs, Spells comments cs xs ∧ o'.text = trimEnd isBlank o.text ++ cs ∧
    (trimEnd isBlank o.text = o.text ∨ StartsApart cs)

namespace Adds

variable {o o' o'' : Output}

theorem of_append (h : Spells comments cs xs) (htext : o'.text = o.text ++ cs) :
    Adds comments o o' xs := by
  obtain ⟨cut, hcut, hblank⟩ := trimEnd_append_blanks (p := isBlank) o.text
  refine ⟨cut ++ cs, ?_, by rw [htext, ← List.append_assoc, ← hcut], ?_⟩
  · exact (Spells.blanks fun c hc => .inl (hblank c hc)).append h
  · by_cases hne : cut = []
    · left
      rw [hne, List.append_nil] at hcut
      exact hcut.symm
    · right
      exact (startsApart_of_blanks hblank hne).append cs

theorem of_eq (htext : o'.text = o.text) : Adds comments o o' [] :=
  of_append .nil (by rw [htext, List.append_nil])

theorem refl (o : Output) : Adds comments o o [] := of_eq rfl

theorem trans (h : Adds comments o o' xs) (h' : Adds comments o' o'' ys) :
    Adds comments o o'' (xs ++ ys) := by
  obtain ⟨cs, hcs, htext, hgap⟩ := h
  obtain ⟨ds, hds, htext', hgap'⟩ := h'
  rw [htext, trimEnd_append_of_trimmed (trimEnd_trimEnd _ _)] at htext' hgap'
  refine ⟨trimEnd isBlank cs ++ ds, hcs.trim.append hds, by rw [htext', List.append_assoc], ?_⟩
  rcases hgap with htrimmed | hstart
  · exact .inl htrimmed
  · right
    by_cases hblank : trimEnd isBlank cs = []
    · -- All that was put in the place of the blanks is gone again.
      rcases hgap' with hkept | hstart'
      · rw [List.append_cancel_left_eq] at hkept
        rw [hkept]
        exact hstart.append ds
      · rw [hblank]
        exact hstart'
    · exact (hstart.of_isPrefix (trimEnd_isPrefix _ _) hblank).append ds

theorem word {x : Lexeme} (hx : EndsWord x.text) (hword : ∀ op, x ≠ .operator op)
    (htext : o'.text = o.text ++ x.text) : Adds comments o o' [x] :=
  of_append (Spells.nil.word hx hword) htext

theorem newline (o : Output) : Adds comments o o.newline [] := by
  refine ⟨'\n' :: o.indentation, Spells.blanks fun c hc => ?_, o.text_newline,
    .inr ⟨_, _, rfl, .inr rfl⟩⟩
  rcases List.mem_cons.mp hc with rfl | hc
  · exact .inr rfl
  · exact .inl (o.isBlank_of_mem_indentation hc)

theorem newlines (o : Output) (count : Nat) : Adds comments o (o.newlines count) [] := by
  induction count generalizing o with
  | zero => exact refl o
  | succ count ih => exact (newline o).trans (ih o.newline)

theorem syncTo (o : Output) (line : Int) : Adds comments o (o.syncTo line) [] := newlines o _

theorem increaseIndent (o : Output) : Adds comments o o.increaseIndent [] := by
  rw [Output.increaseIndent]
  split
  · have htab : Spells comments ['\t'] [] := Spells.blanks (by simp [isBlank])
    exact of_append htab (Output.text_emitChars _ _)
  · exact of_eq rfl

/-- A tab may go from the end once there are lexemes before it. -/
theorem decreaseIndent (h : Adds comments o o' xs) (hxs : xs ≠ []) :
    Adds comments o o'.decreaseIndent xs := by
  rw [Output.decreaseIndent]
  split
  · rename_i hends
    obtain ⟨cs, hcs, htext, hgap⟩ := h
    have hne := hcs.trimEnd_ne_nil hxs
    obtain ⟨front, hfront⟩ :=
      (List.isSuffixOf_iff_suffix.mp hends).trans (o'.chunks.lastChunks_suffix _)
    change front ++ ['\t'] = o'.text at hfront
    obtain ⟨kept, last, rfl⟩ : ∃ kept last, cs = kept ++ [last] :=
      (List.eq_nil_or_concat' cs).resolve_left fun hnil => hne (by rw [hnil, trimEnd_nil])
    rw [htext, ← List.append_assoc] at hfront
    obtain ⟨rfl, htab⟩ := List.append_inj' hfront rfl
    obtain rfl : '\t' = last := by simpa using htab
    have hdropped :
        ({ o' with indent := o'.indent - 1 }.dropTail 1).text = trimEnd isBlank o.text ++ kept := by
      rw [Output.text_dropTail]
      change o'.text.take (o'.text.length - 1) = _
      rw [← List.dropLast_eq_take, htext, ← List.append_assoc, List.dropLast_concat]
    rw [trimEnd_concat_of_pos rfl] at hne
    refine ⟨kept, hcs.of_append_blanks (by simp [isBlank]), hdropped,
      hgap.imp_right fun hstart => ?_⟩
    refine hstart.of_isPrefix (List.prefix_append _ _) ?_
    rintro rfl
    exact hne rfl
  · exact h

theorem emitComment (o : Output) {c : Comment} (hc : c ∈ comments) :
    Adds comments o (o.emitComment c) [] := by
  rw [Output.emitComment]
  split
  · exact refl o
  · have hsynced : Adds comments o
        (if c.location.isUnknown then o else o.syncTo c.location.first.line) [] := by
      split
      · exact refl o
      · exact syncTo o _
    refine List.nil_append [] ▸ hsynced.trans ?_
    generalize (if c.location.isUnknown then o else o.syncTo c.location.first.line) = synced
    -- The comment stands behind the blanks at the end and, at times, one more.
    obtain ⟨cut, hcut, hblank⟩ := trimEnd_append_blanks (p := isBlank) synced.text
    obtain ⟨lead, hlead, hcutLead, htext⟩ : ∃ lead, (∀ b ∈ lead, isBlank b = true) ∧ cut <+: lead ∧
        (if synced.needsSpace then synced.emit " " else synced).text =
          trimEnd isBlank synced.text ++ lead := by
      split
      · refine ⟨cut ++ [' '], ?_, List.prefix_append _ _, ?_⟩
        · simpa [or_imp, forall_and, isBlank] using hblank
        · rw [Output.text_emit, ← List.append_assoc, ← hcut]
          rfl
      · exact ⟨cut, hblank, List.prefix_refl _, hcut⟩
    dsimp only
    generalize (if synced.needsSpace then synced.emit " " else synced) = spaced at htext ⊢
    refine ⟨_, Spells.nil.comment hc (fun b => spaced.isBlank_of_mem_indentation) hlead,
      Output.text_closedLines c (trimEnd_trimEnd _ _) htext, ?_⟩
    by_cases hne : cut = []
    · left
      rw [hne, List.append_nil] at hcut
      exact hcut.symm
    · right
      have hstart := startsApart_of_blanks hblank hne
      obtain ⟨more, hmore⟩ := hcutLead.trans (c.prefix_joinLines spaced.indentation lead)
      rw [List.nil_append, ← hmore]
      exact hstart.append more

theorem emitComments (o : Output) {cs : List Comment} (hcs : cs ⊆ comments) :
    Adds comments o (o.emitComments cs) [] := by
  induction cs generalizing o with
  | nil => exact refl o
  | cons c rest ih =>
    exact (emitComment o (hcs (by simp))).trans
      (ih (o.emitComment c) fun d hd => hcs (by simp [hd]))

theorem skipLines (o : Output) (first last : Int) :
    Adds comments o (o.skipLines first last) [] := by
  rw [Output.skipLines]
  split
  · exact of_eq rfl
  · exact refl o

theorem beginNode (o : Output) (wrapped : Bool) {n : Node} (hlocated : n.isSynthetic = false)
    (hkind : n.kind ≠ .program) (hcomments : n.leading ⊆ comments) :
    Adds comments o (o.beginNode wrapped n) (if wrapped then [.opening] else []) := by
  rw [Output.beginNode, if_neg (by simp [hlocated, hkind])]
  have hopened {before : Output} (h : Adds comments o before []) :
      Adds comments o (if wrapped then (before.syncTo n.location.first.line).emit "("
        else before.syncTo n.location.first.line) (if wrapped then [.opening] else []) := by
    have hsynced := h.trans (syncTo before n.location.first.line)
    cases wrapped with
    | false => exact hsynced
    | true => exact hsynced.trans (word ⟨[], _, rfl, rfl⟩ (by simp) (Output.text_emit _ _))
  have hleading := emitComments o hcomments
  cases n.skipped with
  | none => exact hopened hleading
  | some lines => exact hopened (hleading.trans (skipLines _ lines.1 lines.2))

theorem endNode (o : Output) (wrapped : Bool) {n : Node} (hlocated : n.isSynthetic = false)
    (hinner : n.inner ⊆ comments) (htrailing : n.trailing ⊆ comments) :
    Adds comments o (o.endNode wrapped n) (if wrapped then [.closing] else []) := by
  rw [Output.endNode, if_neg (by simp [hlocated])]
  have hclosed (o : Output) : Adds comments o (if wrapped then o.emit ")" else o)
      (if wrapped then [.closing] else []) := by
    cases wrapped with
    | false => exact refl o
    | true => exact word ⟨[], _, rfl, rfl⟩ (by simp) (Output.text_emit _ _)
  have hsynced := ((emitComments o hinner).trans (hclosed _)).trans (syncTo _ n.location.last.line)
  simpa using hsynced.trans (emitComments _ htrailing)

/-- An operator between spaces, with what is written before and after it. -/
theorem operator {before after o : Output} {op : Operator} (h : Adds comments o before xs)
    (htext : after.text = before.text ++ ' ' :: op.symbol.toList ++ [' '])
    (h' : Adds comments after o' ys) (hys : ys ≠ []) :
    Adds comments o o' (xs ++ .operator op :: ys) := by
  obtain ⟨cs, hcs, hbefore, hgap⟩ := h
  obtain ⟨ds, hds, hafter, hgap'⟩ := h'
  have hsymbol : trimEnd isBlank (' ' :: op.symbol.toList) = ' ' :: op.symbol.toList := by
    cases op with
    | join => rfl
    | same op => cases op <;> rfl
  have htrim : trimEnd isBlank after.text = before.text ++ ' ' :: op.symbol.toList := by
    rw [htext, trimEnd_concat_of_pos rfl, trimEnd_append, hsymbol, if_neg (by simp)]
  have hstart : StartsApart ds := by
    refine hgap'.resolve_left fun htrimmed => ?_
    rw [htrim, htext] at htrimmed
    simp at htrimmed
  refine ⟨cs ++ ' ' :: op.symbol.toList ++ ds, hcs.operator hds hstart hys, ?_, ?_⟩
  · rw [hafter, htrim, hbefore]
    simp
  · exact hgap.imp_right fun h => List.append_assoc .. ▸ h.append _

end Adds
end Php
end EcmaPhp
