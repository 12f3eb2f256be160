import EcmaPhp.Proofs.CommentReflow
import EcmaPhp.Proofs.Output.Window
import EcmaPhp.Proofs.Php.Comment
import EcmaPhp.Proofs.Php.Spelling

/-! Comments as PHP reads them. Lines of a comment are split, trimmed and indented anew on the way,
but a block comment is closed by its own end only; a line comment may have a closing tag in it,
which PHP does not pass over. -/
namespace EcmaPhp
open Text

namespace Text

theorem infix_of_mem_split {text line : List Char} (h : line ∈ split '\n' text) :
    line <:+: text := by
  obtain ⟨before, after, hlines⟩ := List.append_of_mem h
  rw [← intercalate_split text, hlines]
  cases before with
  | nil => exact ⟨[], _, by rw [List.nil_append, List.nil_append, intercalate_cons]⟩
  | cons first rest =>
    refine ⟨first ++ rest.flatMap (['\n'] ++ ·) ++ ['\n'], after.flatMap (['\n'] ++ ·), ?_⟩
    simp [intercalate_cons]

/-- A line end and blanks keep two lines apart. -/
theorem avoids_append_line {line gap rest : List Char} (hline : Avoids '*' '/' line)
    (hgap : '*' ∉ gap) (hrest : Avoids '*' '/' rest) :
    Avoids '*' '/' (line ++ '\n' :: (gap ++ rest)) := by
  rw [avoids_append, avoids_cons_of_ne (by decide), avoids_append_of_notMem hgap]
  refine ⟨hline, hrest, ?_⟩
  rintro x - y hy ⟨-, rfl⟩
  simp at hy

end Text

/-- Only what comes behind a text that does not end in blanks is trimmed. -/
theorem joinLines_append {lead front : List Char}
    (h : trimEnd isBlank (lead ++ front) = lead ++ front) (tabs line : List Char)
    (rest : List (List Char)) :
    joinLines tabs lead ((front ++ line) :: rest) =
      lead ++ (front ++ joinLines tabs [] (line :: rest)) := by
  cases rest with
  | nil => rfl
  | cons next rest => simp [joinLines, ← List.append_assoc, trimEnd_append_of_trimmed h]

namespace Comment

/-- How a comment begins that reaches to the end of its line. -/
def lineOpenings : List (List Char) := ["//".toList, "<!--".toList, "-->".toList]

/-- The text of a comment in the source. The end of its line may leave carriage returns behind. -/
inductive IsSource : List Char → Prop where
  | line {opening body : List Char} (hopening : opening ∈ lineOpenings)
      (hbody : ∀ c ∈ body, c ≠ '\n' ∧ c ≠ '\r') (returns : Nat) :
      IsSource (opening ++ body ++ List.replicate returns '\r')
  | block {body : List Char} (hbody : ¬ ['*', '/'] <:+: body) : IsSource (enclosed body)

theorem mem_lineOpenings {opening : List Char} : opening ∈ lineOpenings ↔
    opening = ['/', '/'] ∨ opening = ['<', '!', '-', '-'] ∨ opening = ['-', '-', '>'] := by
  simp [lineOpenings]

theorem joinLineEnds_of_newline_notMem {text : List Char} (h : '\n' ∉ text) :
    joinLineEnds text = text := by
  induction text with
  | nil => rfl
  | cons c rest ih =>
    obtain ⟨-, hrest⟩ : '\n' ≠ c ∧ '\n' ∉ rest := by simpa using h
    rw [joinLineEnds, ih hrest]
    rintro more - rfl
    simp at hrest

theorem trimEnd_append_returns {text : List Char} (h : '\r' ∉ text) (returns : Nat) :
    trimEnd (· = '\r') (text ++ List.replicate returns '\r') = text := by
  have hnone : trimEnd (· = '\r') (List.replicate returns '\r') = [] := by simp [trimEnd]
  obtain ⟨cut, htext, hcut⟩ := trimEnd_append_blanks (p := (· = '\r')) text
  have hnil : cut = [] := by
    rw [List.eq_nil_iff_forall_not_mem]
    intro c hc
    obtain rfl : c = '\r' := by simpa using hcut c hc
    exact h (by rw [htext]; simp [hc])
  rw [trimEnd_append, if_pos hnone]
  simpa [hnil] using htext.symm

/-- A comment that reaches to the end of its line is read as a line comment, with a closing tag in
it if there was one. -/
theorem exists_ofText_line {opening body : List Char} (hopening : opening ∈ lineOpenings)
    (hbody : ∀ c ∈ body, c ≠ '\n' ∧ c ≠ '\r') (returns id : Nat) (location : Location) :
    let text := opening ++ body ++ List.replicate returns '\r'
    ∃ value, ofText id location (String.ofList text) = ⟨id, .line, String.ofList value, location⟩ ∧
      (∀ c ∈ value, c ≠ '\n' ∧ c ≠ '\r') ∧ (Avoids '?' '>' value ↔ Avoids '?' '>' text) := by
  intro text
  have hopens : ∀ c ∈ opening, c ≠ '\n' ∧ c ≠ '\r' ∧ c ≠ '?' := by
    rcases mem_lineOpenings.mp hopening with rfl | rfl | rfl <;> simp
  have hfront : ∀ c ∈ opening ++ body, c ≠ '\n' ∧ c ≠ '\r' :=
    List.forall_mem_append.mpr ⟨fun c hc => ⟨(hopens c hc).1, (hopens c hc).2.1⟩, hbody⟩
  have hjoin : joinLineEnds text = text := by
    apply joinLineEnds_of_newline_notMem
    intro hmem
    rcases List.mem_append.mp hmem with hmem | hmem
    · exact (hfront _ hmem).1 rfl
    · exact absurd (List.eq_of_mem_replicate hmem) (by decide)
  have hpair : Avoids '?' '>' text ↔ Avoids '?' '>' body := by
    rw [avoids_append_of_notMem_right, avoids_append_of_notMem]
    · exact fun hmem => (hopens _ hmem).2.2 rfl
    · exact fun hmem => absurd (List.eq_of_mem_replicate hmem) (by decide)
  have htrim : trimEnd (· = '\r') text = opening ++ body :=
    trimEnd_append_returns (fun hmem => (hfront _ hmem).2 rfl) returns
  rcases mem_lineOpenings.mp hopening with rfl | hopening
  · refine ⟨body, ?_, hbody, hpair.symm⟩
    have hrest : trimEnd (· = '\r') (body ++ List.replicate returns '\r') = body :=
      trimEnd_append_returns (fun hmem => (hbody _ hmem).2 rfl) returns
    rw [ofText, String.toList_ofList, hjoin]
    change (⟨id, .line, String.ofList (trimEnd (· = '\r') (body ++ _)), location⟩ : Comment) = _
    rw [hrest]
  · refine ⟨' ' :: (opening ++ body), ?_, List.forall_mem_cons.mpr ⟨by decide, hfront⟩, ?_⟩
    · rw [ofText, String.toList_ofList, hjoin, ← htrim]
      rcases hopening with rfl | rfl <;> rfl
    · rw [hpair, avoids_cons_of_ne (by decide), avoids_append_of_notMem]
      exact fun hmem => (hopens _ hmem).2.2 rfl

/-- Joining line ends brings no characters together that were apart. -/
theorem avoids_joinLineEnds {text : List Char} (h : Avoids '*' '/' text) :
    Avoids '*' '/' (joinLineEnds text) := by
  have hhead {rest : List Char} (hrest : (joinLineEnds rest).head? = some '/') :
      rest.head? = some '/' := by
    unfold joinLineEnds at hrest
    split at hrest
    · simp at hrest
    · simpa using hrest
    · simp at hrest
  fun_induction joinLineEnds text with
  | case1 rest ih =>
    rw [avoids_cons_of_ne (by decide)]
    rw [avoids_cons_of_ne (by decide), avoids_cons_of_ne (by decide)] at h
    exact ih h
  | case2 c rest hreturn ih =>
    rw [avoids_cons] at h ⊢
    refine ⟨?_, ih h.2⟩
    rintro y hy ⟨hc, rfl⟩
    exact h.1 '/' (hhead hy) ⟨hc, rfl⟩
  | case3 => exact h

theorem joinLineEnds_append {front back : List Char} {c : Char} (hc : c ≠ '\n') :
    joinLineEnds (front ++ c :: back) = joinLineEnds front ++ joinLineEnds (c :: back) := by
  fun_induction joinLineEnds front with
  | case1 rest ih => rw [List.cons_append, List.cons_append, joinLineEnds, ih, List.cons_append]
  | case2 d rest hreturn ih =>
    rw [List.cons_append, joinLineEnds, ih, List.cons_append]
    intro more hd hmore
    cases rest with
    | nil => exact hc (List.cons.inj hmore).1
    | cons e rest =>
      obtain ⟨rfl, -⟩ := List.cons.inj hmore
      exact hreturn rest hd rfl
  | case3 => rfl

theorem ofText_block (body : List Char) (id : Nat) (location : Location) :
    ofText id location (String.ofList (enclosed body)) =
      ⟨id, .block, String.ofList (joinLineEnds body), location⟩ := by
  apply ofText_of_joinLineEnds
  rw [enclosed, joinLineEnds_append (by decide)]
  simp [joinLineEnds, enclosed]

section Block

variable {body : List Char}

/-- A later line in its place is the old one behind other blanks. -/
theorem exists_flushLine_eq (line : List Char) : ∃ blanks, '*' ∉ blanks ∧
    flushLine line = blanks ++ line.dropWhile isBlank := by
  obtain ⟨blanks, hblanks, heq⟩ := exists_placeLine_eq 0 line
  refine ⟨blanks, fun hmem => absurd (hblanks _ hmem) (by decide), ?_⟩
  rwa [placeLine, List.replicate_zero, List.nil_append] at heq

/-- The lines of a block comment open it first and close it last, and nowhere between. -/
theorem exists_outputLines_eq (h : Avoids '*' '/' body) (id : Nat) (location : Location) :
    ∃ first rest init last,
      outputLines ⟨id, .block, String.ofList body, location⟩ = ('/' :: '*' :: first) :: rest ∧
        first :: rest = init ++ [last ++ ['*', '/']] ∧
        ∀ line ∈ init ++ [last], Avoids '*' '/' line := by
  rw [outputLines_block]
  rcases split_enclosed_cases body with ⟨-, htext⟩ | ⟨first, init, last, hbody, htext⟩
  · exact ⟨body ++ ['*', '/'], [], [], body, by rw [htext]; rfl, rfl, by simpa using h⟩
  · have hold : ∀ line ∈ first :: (init ++ [last]), Avoids '*' '/' line :=
      fun line hline => h.mono (infix_of_mem_split (hbody ▸ hline))
    have hflush {blanks line : List Char} (hblanks : '*' ∉ blanks)
        (hline : line ∈ first :: (init ++ [last])) :
        Avoids '*' '/' (blanks ++ line.dropWhile isBlank) :=
      (avoids_append_of_notMem hblanks).mpr
        ((hold line hline).mono (List.dropWhile_suffix _).isInfix)
    obtain ⟨blanks, hblanks, hlast⟩ := exists_flushLine_eq (last ++ ['*', '/'])
    rw [dropWhile_append_closing, ← List.append_assoc] at hlast
    refine ⟨first, init.map flushLine ++ [flushLine (last ++ ['*', '/'])],
      first :: init.map flushLine, blanks ++ last.dropWhile isBlank, ?_, by rw [hlast]; rfl, ?_⟩
    · rw [htext, onLater, List.map_append, List.map_singleton]
    · intro line hline
      rw [List.cons_append, List.mem_cons, List.mem_append, List.mem_map,
        List.mem_singleton] at hline
      rcases hline with rfl | ⟨old, hmem, rfl⟩ | rfl
      · exact hold line List.mem_cons_self
      · obtain ⟨blanks, hblanks, heq⟩ := exists_flushLine_eq old
        rw [heq]
        exact hflush hblanks (by simp [hmem])
      · exact hflush hblanks (by simp)

theorem avoids_trimEnd {line : List Char} (h : Avoids '*' '/' line) :
    Avoids '*' '/' (trimEnd isBlank line) :=
  h.mono (trimEnd_isPrefix isBlank line).isInfix

variable {tabs last : List Char} {init : List (List Char)} (htabs : '*' ∉ tabs)
  (h : ∀ line ∈ init ++ [last], Avoids '*' '/' line)
include htabs h

/-- Trimmed and indented, such lines are still closed at their end only. -/
theorem exists_joinLines_eq {lead : List Char} (hlead : '*' ∉ lead) :
    ∃ inside, Avoids '*' '/' inside ∧
      joinLines tabs lead (init ++ [last ++ ['*', '/']]) = inside ++ ['*', '/'] := by
  induction init generalizing lead with
  | nil =>
    have hlast : Avoids '*' '/' last := h last (by simp)
    exact ⟨lead ++ last, (avoids_append_of_notMem hlead).mpr hlast, by simp [joinLines]⟩
  | cons line rest ih =>
    rw [List.cons_append, List.forall_mem_cons] at h
    obtain ⟨inside, hinside, heq⟩ := ih h.2 htabs
    have hline := avoids_trimEnd ((avoids_append_of_notMem hlead).mpr h.1)
    refine ⟨trimEnd isBlank (lead ++ line) ++ '\n' :: inside,
      avoids_append_line hline List.not_mem_nil hinside, ?_⟩
    rw [List.cons_append, joinLines, heq]
    · simp
    · simp

/-- With a line end and an indentation after each, they are too. -/
theorem exists_flatMap_eq :
    ∃ inside, Avoids '*' '/' inside ∧
      (init ++ [last ++ ['*', '/']]).flatMap (fun line => line ++ '\n' :: tabs) =
        inside ++ '*' :: '/' :: '\n' :: tabs := by
  induction init with
  | nil => exact ⟨last, h last (by simp), by simp⟩
  | cons line rest ih =>
    rw [List.cons_append, List.forall_mem_cons] at h
    obtain ⟨inside, hinside, heq⟩ := ih h.2
    refine ⟨line ++ '\n' :: (tabs ++ inside), avoids_append_line h.1 htabs hinside, ?_⟩
    rw [List.cons_append, List.flatMap_cons, heq]
    simp

end Block

end Comment

namespace Output

/-- A comment is written behind its place, its lines as they stand in the output. -/
theorem text_emitComment {o : Output} {c : Comment} (h : o.isWritten c = false) :
    (o.emitComment c).text = (o.commentStart c).text ++
      joinLines (o.commentStart c).indentation [] c.closedLines := by
  obtain ⟨lead, hstart, -⟩ := trimEnd_append_blanks (p := isBlank) (o.commentStart c).text
  obtain ⟨line, rest, hlines⟩ := c.closedLines_cons
  -- The slash that every comment begins with keeps the blanks before it.
  have hlead : joinLines (o.commentStart c).indentation lead c.closedLines =
      lead ++ joinLines (o.commentStart c).indentation [] c.closedLines := by
    have hslash (blanks : List Char) : trimEnd isBlank (blanks ++ ['/']) = blanks ++ ['/'] :=
      trimEnd_concat_of_neg (by decide) blanks
    have hplain := joinLines_append (hslash []) (o.commentStart c).indentation line rest
    rw [hlines]
    exact (joinLines_append (hslash lead) _ line rest).trans (congrArg (lead ++ ·) hplain.symm)
  have htext := text_closedLines c (trimEnd_trimEnd isBlank _) hstart
  rw [hlead, ← List.append_assoc, ← hstart] at htext
  rw [emitComment, h]
  exact htext

theorem getLast?_of_not_needsSpace {o : Output} (h : o.needsSpace = false) :
    ∀ x ∈ o.text.getLast?, x ∈ " \t\n([".toList := by
  intro x hx
  obtain ⟨front, hfront⟩ := List.getLast?_eq_some_iff.mp hx
  have hwindow : [x] <:+ o.chunks.lastChunks 1 :=
    (suffix_lastChunks_iff (Nat.le_refl 1)).mpr ⟨front, hfront.symm⟩
  obtain ⟨start, hstart⟩ := hwindow
  have htext : o.text ≠ [] := by simp [hfront]
  rw [needsSpace, isEmpty_chunks htext, ← hstart, List.getLast?_concat] at h
  simpa only [Bool.not_false, Bool.true_and, Bool.not_eq_false', List.contains_iff_mem] using h

/-- A comment starts behind white space or an opening bracket, or it comes first. -/
theorem getLast?_commentStart (o : Output) (c : Comment) :
    ∀ x ∈ (o.commentStart c).text.getLast?, x ∈ " \t\n([".toList := by
  rw [commentStart]
  generalize (if c.location.isUnknown then o else o.syncTo c.location.first.line) = synced
  by_cases hspace : synced.needsSpace = true
  · rw [if_pos hspace, text_emit]
    simp
  · rw [if_neg hspace]
    exact getLast?_of_not_needsSpace (Bool.eq_false_iff.mpr hspace)

/-- On the way to the place of a comment only blanks go, and only blanks and line ends come. -/
theorem exists_commentStart_eq (o : Output) (c : Comment) :
    ∃ kept cut spaces, o.text = kept ++ cut ∧ (∀ x ∈ cut, isBlank x = true) ∧
      (o.commentStart c).text = kept ++ spaces ∧ ∀ x ∈ spaces, isBlank x = true ∨ x = '\n' := by
  obtain ⟨kept, cut, spaces, hrep, hcut, hspaces⟩ := (writes_commentStart o c).tail
  refine ⟨kept, cut, spaces, hrep.before, ?_, hrep.after, ?_⟩
  · intro x hx
    by_contra hblank
    have hmem : x ∈ solid cut := mem_solid.mpr ⟨hx, Bool.eq_false_iff.mpr hblank⟩
    rw [hcut] at hmem
    cases hmem
  · intro x hx
    refine or_iff_not_imp_left.mpr fun hblank => ?_
    have hmem : x ∈ solid spaces := mem_solid.mpr ⟨hx, Bool.eq_false_iff.mpr hblank⟩
    rw [hspaces, mem_solid] at hmem
    have htext := hmem.1
    split at htext
    · cases htext
    · exact List.eq_of_mem_replicate htext

end Output

/-- A text goes on with an addition that stands apart from what is before it. Blanks at its end may
go. -/
def AddsApart (before after added : List Char) : Prop :=
  ∃ kept cut, before = kept ++ cut ∧ (∀ c ∈ cut, isBlank c = true) ∧ after = kept ++ added ∧
    ((∀ c ∈ kept.getLast?, c ∈ " \t\n([".toList) ∨ StartsApart added)

namespace Comment

variable {value body : List Char} {location : Location} {id : Nat} {o : Output} {c : Comment}

/-- What is written for a comment stands apart: white space, and its lines. -/
theorem exists_addsApart (h : o.isWritten c = false) :
    ∃ spaces, (∀ x ∈ spaces, Php.isSpace x = true) ∧
      AddsApart o.text (o.emitComment c).text
        (spaces ++ joinLines (o.commentStart c).indentation [] c.closedLines) := by
  obtain ⟨kept, cut, spaces, hbefore, hcut, hstart, hspaces⟩ := o.exists_commentStart_eq c
  have hafter := Output.text_emitComment h
  rw [hstart, List.append_assoc] at hafter
  refine ⟨spaces, ?_, kept, cut, hbefore, hcut, hafter, ?_⟩
  · intro x hx
    rcases hspaces x hx with hblank | rfl
    · simp [Php.isSpace, hblank]
    · rfl
  · cases spaces with
    | nil =>
      have hlast := o.getLast?_commentStart c
      rw [hstart, List.append_nil] at hlast
      exact .inl hlast
    | cons x spaces => exact .inr ⟨x, _, rfl, hspaces x List.mem_cons_self⟩

theorem commentText_line (o : Output) :
    o.commentText ⟨id, .line, String.ofList value, location⟩ =
      '/' :: '/' :: value ++ '\n' :: o.indentation := by
  simp [Output.commentText, outputLines]

theorem joinLines_line (tabs : List Char) :
    joinLines tabs [] (closedLines ⟨id, .line, String.ofList value, location⟩) =
      '/' :: '/' :: trimEnd isBlank value ++ '\n' :: tabs := by
  have hslashes : trimEnd isBlank ([] ++ ['/', '/']) = ['/', '/'] := by decide
  have hline := joinLines_append hslashes tabs value [[]]
  rw [closedLines_line rfl, String.toList_ofList]
  simpa [joinLines] using hline

/-- Blanks at the end of a line comment do not matter. -/
theorem avoids_trimEnd_iff : Avoids '?' '>' (trimEnd isBlank value) ↔ Avoids '?' '>' value := by
  obtain ⟨cut, hvalue, hcut⟩ := trimEnd_append_blanks (p := isBlank) value
  conv_rhs => rw [hvalue]
  rw [avoids_append_of_notMem_right]
  exact fun hmem => absurd (hcut _ hmem) (by decide)

theorem exists_added_line (hc : c = ⟨id, .line, String.ofList value, location⟩)
    (hends : ∀ x ∈ value, x ≠ '\n' ∧ x ≠ '\r') (h : o.isWritten c = false) :
    ∃ added, AddsApart o.text (o.emitComment c).text added ∧
      (Php.ReadsAsComment added ↔ Avoids '?' '>' value) := by
  obtain ⟨spaces, hspaces, hadds⟩ := exists_addsApart h
  have htrimmed : ∀ x ∈ trimEnd isBlank value, x ≠ '\n' ∧ x ≠ '\r' :=
    fun x hx => hends x ((trimEnd_isPrefix isBlank value).subset hx)
  refine ⟨_, hadds, ?_⟩
  rw [show closedLines c = closedLines _ from congrArg _ hc, joinLines_line,
    Php.readsAsComment_line_iff hspaces htrimmed
      (fun x hx => Output.isBlank_of_mem_indentation _ hx), avoids_trimEnd_iff]

theorem star_notMem_indentation (o : Output) : '*' ∉ o.indentation :=
  fun hmem => absurd (o.isBlank_of_mem_indentation hmem) (by decide)

theorem exists_added_block (hc : c = ⟨id, .block, String.ofList body, location⟩)
    (hbody : Avoids '*' '/' body) (h : o.isWritten c = false) :
    ∃ added, AddsApart o.text (o.emitComment c).text added ∧ Php.ReadsAsComment added := by
  have hkind : c.isBlock = true := by rw [hc]; rfl
  obtain ⟨spaces, hspaces, hadds⟩ := exists_addsApart h
  obtain ⟨first, rest, init, last, hlines, hclosed, hold⟩ := exists_outputLines_eq hbody id location
  obtain ⟨inside, hinside, heq⟩ := exists_joinLines_eq
    (star_notMem_indentation (o.commentStart c)) hold List.not_mem_nil
  have hopened : trimEnd isBlank ([] ++ ['/', '*']) = ['/', '*'] := by decide
  have hwritten := joinLines_append hopened (o.commentStart c).indentation first rest
  rw [hclosed, heq] at hwritten
  refine ⟨_, hadds, ?_⟩
  rw [closedLines_block hkind, show outputLines c = _ from hc ▸ hlines]
  exact hwritten ▸ Php.readsAsComment_block hspaces hinside (.inl rfl)

theorem readsAsComment_commentText_block (hbody : Avoids '*' '/' body) (o : Output) :
    Php.ReadsAsComment (o.commentText ⟨id, .block, String.ofList body, location⟩) := by
  obtain ⟨first, rest, init, last, hlines, hclosed, hold⟩ := exists_outputLines_eq hbody id location
  obtain ⟨inside, hinside, heq⟩ := exists_flatMap_eq (star_notMem_indentation o) hold
  rw [← hclosed, List.flatMap_cons] at heq
  have hread := Php.readsAsComment_block (List.forall_mem_nil _) hinside
    (.inr ⟨o.indentation, rfl, fun x hx => o.isBlank_of_mem_indentation hx⟩)
  rw [List.nil_append, List.cons_append, List.cons_append, ← heq] at hread
  rw [Output.commentText, hlines, List.flatMap_cons]
  exact hread

/-- A comment of the source is read as one comment where it is written, and in its text, unless it
reaches to the end of its line and has a closing tag in it. -/
theorem comment_stays_comment_iff {text : List Char} (h : IsSource text) (id : Nat)
    (location : Location) (o : Output) :
    let c := ofText id location (String.ofList text)
    let stays := ['/', '*'] <+: text ∨ ¬ ['?', '>'] <:+: text
    (Php.ReadsAsComment (o.commentText c) ↔ stays) ∧
      (o.isWritten c = false →
        ∃ added, AddsApart o.text (o.emitComment c).text added ∧
          (Php.ReadsAsComment added ↔ stays)) := by
  intro c stays
  cases h with
  | @line opening body hopening hbody returns =>
    obtain ⟨value, hc, hends, hpair⟩ := exists_ofText_line hopening hbody returns id location
    have hstays : stays ↔ Avoids '?' '>' value := by
      rw [hpair, avoids_iff]
      refine or_iff_right ?_
      rcases mem_lineOpenings.mp hopening with rfl | rfl | rfl <;> simp
    rw [hstays]
    refine ⟨?_, exists_added_line hc hends⟩
    have hread := Php.readsAsComment_line_iff (List.forall_mem_nil _) hends
      (fun x hx => o.isBlank_of_mem_indentation hx)
    rwa [List.nil_append, ← commentText_line o, ← hc] at hread
  | @block body hbody =>
    have hc : c = _ := ofText_block body id location
    have hinner := avoids_joinLineEnds (avoids_iff.mpr hbody)
    have hstays : stays := .inl ⟨body ++ ['*', '/'], rfl⟩
    simp only [hstays, iff_true]
    refine ⟨?_, exists_added_block hc hinner⟩
    rw [hc]
    exact readsAsComment_commentText_block hinner o

/-- With a closing tag in it, a line comment ends early and a block comment does not. -/
theorem comment_stays_comment_iff_tagged :
    let o := Output.emit {} "$x;"
    let read (text : String) := ofText 0 .unknown (String.ofList text.toList)
    let line := read "// a ?> b"
    let block := read "/* a ?>\n\t* b */"
    (o.isWritten line = false ∧ ¬ Php.ReadsAsComment (o.commentText line) ∧
      ∃ added, AddsApart o.text (o.emitComment line).text added ∧ ¬ Php.ReadsAsComment added) ∧
    (o.isWritten block = false ∧ Php.ReadsAsComment (o.commentText block) ∧
      ∃ added, AddsApart o.text (o.emitComment block).text added ∧ Php.ReadsAsComment added) := by
  intro o read line block
  have hline : IsSource "// a ?> b".toList :=
    show IsSource ("//".toList ++ " a ?> b".toList ++ List.replicate 0 '\r') from
      .line (by decide) (by simp) 0
  have hblock : IsSource "/* a ?>\n\t* b */".toList :=
    show IsSource (enclosed " a ?>\n\t* b ".toList) from .block (by decide)
  have hleaves : ¬ (['/', '*'] <+: "// a ?> b".toList ∨ ¬ ['?', '>'] <:+: "// a ?> b".toList) := by
    decide
  have hstays : ['/', '*'] <+: "/* a ?>\n\t* b */".toList ∨
      ¬ ['?', '>'] <:+: "/* a ?>\n\t* b */".toList := by
    decide
  obtain ⟨hleft, hwrote⟩ := comment_stays_comment_iff hline 0 .unknown o
  obtain ⟨hread, hkept⟩ := comment_stays_comment_iff hblock 0 .unknown o
  obtain ⟨added, hadds, hadded⟩ := hwrote rfl
  obtain ⟨more, hmore, hwhole⟩ := hkept rfl
  exact ⟨⟨rfl, hleft.not.mpr hleaves, added, hadds, hadded.not.mpr hleaves⟩,
    ⟨rfl, hread.mpr hstays, more, hmore, hwhole.mpr hstays⟩⟩

end Comment
end EcmaPhp
