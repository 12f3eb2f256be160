import EcmaPhp.Emit.Script
import EcmaPhp.Proofs.Output.Ending
import EcmaPhp.Proofs.Output.Pieces

/-! Outputs whose array delimiters are left open: a sketch can be rendered with either kind of
delimiters, and every operation of the output does the same to both renderings.

The two renderings differ in their lengths, so their insertion points and the stretches of text
that the operations look at differ too. A sketch counts its points in pieces. -/
namespace EcmaPhp
open Text

theorem Chunks.eq_of_held {a b : Chunks} (h : a.held = b.held) : a = b := by
  obtain ⟨held, length, hlength⟩ := a
  obtain ⟨held', length', hlength'⟩ := b
  cases h
  cases hlength
  cases hlength'
  rfl

/-- An output with open array delimiters. The chunks and the points have the newest first, and the
points count pieces. -/
structure Sketch where
  held : List (List Piece)
  points : List ℕ
  line : Int
  offset : Int
  indent : Int
  written : List ℕ
  bounded : ∀ k ∈ points, k ≤ held.reverse.flatten.length
  sorted : points.Pairwise (· ≥ ·)

namespace Sketch
open Piece

def text (d : Sketch) : List Piece := d.held.reverse.flatten

theorem join_map_render (concise : Bool) (held : List (List Piece)) :
    Chunks.join (held.map (render concise)) = render concise held.reverse.flatten := by
  induction held with
  | nil => rfl
  | cons c older ih => simp [ih]

/-- The output with one kind of delimiters. -/
def output (d : Sketch) (concise : Bool) : Output where
  chunks := ⟨d.held.map (render concise), _, rfl⟩
  points := d.points.map fun k => width concise (d.text.take k)
  line := d.line
  offset := d.offset
  indent := d.indent
  written := d.written

theorem eq_output {d : Sketch} {o : Output} {concise : Bool}
    (hheld : o.chunks.held = d.held.map (render concise))
    (hpoints : o.points = d.points.map fun k => width concise (d.text.take k))
    (hnumbers : (o.line, o.offset, o.indent, o.written) = (d.line, d.offset, d.indent, d.written)) :
    o = d.output concise := by
  obtain ⟨chunks, points, line, offset, indent, written⟩ := o
  cases hpoints
  cases hnumbers
  rw [output]
  congr 1
  exact Chunks.eq_of_held hheld

theorem text_output (d : Sketch) (concise : Bool) :
    (d.output concise).text = render concise d.text :=
  join_map_render concise d.held

theorem length_output (d : Sketch) (concise : Bool) :
    (d.output concise).chunks.length = width concise d.text := by
  rw [(d.output concise).chunks.length_eq]
  exact congrArg List.length (d.text_output concise)

end Sketch

namespace Output
open Piece

/-- What operations do the same to both renderings of a sketch. The operation may depend on the kind
of delimiters. -/
def Uniform (f : Bool → Output → Output) : Prop :=
  ∀ d : Sketch, ∃ d' : Sketch, ∀ concise, f concise (d.output concise) = d'.output concise

/-- What is the same for both renderings of a sketch. -/
def Steady {β : Type} (g : Output → β) : Prop :=
  ∀ (d : Sketch) (a b : Bool), g (d.output a) = g (d.output b)

namespace Uniform

variable {f g : Bool → Output → Output}

theorem id : Uniform fun _ o => o := fun d => ⟨d, fun _ => rfl⟩

theorem comp (hg : Uniform g) (hf : Uniform f) : Uniform fun b o => g b (f b o) := by
  intro d
  obtain ⟨d', hd'⟩ := hf d
  obtain ⟨d'', hd''⟩ := hg d'
  exact ⟨d'', fun b => (congrArg (g b) (hd' b)).trans (hd'' b)⟩

/-- An operation may use what is the same for both renderings. -/
theorem use {β : Type} {v : Output → β} {k : β → Bool → Output → Output} (hv : Steady v)
    (hk : ∀ x, Uniform (k x)) : Uniform fun b o => k (v o) b o := by
  intro d
  obtain ⟨d', hd'⟩ := hk (v (d.output true)) d
  exact ⟨d', fun b => (congrArg (k · b (d.output b)) (hv d b true)).trans (hd' b)⟩

theorem ite {p : Output → Prop} [∀ o, Decidable (p o)] (hp : Steady fun o => decide (p o))
    (hf : Uniform f) (hg : Uniform g) : Uniform fun b o => if p o then f b o else g b o := by
  have huse := use (k := fun c b o => if c then f b o else g b o) hp fun c => by
    cases c
    · exact hg
    · exact hf
  simpa using huse

end Uniform

theorem steady_fields :
    Steady fun o => (o.line, o.offset, o.indent, o.written) := fun _ _ _ => rfl

theorem uniform_setFields (line offset indent : Int) (written : List ℕ) :
    Uniform fun _ o => { o with line, offset, indent, written } :=
  fun d => ⟨{ d with line, offset, indent, written }, fun _ => rfl⟩

/-- An operation on the numbers beside the text. -/
theorem uniform_numbers (line offset indent : Int × Int × Int × List ℕ → Int)
    (written : Int × Int × Int × List ℕ → List ℕ) :
    Uniform fun _ o =>
      { o with
        line := line (o.line, o.offset, o.indent, o.written)
        offset := offset (o.line, o.offset, o.indent, o.written)
        indent := indent (o.line, o.offset, o.indent, o.written)
        written := written (o.line, o.offset, o.indent, o.written) } :=
  Uniform.use (k := fun x _ o =>
    { o with line := line x, offset := offset x, indent := indent x, written := written x })
    steady_fields fun _ => uniform_setFields _ _ _ _

theorem uniform_emitPieces (ps : List Piece) : Uniform fun b o => o.emitChars (render b ps) := by
  intro d
  by_cases hps : ps = []
  · exact ⟨d, fun b => by simp [hps, emitChars]⟩
  · refine ⟨{ d with
      held := ps :: d.held
      bounded := fun k hk => ?_ }, fun b => ?_⟩
    · have := d.bounded k hk
      simp only [List.reverse_cons, List.flatten_append, List.length_append]
      omega
    · have hne : render b ps ≠ [] := by simpa using hps
      have hpush : (d.output b).emitChars (render b ps) =
          { d.output b with chunks := (d.output b).chunks.push (render b ps) } := by
        unfold emitChars
        split
        · contradiction
        · rfl
      refine hpush.trans (Sketch.eq_output rfl (List.map_congr_left fun k hk => ?_) rfl)
      have hle : k ≤ d.text.length := d.bounded k hk
      simp only [Sketch.text, List.reverse_cons, List.flatten_append] at hle ⊢
      rw [List.take_append_of_le_length hle]

theorem uniform_emitChars (cs : List Char) : Uniform fun _ o => o.emitChars cs := by
  have h := uniform_emitPieces (cs.map .char)
  simpa using h

theorem uniform_emit (text : String) : Uniform fun _ o => o.emit text := uniform_emitChars _

theorem uniform_emitVerbatim (cs : List Char) : Uniform fun _ o => o.emitVerbatim cs :=
  Uniform.comp (uniform_numbers (fun x => x.1 + cs.count '\n') (·.2.1) (·.2.2.1) (·.2.2.2))
    (uniform_emitChars cs)

/-- Both renderings give up the pieces at the end, and their points follow. -/
theorem exists_clampPoints_eq (d : Sketch) {held : List (List Piece)}
    (hstart : held.reverse.flatten <+: d.text) (chunks : Bool → Chunks)
    (hchunks : ∀ b, (chunks b).held = held.map (render b)) :
    ∃ d' : Sketch, ∀ b, clampPoints { d.output b with chunks := chunks b } = d'.output b := by
  have htext : held.reverse.flatten = d.text.take held.reverse.flatten.length :=
    List.prefix_iff_eq_take.mp hstart
  refine ⟨{ d with
    held
    points := d.points.map (min · held.reverse.flatten.length)
    bounded := fun k hk => ?_
    sorted := d.sorted.map _ fun a b hab => ?_ }, fun b => ?_⟩
  · obtain ⟨j, -, rfl⟩ := List.mem_map.mp hk
    exact Nat.min_le_right ..
  · have hle : b ≤ a := hab
    change min b _ ≤ min a _
    omega
  · have hlength : (chunks b).length = width b (d.text.take held.reverse.flatten.length) := by
      rw [(chunks b).length_eq, hchunks, Sketch.join_map_render, ← htext]
      rfl
    refine Sketch.eq_output (hchunks b) ?_ rfl
    have hpoint (k : ℕ) : min (width b (d.text.take k)) (chunks b).length =
        width b (held.reverse.flatten.take (min k held.reverse.flatten.length)) := by
      rw [hlength, ← width_take_min, htext, List.take_take, ← htext]
      simp
    simp only [clampPoints, Sketch.output, List.map_map, Sketch.text] at hpoint ⊢
    exact List.map_congr_left fun k _ => hpoint k

/-- The chunks without the blanks at the end. -/
def trimHeld : List (List Piece) → List (List Piece)
  | [] => []
  | c :: older =>
    match trimEnd c with
    | [] => trimHeld older
    | kept => kept :: older

theorem trimEnd_map_render (held : List (List Piece)) (b : Bool) :
    (Chunks.trimEnd (held.map (render b))).1 = (trimHeld held).map (render b) := by
  induction held with
  | nil => rfl
  | cons c older ih =>
    rw [List.map_cons, Chunks.trimEnd, trimHeld, ← render_trimEnd]
    cases htrim : trimEnd c with
    | nil => simpa using ih
    | cons p rest =>
      have hne : render b (p :: rest) ≠ [] := by simp [chars_ne_nil]
      split
      · contradiction
      · rfl

theorem trimHeld_isPrefix (held : List (List Piece)) :
    (trimHeld held).reverse.flatten <+: held.reverse.flatten := by
  induction held with
  | nil => exact List.prefix_rfl
  | cons c older ih =>
    rw [trimHeld]
    simp only [List.reverse_cons, List.flatten_append, List.flatten_singleton]
    split
    · exact ih.trans (List.prefix_append ..)
    · rename_i kept _
      simp only [List.reverse_cons, List.flatten_append, List.flatten_singleton]
      exact List.prefix_append_right_inj _ |>.mpr (trimEnd_isPrefix c)

theorem uniform_trimBlanks : Uniform fun _ o => o.trimBlanks := fun d =>
  exists_clampPoints_eq d (trimHeld_isPrefix d.held) (fun b => (d.output b).chunks.trimBlanks)
    (trimEnd_map_render d.held)

theorem uniform_newline : Uniform fun _ o => o.newline := by
  have hemit (cs : List Char) : Uniform fun _ o =>
      let o := o.trimBlanks.emitChars ('\n' :: cs)
      { o with line := o.line + 1 } :=
    Uniform.comp (uniform_numbers (fun x => x.1 + 1) (·.2.1) (·.2.2.1) (·.2.2.2))
      (Uniform.comp (uniform_emitChars ('\n' :: cs)) uniform_trimBlanks)
  exact Uniform.use (v := indentation) (fun _ _ _ => rfl) hemit

theorem uniform_newlines (count : ℕ) : Uniform fun _ o => o.newlines count := by
  induction count with
  | zero => exact Uniform.id
  | succ count ih => exact Uniform.comp ih uniform_newline

theorem uniform_syncTo (sourceLine : Int) : Uniform fun _ o => o.syncTo sourceLine :=
  Uniform.use (v := fun o => (sourceLine + o.offset - o.line).toNat) (fun _ _ _ => rfl)
    uniform_newlines

theorem uniform_breakLine : Uniform fun _ o => o.breakLine := by
  have h := Uniform.comp (uniform_numbers (·.1) (fun x => x.2.1 + 1) (·.2.2.1) (·.2.2.2))
    uniform_newline
  exact h

theorem uniform_realign (sourceLine : Int) : Uniform fun _ o => o.realign sourceLine :=
  uniform_numbers (·.1) (fun x => x.1 - sourceLine) (·.2.2.1) (·.2.2.2)

theorem uniform_skipLines (first last : Int) : Uniform fun _ o => o.skipLines first last :=
  Uniform.ite (p := fun o => max first (o.line - o.offset + 1) ≤ last) (fun _ _ _ => rfl)
    (uniform_numbers (·.1)
      (fun x => x.2.1 - (last - max first (x.1 - x.2.1 + 1) + 1)) (·.2.2.1) (·.2.2.2))
    Uniform.id

theorem uniform_endUnsourced (line offset : Int) :
    Uniform fun _ o => { o with offset := offset + (o.line - line) } :=
  uniform_numbers (·.1) (fun x => offset + (x.1 - line)) (·.2.2.1) (·.2.2.2)

theorem uniform_markWritten (c : Comment) : Uniform fun _ o => o.markWritten c :=
  uniform_numbers (·.1) (·.2.1) (·.2.2.1) (fun x => c.id :: x.2.2.2)

theorem uniform_markAll (cs : List Comment) : Uniform fun _ o => cs.foldl markWritten o := by
  induction cs with
  | nil => exact Uniform.id
  | cons c rest ih => exact Uniform.comp ih (uniform_markWritten c)

theorem uniform_pushPoint : Uniform fun _ o => o.pushPoint := by
  intro d
  refine ⟨{ d with
    points := d.text.length :: d.points
    bounded := fun k hk => ?_
    sorted := List.pairwise_cons.mpr ⟨d.bounded, d.sorted⟩ }, fun b => Sketch.eq_output rfl ?_ rfl⟩
  · rcases List.mem_cons.mp hk with rfl | hk
    · exact Nat.le_refl _
    · exact d.bounded k hk
  · change (d.output b).chunks.length :: (d.output b).points = _
    rw [d.length_output, List.map_cons]
    congr 2
    exact (List.take_length (l := d.text)).symm

theorem uniform_popPoint : Uniform fun _ o => o.popPoint := by
  intro d
  exact ⟨{ d with
    points := d.points.drop 1
    bounded := fun k hk => d.bounded k (List.mem_of_mem_drop hk)
    sorted := d.sorted.drop }, fun b => Sketch.eq_output rfl List.map_drop.symm rfl⟩

section Ends

theorem getLast?_joinLast_one (held : List (List Char)) :
    (Chunks.joinLast 1 held).getLast? = (Chunks.join held).getLast? := by
  induction held with
  | nil => rfl
  | cons c older ih =>
    rw [Chunks.joinLast, Chunks.join_cons]
    split
    · rename_i hc
      have hne : c ≠ [] := List.ne_nil_of_length_pos (by omega)
      rw [List.getLast?_append_of_ne_nil _ hne]
    · rename_i hc
      have hnil : c = [] := List.length_eq_zero_iff.mp (by omega)
      simpa [hnil] using ih

theorem getLast?_lastChunks_output (d : Sketch) (b : Bool) :
    ((d.output b).chunks.lastChunks 1).getLast? = d.text.getLast?.map (last b) := by
  rw [← getLast?_render, ← d.text_output b]
  exact getLast?_joinLast_one _

theorem endsWith_singleton (o : Output) (c : Char) :
    o.endsWith [c] = true ↔ (o.chunks.lastChunks 1).getLast? = some c := by
  rw [endsWith, List.isSuffixOf_iff_suffix, List.length_singleton]
  constructor
  · rintro ⟨front, h⟩
    simp [← h]
  · intro h
    obtain ⟨front, hfront⟩ := List.getLast?_eq_some_iff.mp h
    exact ⟨front, hfront.symm⟩

/-- Only a character ends in a character that no delimiter ends in. -/
theorem last_eq_iff {p : Piece} {b : Bool} {c : Char} (hc : c ∉ "[](".toList ++ [')']) :
    p.last b = c ↔ p = .char c := by
  cases p with
  | char x => simp [last]
  | opening => cases b <;> simp_all [last] <;> grind
  | closing => cases b <;> simp_all [last] <;> grind

theorem endsWith_output {d : Sketch} {b : Bool} {c : Char} (hc : c ∉ "[](".toList ++ [')']) :
    (d.output b).endsWith [c] = true ↔ d.text.getLast? = some (.char c) := by
  rw [endsWith_singleton, getLast?_lastChunks_output, Option.map_eq_some_iff]
  constructor
  · rintro ⟨p, hp, hlast⟩
    rw [hp, (last_eq_iff hc).mp hlast]
  · intro h
    exact ⟨_, h, rfl⟩

theorem steady_endsWith_tab : Steady fun o => o.endsWith ['\t'] := by
  intro d a b
  rw [Bool.eq_iff_iff, endsWith_output (by decide), endsWith_output (by decide)]

theorem steady_needsSpace : Steady needsSpace := by
  intro d a b
  have hempty (b : Bool) : (d.output b).chunks.isEmpty = d.held.isEmpty := by
    simp [Sketch.output, Chunks.isEmpty]
  unfold needsSpace
  rw [hempty, hempty, getLast?_lastChunks_output, getLast?_lastChunks_output]
  cases d.text.getLast? with
  | none => rfl
  | some p => cases p <;> cases a <;> cases b <;> rfl

/-- A character at the end can be dropped from both renderings. -/
theorem exists_dropEnd_one {held : List (List Piece)} {c : Char}
    (h : held.reverse.flatten.getLast? = some (.char c)) :
    ∃ held' : List (List Piece), held'.reverse.flatten <+: held.reverse.flatten ∧
      ∀ b, Chunks.dropEnd 1 (held.map (render b)) = held'.map (render b) := by
  induction held with
  | nil => cases h
  | cons ps older ih =>
    simp only [List.reverse_cons, List.flatten_append, List.flatten_singleton] at h ⊢
    cases ps using List.reverseRecOn with
    | nil =>
      obtain ⟨held', hstart, hdrop⟩ := ih (by simpa using h)
      exact ⟨held', by simpa using hstart, fun b => by simp [Chunks.dropEnd, hdrop b]⟩
    | append_singleton front p =>
      have hp : p = .char c := by simpa using h
      subst hp
      by_cases hfront : front = []
      · subst hfront
        exact ⟨older, List.prefix_append .., fun b => by simp [Chunks.dropEnd, chars]⟩
      · refine ⟨front :: older, ?_, fun b => ?_⟩
        · simp only [List.reverse_cons, List.flatten_append, List.flatten_singleton,
            ← List.append_assoc]
          exact List.prefix_append ..
        · have hpos := List.length_pos_iff.mpr (fun hnil : render b front = [] =>
            hfront (render_eq_nil.mp hnil))
          have hlong : ¬ (render b front).length + 1 ≤ 1 := by omega
          simp [Chunks.dropEnd, chars, hlong]

theorem uniform_increaseIndent : Uniform fun _ o => o.increaseIndent := by
  have hindent := uniform_numbers (·.1) (·.2.1) (fun x => x.2.2.1 + 1) (·.2.2.2)
  have htab := Uniform.ite (p := fun o => o.endsWith ['\t'] = true)
    (by simpa using steady_endsWith_tab) (uniform_emitChars ['\t']) Uniform.id
  have hcomp := Uniform.comp htab hindent
  exact hcomp

theorem uniform_dropTab :
    Uniform fun _ o => if o.endsWith ['\t'] then o.dropTail 1 else o := by
  intro d
  by_cases htab : d.text.getLast? = some (.char '\t')
  · obtain ⟨held, hstart, hdrop⟩ := exists_dropEnd_one htab
    obtain ⟨d', hd'⟩ := exists_clampPoints_eq d hstart (fun b => (d.output b).chunks.dropLast 1)
      hdrop
    refine ⟨d', fun b => ?_⟩
    exact (if_pos ((endsWith_output (by decide)).mpr htab)).trans (hd' b)
  · exact ⟨d, fun b => if_neg ((endsWith_output (by decide)).not.mpr htab)⟩

theorem uniform_decreaseIndent : Uniform fun _ o => o.decreaseIndent := by
  have hindent := uniform_numbers (·.1) (·.2.1) (fun x => x.2.2.1 - 1) (·.2.2.2)
  have hcomp := Uniform.comp uniform_dropTab hindent
  exact hcomp

end Ends

section Tail

theorem exists_hard_opening (a : Bool) : ∃ c ∈ chars a .opening, isSoft c = false := by
  cases a with
  | true => exact ⟨'[', by simp [chars], rfl⟩
  | false => exact ⟨'(', by simp [chars], rfl⟩

theorem exists_hard_closing (a : Bool) : ∃ c ∈ chars a .closing, isSoft c = false := by
  cases a with
  | true => exact ⟨']', by simp [chars], rfl⟩
  | false => exact ⟨')', by simp [chars], rfl⟩

/-- The two renderings of pieces end alike: a delimiter is neither a blank nor a semicolon. -/
theorem ending_render (ps : List Piece) (a b : Bool) :
    ending (render a ps) = ending (render b ps) := by
  induction ps using List.reverseRecOn with
  | nil => rfl
  | append_singleton ps p ih =>
    cases p with
    | char c =>
      simp only [render_append, render_cons, render_nil, List.append_nil, chars]
      cases hc : isSoft c with
      | true => rw [ending_append_of_soft (by simpa using hc),
          ending_append_of_soft (by simpa using hc), ih]
      | false => rw [ending_append_of_hard ⟨c, by simp, hc⟩, ending_append_of_hard ⟨c, by simp, hc⟩]
    | opening =>
      simp only [render_append, render_cons, render_nil, List.append_nil]
      rw [ending_append_of_hard (exists_hard_opening a),
        ending_append_of_hard (exists_hard_opening b)]
      cases a <;> cases b <;> decide
    | closing =>
      simp only [render_append, render_cons, render_nil, List.append_nil]
      rw [ending_append_of_hard (exists_hard_closing a),
        ending_append_of_hard (exists_hard_closing b)]
      cases a <;> cases b <;> decide

/-- Pieces with nothing but blanks and line ends are the same in both renderings. -/
theorem render_of_soft {ps : List Piece} {a : Bool} (h : ∀ c ∈ render a ps, isSoft c = true)
    (b : Bool) : render b ps = render a ps := by
  induction ps with
  | nil => rfl
  | cons p rest ih =>
    have hp : ∀ c ∈ p.chars a, isSoft c = true := fun c hc => h c (by simp [hc])
    have hrest := ih fun c hc => h c (by simp [hc])
    cases p with
    | char c => simp [chars, hrest]
    | opening =>
      obtain ⟨c, hc, hhard⟩ := exists_hard_opening a
      exact absurd (hp c hc) (by simp [hhard])
    | closing =>
      obtain ⟨c, hc, hhard⟩ := exists_hard_closing a
      exact absurd (hp c hc) (by simp [hhard])

/-- The stretches of text that are looked at may begin at different places in the two renderings,
but then a delimiter stands in both of them. -/
theorem ending_joinLast (held : List (List Piece)) (size : ℕ) (a b : Bool) :
    ending (Chunks.joinLast size (held.map (render a))) =
      ending (Chunks.joinLast size (held.map (render b))) := by
  induction held generalizing size with
  | nil => rfl
  | cons ps older ih =>
    simp only [List.map_cons, Chunks.joinLast]
    by_cases hsoft : ∀ c ∈ render a ps, isSoft c = true
    · rw [render_of_soft hsoft b]
      split
      · rfl
      · rw [ending_append_of_soft hsoft, ending_append_of_soft hsoft, ih]
    · have hhard : ∃ c ∈ render a ps, isSoft c = false := by
        simpa using hsoft
      have hhard' : ∃ c ∈ render b ps, isSoft c = false := by
        by_contra hnone
        have hall : ∀ c ∈ render b ps, isSoft c = true := by simpa using hnone
        rw [render_of_soft hall a] at hhard
        exact hnone hhard
      have hend (front : List Char) (x : Bool) (hx : ∃ c ∈ render x ps, isSoft c = false) (n : ℕ) :
          ending (if size ≤ n then render x ps else front ++ render x ps) =
            ending (render x ps) := by
        split
        · rfl
        · exact ending_append_of_hard hx
      rw [hend _ a hhard, hend _ b hhard', ending_render ps a b]

theorem steady_tail {β : Type} {v : List Char → β}
    (hv : ∀ {t u : List Char}, ending t = ending u → v t = v u) : Steady fun o => v o.tail :=
  fun d a b => hv (ending_joinLast d.held tailSize a b)

theorem uniform_ensureNewline : Uniform fun _ o => o.ensureNewline := by
  refine Uniform.ite (p := fun o => (o.chunks.isEmpty || stopsAtLineStart o.tail) = true) ?_
    Uniform.id uniform_newline
  intro d a b
  have hempty (b : Bool) : (d.output b).chunks.isEmpty = d.held.isEmpty := by
    simp [Sketch.output, Chunks.isEmpty]
  simp only [hempty, steady_tail stopsAtLineStart_eq_of_ending d a b]

theorem uniform_ensureTerminator : Uniform fun _ o => o.ensureTerminator :=
  Uniform.ite (p := fun o => isTerminated o.tail = true)
    (fun d a b => by simp only [steady_tail isTerminated_eq_of_ending d a b])
    Uniform.id (uniform_emit ";")

end Tail

section Blocks

theorem uniform_openBlock (text : String) : Uniform fun _ o => o.openBlock text :=
  Uniform.comp uniform_increaseIndent (uniform_emit text)

theorem uniform_closeBlock (firstLine : Int) (text : String) :
    Uniform fun _ o => o.closeBlock firstLine text := by
  have hline : Uniform fun _ o => if o.line = firstLine then o else o.ensureNewline :=
    Uniform.ite (fun _ _ _ => rfl) Uniform.id uniform_ensureNewline
  exact Uniform.comp (uniform_emit text) (Uniform.comp uniform_decreaseIndent hline)

theorem uniform_closeInline (firstLine : Int) (inline text : String) :
    Uniform fun _ o => o.closeInline firstLine inline text :=
  Uniform.ite (p := fun o => o.line = firstLine) (fun _ _ _ => rfl)
    (Uniform.comp (uniform_emit inline) uniform_decreaseIndent) (uniform_closeBlock firstLine text)

/-- A block whose delimiters may be those of an array. -/
theorem uniform_openPieces (ps : List Piece) :
    Uniform fun b o => (o.emitChars (render b ps)).increaseIndent :=
  Uniform.comp uniform_increaseIndent (uniform_emitPieces ps)

theorem uniform_closePieces (firstLine : Int) (inline text : List Piece) :
    Uniform fun b o => o.closeInline firstLine (String.ofList (render b inline))
      (String.ofList (render b text)) := by
  have hline : Uniform fun _ o => if o.line = firstLine then o else o.ensureNewline :=
    Uniform.ite (fun _ _ _ => rfl) Uniform.id uniform_ensureNewline
  have hclose := Uniform.ite (p := fun o => o.line = firstLine) (fun _ _ _ => rfl)
    (Uniform.comp (uniform_emitPieces inline) uniform_decreaseIndent)
    (Uniform.comp (uniform_emitPieces text) (Uniform.comp uniform_decreaseIndent hline))
  simpa [closeInline, closeBlock, emit] using hclose

theorem uniform_emitLines (lines : List (List Char)) : Uniform fun _ o => o.emitLines lines := by
  induction lines with
  | nil => exact Uniform.id
  | cons text rest ih =>
    cases rest with
    | nil => exact uniform_emitChars text
    | cons next more =>
      exact Uniform.comp ih (Uniform.comp uniform_newline (uniform_emitChars text))

theorem uniform_emitComment (c : Comment) : Uniform fun _ o => o.emitComment c := by
  have hsync : Uniform fun _ o =>
      if c.location.isUnknown then o else o.syncTo c.location.first.line :=
    Uniform.ite (fun _ _ _ => rfl) Uniform.id (uniform_syncTo _)
  have hspace : Uniform fun _ o => if o.needsSpace then o.emit " " else o :=
    Uniform.ite (by simpa using steady_needsSpace) (uniform_emit " ") Uniform.id
  have hend : Uniform fun _ o => (if c.isBlock then o else o.newline).markWritten c :=
    Uniform.comp (uniform_markWritten c)
      (Uniform.ite (fun _ _ _ => rfl) Uniform.id uniform_newline)
  have hwrite := Uniform.comp hend
    (Uniform.comp (uniform_emitLines c.outputLines) (Uniform.comp hspace hsync))
  exact Uniform.ite (p := fun o => o.isWritten c = true) (fun _ _ _ => rfl) Uniform.id hwrite

theorem uniform_emitComments (cs : List Comment) : Uniform fun _ o => o.emitComments cs := by
  induction cs with
  | nil => exact Uniform.id
  | cons c rest ih => exact Uniform.comp ih (uniform_emitComment c)

end Blocks

section Insertion

/-- A place between two pieces is reached at the same chunk by both renderings. -/
theorem splice_map_render (cs : List Char) (k : ℕ) (chunks : List (List Piece))
    (hk : k ≤ chunks.flatten.length) :
    ∃ spliced : List (List Piece),
      spliced.flatten = chunks.flatten.take k ++ cs.map .char ++ chunks.flatten.drop k ∧
      ∀ b, Chunks.splice cs (width b (chunks.flatten.take k)) (chunks.map (render b)) =
        spliced.map (render b) := by
  induction chunks generalizing k with
  | nil => exact ⟨[cs.map .char], by simp, fun b => by simp [Chunks.splice]⟩
  | cons ps newer ih =>
    by_cases hin : k ≤ ps.length
    · refine ⟨ps.take k :: cs.map .char :: ps.drop k :: newer, ?_, fun b => ?_⟩
      · simp [List.take_append_of_le_length hin, List.drop_append_of_le_length hin]
      · have hle : width b ((ps ++ newer.flatten).take k) ≤ (render b ps).length :=
          (width_take_append_le_iff hk).mpr hin
        rw [List.flatten_cons, List.map_cons, Chunks.splice, if_pos hle]
        rw [List.take_append_of_le_length hin, take_render, drop_render]
        simp
    · have hrest : k - ps.length ≤ newer.flatten.length := by
        simp only [List.flatten_cons, List.length_append] at hk
        omega
      obtain ⟨spliced, hflatten, hsplice⟩ := ih (k - ps.length) hrest
      refine ⟨ps :: spliced, ?_, fun b => ?_⟩
      · simp only [List.flatten_cons, hflatten, List.take_append, List.drop_append,
          List.take_of_length_le (show ps.length ≤ k by omega),
          List.drop_of_length_le (show ps.length ≤ k by omega), List.append_assoc, List.nil_append]
      · have hle : ¬ width b ((ps ++ newer.flatten).take k) ≤ (render b ps).length :=
          (width_take_append_le_iff hk).not.mpr hin
        rw [List.flatten_cons, List.map_cons, Chunks.splice, if_neg hle, List.map_cons,
          ← hsplice b, List.take_append, List.take_of_length_le (show ps.length ≤ k by omega),
          width_append]
        congr 2
        exact Nat.add_sub_cancel_left ..

variable {ps : List Piece} {cs : List Char} {k j : ℕ} {b : Bool}

theorem width_take_insert_of_le (hj : j ≤ k) (hk : k ≤ ps.length) :
    width b ((ps.take k ++ cs.map Piece.char ++ ps.drop k).take j) = width b (ps.take j) := by
  rw [List.append_assoc, List.take_append_of_le_length (by rw [List.length_take]; omega),
    List.take_take, Nat.min_eq_left hj]

theorem width_take_insert_of_ge (hj : k ≤ j) (hk : k ≤ ps.length) :
    width b ((ps.take k ++ cs.map Piece.char ++ ps.drop k).take (j + cs.length)) =
      width b (ps.take j) + cs.length := by
  have hlength : (ps.take k ++ cs.map Piece.char).length = k + cs.length := by
    simp only [List.length_append, List.length_take, List.length_map]
    omega
  have htake : ps.take j = ps.take k ++ (ps.drop k).take (j - k) := by
    conv_lhs => rw [← List.take_append_drop k ps]
    rw [List.take_append, List.take_take, List.length_take, Nat.min_eq_right hj,
      Nat.min_eq_left hk]
  rw [List.take_append, hlength, List.take_of_length_le (by omega), htake,
    show j + cs.length - (k + cs.length) = j - k by omega]
  simp only [width_append, width_map_char]
  omega

/-- Text goes to a place between two pieces; a point that `moves` goes along with what follows
it. -/
theorem exists_insert_eq (d : Sketch) (cs : List Char) (hk : k ≤ d.text.length)
    (moved : List ℕ) (hmoved : ∀ j ∈ moved, k ≤ j ∧ j ≤ d.text.length)
    (kept : List ℕ) (hkept : ∀ j ∈ kept, j ≤ k) (hsorted : moved.Pairwise (· ≥ ·))
    (hsorted' : kept.Pairwise (· ≥ ·)) (line offset : Int) :
    ∃ d' : Sketch, ∀ b, ({ d.output b with
        chunks := (d.output b).chunks.insertAt (width b (d.text.take k)) cs
        points := (moved.map fun j => width b (d.text.take j) + cs.length) ++
          kept.map fun j => width b (d.text.take j)
        line, offset } : Output) = d'.output b := by
  obtain ⟨spliced, hflatten, hsplice⟩ := splice_map_render cs k d.held.reverse hk
  refine ⟨{ d with
    held := spliced.reverse
    points := moved.map (· + cs.length) ++ kept
    line, offset
    bounded := fun j hj => ?_
    sorted := List.pairwise_append.mpr ⟨hsorted.map _ fun a b hab => ?_, hsorted', ?_⟩ },
    fun b => Sketch.eq_output ?_ ?_ rfl⟩
  · have hlength : spliced.reverse.reverse.flatten.length = d.text.length + cs.length := by
      rw [List.reverse_reverse, hflatten]
      simp only [List.length_append, List.length_take, List.length_drop, List.length_map,
        Sketch.text] at hk ⊢
      omega
    rw [hlength]
    rcases List.mem_append.mp hj with hj | hj
    · obtain ⟨i, hi, rfl⟩ := List.mem_map.mp hj
      have := (hmoved i hi).2
      omega
    · have := hkept j hj
      omega
  · have hle : b ≤ a := hab
    change b + cs.length ≤ a + cs.length
    omega
  · rintro _ ha j hj
    obtain ⟨i, hi, rfl⟩ := List.mem_map.mp ha
    have := (hmoved i hi).1
    have := hkept j hj
    change j ≤ i + cs.length
    omega
  · change (Chunks.splice cs _ (d.held.map (render b)).reverse).reverse = _
    rw [← List.map_reverse, List.map_reverse (l := spliced), ← hsplice b]
    rfl
  · have htext : spliced.reverse.reverse.flatten =
        d.text.take k ++ cs.map Piece.char ++ d.text.drop k := by
      rw [List.reverse_reverse, hflatten]
      rfl
    simp only [Sketch.text, htext, List.map_append, List.map_map]
    congr 1
    · exact List.map_congr_left fun j hj => (width_take_insert_of_ge (hmoved j hj).1 hk).symm
    · exact List.map_congr_left fun j hj => (width_take_insert_of_le (hkept j hj) hk).symm

theorem insertAt_of_point? {o : Output} {depth point : ℕ} (hcs : cs ≠ [])
    (hpoint : o.point? depth = some point) :
    o.insertAt depth cs = { o with
      chunks := o.chunks.insertAt point cs
      points := o.movedPoints depth cs.length
      line := o.line + cs.count '\n'
      offset := o.offset + cs.count '\n' } := by
  unfold insertAt
  split
  · contradiction
  · rename_i hnone
    rw [hpoint] at hnone
    cases hnone
  · rename_i p _ hsome
    rw [hpoint] at hsome
    cases hsome
    rfl

/-- Text goes to the newest point, or to the one before it. -/
theorem uniform_insertAt {depth : ℕ} (hdepth : depth ≤ 1) (cs : List Char) :
    Uniform fun _ o => o.insertAt depth cs := by
  intro d
  by_cases hcs : cs = []
  · exact ⟨d, fun b => by simp [hcs, insertAt]⟩
  have hnone (h : ∀ b, (d.output b).point? depth = none) :
      ∃ d' : Sketch, ∀ b, (d.output b).insertAt depth cs = d'.output b := by
    refine ⟨d, fun b => ?_⟩
    unfold insertAt
    simp [h b]
  -- The point at the depth, the newer points that move, and the older ones that stay.
  have hsome (k : ℕ) (moved kept : List ℕ) (hmoved : ∀ j ∈ moved, k ≤ j ∧ j ≤ d.text.length)
      (hkept : ∀ j ∈ kept, j ≤ k) (hk : k ≤ d.text.length) (hsorted : moved.Pairwise (· ≥ ·))
      (hsorted' : kept.Pairwise (· ≥ ·))
      (hpoint : ∀ b, (d.output b).point? depth = some (width b (d.text.take k)))
      (hpoints : ∀ b, (d.output b).movedPoints depth cs.length =
        (moved.map fun j => width b (d.text.take j) + cs.length) ++
          kept.map fun j => width b (d.text.take j)) :
      ∃ d' : Sketch, ∀ b, (d.output b).insertAt depth cs = d'.output b := by
    obtain ⟨d', hd'⟩ := exists_insert_eq d cs hk moved hmoved kept hkept hsorted hsorted'
      (d.line + cs.count '\n') (d.offset + cs.count '\n')
    refine ⟨d', fun b => ?_⟩
    rw [insertAt_of_point? hcs (hpoint b), hpoints b]
    exact hd' b
  have hbounded := d.bounded
  have hsorted := d.sorted
  have houtput (b : Bool) : (d.output b).points = d.points.map fun k => width b (d.text.take k) :=
    rfl
  rcases hpoints : d.points with - | ⟨k, rest⟩
  · refine hnone fun b => ?_
    simp [point?, houtput, hpoints]
  · rw [hpoints] at hbounded hsorted
    obtain ⟨hrest, hpairs⟩ := List.pairwise_cons.mp hsorted
    obtain rfl | rfl : depth = 0 ∨ depth = 1 := by omega
    · refine hsome k [] (k :: rest) (by simp) ?_
        (hbounded k (by simp)) List.Pairwise.nil hsorted ?_ ?_
      · rintro j hj
        rcases List.mem_cons.mp hj with rfl | hj
        · exact Nat.le_refl _
        · exact hrest j hj
      · intro b
        simp [point?, houtput, hpoints]
      · intro b
        simp [movedPoints, houtput, hpoints]
    · cases rest with
      | nil =>
        refine hsome k [k] [] ?_ (by simp) (hbounded k (by simp))
          (List.pairwise_singleton ..) List.Pairwise.nil ?_ ?_
        · rintro j hj
          rw [List.mem_singleton.mp hj]
          exact ⟨Nat.le_refl _, hbounded k (by simp)⟩
        · intro b
          simp [point?, houtput, hpoints]
        · intro b
          simp [movedPoints, houtput, hpoints]
      | cons older more =>
        obtain ⟨holder, -⟩ := List.pairwise_cons.mp hpairs
        refine hsome older [k] (older :: more) ?_ ?_
          (hbounded older (by simp)) (List.pairwise_singleton ..) hpairs ?_ ?_
        · rintro j hj
          rw [List.mem_singleton.mp hj]
          exact ⟨hrest older (by simp), hbounded k (by simp)⟩
        · rintro j hj
          rcases List.mem_cons.mp hj with rfl | hj
          · exact Nat.le_refl _
          · exact holder j hj
        · intro b
          simp [point?, houtput, hpoints]
        · intro b
          simp [movedPoints, houtput, hpoints]

theorem uniform_insertCaptures (form : FunctionForm) (names : List String) (multiline : Bool) :
    Uniform fun _ o => o.insertCaptures form names multiline :=
  Uniform.use (v := fun o => o.gap multiline)
    (k := fun gap _ o => (o.insertAt 1 (form.clause names)).insertAt 0 (form.statements gap names))
    (fun _ _ _ => rfl)
    fun _ => Uniform.comp (uniform_insertAt (by omega) _) (uniform_insertAt (by omega) _)

theorem uniform_openBraces (shape : FunctionShape) : Uniform fun _ o => o.openBraces shape := by
  have hopen := Uniform.comp uniform_pushPoint (Uniform.comp (uniform_openBlock "\x7b")
    (Uniform.comp uniform_pushPoint (uniform_emit shape.signature.text)))
  have hpad : Uniform fun _ o => if shape.padded then o.emit " " else o :=
    Uniform.ite (fun _ _ _ => rfl) (uniform_emit " ") Uniform.id
  exact Uniform.comp hpad hopen

theorem uniform_closeBraces (shape : FunctionShape) (names : List String) (firstLine : Int) :
    Uniform fun _ o => o.closeBraces shape names firstLine := by
  have hcaptures : Uniform fun _ o =>
      o.insertCaptures shape.form names (o.line != firstLine) :=
    Uniform.use (v := fun o => o.line != firstLine)
      (k := fun multiline _ o => o.insertCaptures shape.form names multiline)
      (fun _ _ _ => rfl) fun _ => uniform_insertCaptures _ _ _
  have hclose := uniform_closeInline firstLine (if shape.padded then " \x7d" else "\x7d") "\x7d"
  exact Uniform.comp hclose
    (Uniform.comp uniform_popPoint (Uniform.comp uniform_popPoint hcaptures))

end Insertion

section Points

theorem reverse_drop_length_sub (text : List Char) (size : ℕ) :
    (text.drop (text.length - size)).reverse = text.reverse.take size := by
  rw [List.reverse_drop]
  rcases Nat.le_total size text.length with h | h
  · rw [show text.length - (text.length - size) = size by omega]
  · have hall : text.length - (text.length - size) = text.length := by omega
    rw [hall, List.take_of_length_le (by simp), List.take_of_length_le (by simpa using h)]

/-- A line that begins in the last characters of one rendering does so in the other: nothing but
blanks follows its line end. -/
theorem head?_take_render (ps : List Piece) (size : ℕ) (a b : Bool) :
    (((render a ps).reverse.take size).dropWhile Text.isBlank).head? = some '\n' ↔
      (((render b ps).reverse.take size).dropWhile Text.isBlank).head? = some '\n' := by
  induction ps using List.reverseRecOn generalizing size with
  | nil => rfl
  | append_singleton ps p ih =>
    cases size with
    | zero => simp
    | succ size =>
      simp only [render_append, render_cons, render_nil, List.append_nil, List.reverse_append]
      cases p with
      | char c =>
        simp only [chars, List.reverse_singleton, List.singleton_append, List.take_succ_cons,
          List.dropWhile_cons]
        split
        · exact ih size
        · simp
      | opening => cases a <;> cases b <;> simp [chars, Text.isBlank]
      | closing => cases a <;> cases b <;> simp [chars, Text.isBlank]

theorem beginsLine_output (d : Sketch) (k : ℕ) (a b : Bool) :
    (d.output a).beginsLine (width a (d.text.take k)) =
      (d.output b).beginsLine (width b (d.text.take k)) := by
  have hzero (b : Bool) : width b (d.text.take k) = 0 ↔ d.text.take k = [] := by
    rw [width, List.length_eq_zero_iff, render_eq_nil]
  have hwindow (b : Bool) : stopsAtLineStart
      (((d.output b).text.take (width b (d.text.take k))).drop
        (width b (d.text.take k) - tailSize)) =
      decide ((((render b (d.text.take k)).reverse.take tailSize).dropWhile
        Text.isBlank).head? = some '\n') := by
    rw [d.text_output, take_render, stopsAtLineStart, width, reverse_drop_length_sub]
  unfold beginsLine
  simp only [hwindow, hzero, head?_take_render (d.text.take k) tailSize a b]

theorem steady_pointAtLineStart : Steady fun o => o.pointAtLineStart 0 := by
  intro d a b
  have hpoint (b : Bool) : (d.output b).point? 0 =
      d.points.head?.map fun k => width b (d.text.take k) := by
    cases hpoints : d.points <;> simp [point?, Sketch.output, hpoints]
  simp only [pointAtLineStart, hpoint]
  cases d.points.head? with
  | none => simp only [Option.map_none, Option.any_none]
  | some k => simp only [Option.map_some, Option.any_some, beginsLine_output d k a b]

end Points

section Nodes

theorem uniform_skipped (n : Node) : Uniform fun _ o => match n.skipped with
    | some (first, last) => o.skipLines first last
    | none => o := by
  cases n.skipped with
  | none => exact Uniform.id
  | some range => exact uniform_skipLines range.1 range.2

theorem uniform_beginNode (wrapped : Bool) (n : Node) :
    Uniform fun _ o => o.beginNode wrapped n := by
  have hparen : Uniform fun _ o => if wrapped then o.emit "(" else o :=
    Uniform.ite (fun _ _ _ => rfl) (uniform_emit "(") Uniform.id
  have hplace := Uniform.comp hparen
    (Uniform.comp (uniform_syncTo n.location.first.line) (uniform_skipped n))
  have hnode := Uniform.ite (p := fun _ => n.isSynthetic || n.kind = .program)
    (fun _ _ _ => rfl) Uniform.id hplace
  exact Uniform.comp hnode (uniform_emitComments n.leading)

theorem uniform_endNode (wrapped : Bool) (n : Node) : Uniform fun _ o => o.endNode wrapped n := by
  have hparen : Uniform fun _ o => if wrapped then o.emit ")" else o :=
    Uniform.ite (fun _ _ _ => rfl) (uniform_emit ")") Uniform.id
  have hplace : Uniform fun _ o => if n.isSynthetic then o else
      (if wrapped then o.emit ")" else o).syncTo n.location.last.line :=
    Uniform.ite (fun _ _ _ => rfl) Uniform.id (Uniform.comp (uniform_syncTo _) hparen)
  exact Uniform.comp (uniform_emitComments n.trailing)
    (Uniform.comp hplace (uniform_emitComments n.inner))

end Nodes

end Output
end EcmaPhp
