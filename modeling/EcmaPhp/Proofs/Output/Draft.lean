import EcmaPhp.Proofs.Output.Operation

/-! An ideal editor, which keeps the text in stretches between marks, and the output beside it: but
for spaces and tabs the two hold the same text after every run. -/
namespace EcmaPhp
open Output Text

/-- Text with marks in it: what stands behind the newest mark, and before each mark what stands
between it and the next older one, or the start. -/
structure Draft where
  last : List Char := []
  before : List (List Char) := []
  deriving DecidableEq, Repr

namespace Draft

def text (d : Draft) : List Char := (d.last :: d.before).reverse.flatten

def append (d : Draft) (cs : List Char) : Draft := { d with last := d.last ++ cs }

def mark (d : Draft) : Draft := ⟨[], d.last :: d.before⟩

/-- Forgets the newest mark; the text around it stays. -/
def unmark (d : Draft) : Draft :=
  match d.before with
  | [] => d
  | s :: older => ⟨s ++ d.last, older⟩

/-- Puts text right behind the mark `depth` below the newest, so before all that was put there
earlier and behind all that is put at older marks. -/
def insert (d : Draft) (depth : Nat) (cs : List Char) : Draft :=
  match depth with
  | 0 => { d with last := cs ++ d.last }
  | depth + 1 => { d with before := d.before.modify depth (cs ++ ·) }

/-- The draft after an operation. Whether a terminator, a comment or a line end is to be appended at
all depends on the output so far. -/
def apply (d : Draft) (o : Output) : Operation → Draft
  | .pushPoint => d.mark
  | .popPoint => d.unmark
  | .insertAt depth cs => d.insert depth cs
  | op => d.append (op.writing o).text

/-- The draft after operations that the output `o` goes through. -/
def run (d : Draft) (o : Output) : List Operation → Draft
  | [] => d
  | op :: rest => (d.apply o op).run (op.apply o) rest

theorem text_eq (d : Draft) : d.text = d.before.reverse.flatten ++ d.last := by
  simp [text]

end Draft

/-- The text that an operation appends or inserts. -/
def Operation.added (o : Output) : Operation → List Char
  | .insertAt _ cs => cs
  | op => (op.writing o).text

/-- All text that operations append and insert. -/
def Output.added (o : Output) : List Operation → List Char
  | [] => []
  | op :: rest => op.added o ++ Output.added (op.apply o) rest

/-- A text with points is a draft: cut at the points it gives the stretches of the draft, blanks
apart. -/
inductive Follows : List Char → List Nat → Draft → Prop where
  | start {cs last : List Char} (h : solid cs = solid last) : Follows cs [] ⟨last, []⟩
  | mark {front back last s : List Char} {ps : List Nat} {older : List (List Char)}
      (h : Follows front ps ⟨s, older⟩) (hback : solid back = solid last) :
      Follows (front ++ back) (front.length :: ps) ⟨last, s :: older⟩

namespace Follows

variable {cs : List Char} {ps ps' : List Nat} {d : Draft}

theorem text_eq (h : Follows cs ps d) : solid cs = solid d.text := by
  induction h with
  | start h => simpa [Draft.text] using h
  | mark _ hback ih =>
    rw [Draft.text_eq] at ih ⊢
    simp_all

theorem le_length (h : Follows cs ps d) : ∀ p ∈ ps, p ≤ cs.length := by
  induction h with
  | start h => simp
  | mark _ _ ih =>
    intro p hp
    rw [List.length_append]
    rcases List.mem_cons.mp hp with rfl | hp
    · omega
    · have := ih p hp
      omega

theorem length_eq (h : Follows cs ps d) : ps.length = d.before.length := by
  induction h with
  | start h => rfl
  | mark _ _ ih => simp [ih]

theorem append {added written : List Char} (h : Follows cs ps d)
    (hadded : solid added = solid written) : Follows (cs ++ added) ps (d.append written) := by
  cases h with
  | start h => exact .start (by simp [h, hadded])
  | mark h hback =>
    rw [List.append_assoc]
    exact .mark h (by simp [hback, hadded])

theorem push (h : Follows cs ps d) : Follows cs (cs.length :: ps) d.mark := by
  have hmark : Follows (cs ++ []) (cs.length :: ps) ⟨[], d.last :: d.before⟩ := .mark h rfl
  rwa [List.append_nil] at hmark

theorem pop {p : Nat} (h : Follows cs (p :: ps) d) : Follows cs ps d.unmark := by
  cases h with
  | mark h hback => exact h.append hback

/-- Blanks may go from the end; points among them move back to where the text ends then. -/
theorem trim {kept cut : List Char} (h : Follows cs ps d) (hcs : cs = kept ++ cut)
    (hcut : solid cut = []) : Follows kept (ps.map (min · kept.length)) d := by
  induction h generalizing kept cut with
  | start h =>
    subst hcs
    exact .start (by simpa [hcut] using h)
  | @mark front back last s ps older h hback ih =>
    rw [List.map_cons]
    rcases List.append_eq_append_iff.mp hcs with ⟨more, rfl, rfl⟩ | ⟨gone, rfl, rfl⟩
    · -- All that goes stands behind the newest mark.
      have hstay : ps.map (min · (front ++ more).length) = ps := by
        refine (List.map_congr_left ?_).trans (List.map_id ps)
        intro p hp
        have := h.le_length p hp
        simp only [List.length_append, id]
        omega
      rw [hstay, Nat.min_eq_left (by simp)]
      exact .mark h (by simpa [hcut] using hback)
    · simp only [solid_append, List.append_eq_nil_iff] at hcut
      have hfront := ih rfl hcut.1
      rw [Nat.min_eq_right (by simp)]
      have hmark : Follows (kept ++ []) (kept.length :: ps.map (min · kept.length))
          ⟨last, s :: older⟩ := .mark hfront (hcut.2.symm.trans hback)
      rwa [List.append_nil] at hmark

/-- Text for a mark goes to the point of that mark, and newer points move on. -/
theorem insert {depth p : Nat} (h : Follows cs ps d) (hp : ps[depth]? = some p)
    (added : List Char) :
    Follows (cs.take p ++ added ++ cs.drop p)
      ((ps.take depth).map (· + added.length) ++ ps.drop depth) (d.insert depth added) := by
  induction h generalizing depth with
  | start h => simp at hp
  | @mark front back last s ps older h hback ih =>
    cases depth with
    | zero =>
      obtain rfl : front.length = p := by simpa using hp
      simp only [List.take_left, List.drop_left, List.take_zero, List.map_nil, List.nil_append,
        List.drop_zero, List.append_assoc]
      exact .mark h (by simp [hback])
    | succ depth =>
      have hp : ps[depth]? = some p := by simpa using hp
      have hle : p ≤ front.length := h.le_length p (List.mem_of_getElem? hp)
      have hfront := ih hp
      have hlength : (front.take p ++ added ++ front.drop p).length =
          front.length + added.length := by
        simp only [List.length_append, List.length_take, List.length_drop]
        omega
      have hmark : Follows ((front.take p ++ added ++ front.drop p) ++ back)
          ((front.length + added.length) ::
            ((ps.take depth).map (· + added.length) ++ ps.drop depth))
          (Draft.insert ⟨last, s :: older⟩ (depth + 1) added) := by
        rw [← hlength]
        cases depth with
        | zero => exact .mark hfront hback
        | succ depth => exact .mark hfront hback
      simpa [List.take_append_of_le_length hle, List.drop_append_of_le_length hle] using hmark

/-- What an operation writes at the end of the output is appended to the draft. -/
theorem writes {o o' : Output} {w : Writing} {i : Int} (h : Follows o.text o.points d)
    (hw : Writes w i o o') : Follows o'.text o'.points (d.append w.text) := by
  obtain ⟨kept, cut, added, hrep, hcut, hadded⟩ := hw.tail
  have hpoints : o'.points = o.points.map (min · kept.length) := hrep.points.eq_map h.le_length
  rw [hrep.after, hpoints]
  exact (h.trim hrep.before hcut).append hadded

end Follows

namespace Operation

variable {o : Output} {d : Draft} {op : Operation}

theorem follows_apply (h : Follows o.text o.points d) (hop : op.Admits o)
    (hsep : op ≠ .separate) :
    Follows (op.apply o).text (op.apply o).points (d.apply o op) := by
  cases hend : op.atEnd with
  | true =>
    obtain ⟨indent, hw⟩ := writes_apply o hend
    have hdraft : d.apply o op = d.append (op.writing o).text := by
      cases op <;> first | rfl | cases hend
    rw [hdraft]
    exact h.writes hw
  | false =>
    cases op with
    | separate => exact absurd rfl hsep
    | pushPoint =>
      show Follows o.pushPoint.text o.pushPoint.points d.mark
      rw [text_pushPoint, points_pushPoint]
      exact h.push
    | popPoint =>
      show Follows o.popPoint.text o.popPoint.points d.unmark
      rw [text_popPoint, points_popPoint]
      cases hps : o.points with
      | nil => simp [Admits, hps] at hop
      | cons p ps =>
        rw [hps] at h
        exact h.pop
    | insertAt depth cs =>
      obtain ⟨p, hp⟩ : ∃ p, o.points[depth]? = some p := ⟨_, List.getElem?_eq_getElem hop⟩
      obtain ⟨htext, hpoints⟩ := insertAt_eq hp cs
      show Follows (o.insertAt depth cs).text (o.insertAt depth cs).points (d.insert depth cs)
      rw [htext, hpoints]
      exact h.insert hp cs
    | _ => cases hend

end Operation

namespace Draft

/-- Behind a mark text comes into one place. -/
theorem insert_text {d : Draft} {depth : Nat} (h : depth < d.before.length) (cs : List Char) :
    ∃ front back, d.text = front ++ back ∧ (d.insert depth cs).text = front ++ cs ++ back := by
  cases depth with
  | zero => exact ⟨d.before.reverse.flatten, d.last, d.text_eq, by simp [text_eq, insert]⟩
  | succ depth =>
    obtain ⟨newer, s, older, hbefore, -, hmodify⟩ :=
      List.exists_of_modify (cs ++ ·) (show depth < d.before.length by omega)
    refine ⟨older.reverse.flatten, s ++ newer.reverse.flatten ++ d.last, ?_, ?_⟩
    · simp [text_eq, hbefore]
    · simp [text_eq, insert, hmodify]

/-- An operation brings what it adds into one place of the draft. -/
theorem apply_text {d : Draft} {o : Output} {op : Operation} (h : Follows o.text o.points d)
    (hop : op.Admits o) :
    ∃ front back, d.text = front ++ back ∧ (d.apply o op).text = front ++ op.added o ++ back := by
  have happend (cs : List Char) :
      ∃ front back, d.text = front ++ back ∧ (d.append cs).text = front ++ cs ++ back :=
    ⟨d.text, [], by simp, by simp [text_eq, append]⟩
  cases op with
  | insertAt depth cs => exact insert_text (h.length_eq ▸ hop) cs
  | pushPoint =>
    exact ⟨d.text, [], by simp, by simp [apply, mark, text, Operation.added, Operation.writing]⟩
  | popPoint =>
    refine ⟨d.text, [], by simp, ?_⟩
    unfold apply unmark
    cases hbefore : d.before <;> simp [text, Operation.added, Operation.writing, hbefore]
  | _ => exact happend _

end Draft

namespace Output

variable {o : Output} {d : Draft} {ops : List Operation}

theorem follows_run (h : Follows o.text o.points d) (hops : o.Admits ops)
    (hsep : ∀ op ∈ ops, op ≠ .separate) :
    Follows (o.run ops).text (o.run ops).points (d.run o ops) := by
  induction ops generalizing o d with
  | nil => exact h
  | cons op rest ih =>
    have hstep := op.follows_apply h hops.1 (hsep op (by simp))
    exact ih hstep hops.2 fun op hop => hsep op (by simp [hop])

/-- A run removes and reorders nothing but blanks, and brings in each added character once. -/
theorem run_keeps (h : Follows o.text o.points d) (hops : o.Admits ops)
    (hsep : ∀ op ∈ ops, op ≠ .separate) :
    (solid o.text).Sublist (solid (o.run ops).text) ∧
      List.Perm (solid (o.run ops).text) (solid o.text ++ solid (o.added ops)) := by
  induction ops generalizing o d with
  | nil => exact ⟨List.Sublist.refl _, by simp [added]⟩
  | cons op rest ih =>
    have hstep := op.follows_apply h hops.1 (hsep op (by simp))
    obtain ⟨hsub, hperm⟩ := ih hstep hops.2 fun op hop => hsep op (by simp [hop])
    obtain ⟨front, back, hbefore, hafter⟩ := Draft.apply_text h hops.1
    have htext : solid o.text = solid front ++ solid back := by
      rw [h.text_eq, hbefore, solid_append]
    have htext' : solid (op.apply o).text = solid front ++ solid (op.added o) ++ solid back := by
      rw [hstep.text_eq, hafter, solid_append, solid_append]
    rw [run_cons, added, solid_append]
    constructor
    · refine List.Sublist.trans ?_ hsub
      rw [htext, htext', List.append_assoc]
      exact (List.sublist_append_right _ _).append_left _
    · refine hperm.trans ?_
      rw [htext, htext', ← List.append_assoc]
      apply List.Perm.append_right
      rw [List.append_assoc, List.append_assoc]
      exact List.perm_append_comm.append_left _

theorem Admits.of_append {earlier later : List Operation} (h : o.Admits (earlier ++ later)) :
    o.Admits earlier ∧ (o.run earlier).Admits later := by
  induction earlier generalizing o with
  | nil => exact ⟨trivial, h⟩
  | cons op rest ih =>
    obtain ⟨hrest, hlater⟩ := ih h.2
    exact ⟨⟨h.1, hrest⟩, hlater⟩

end Output

/-- Without separations the output loses and misplaces nothing. After every run it holds the text of
the ideal editor, spaces and tabs apart; and whatever it held earlier in the run it still holds, in
the same order, together with each character that came since, once. -/
theorem output_follows_draft (ops : List Operation) (hops : Output.Admits {} ops)
    (hsep : ∀ op ∈ ops, op ≠ .separate) :
    solid (Output.run {} ops).text = solid (Draft.run {} {} ops).text ∧
      ∀ earlier later, ops = earlier ++ later →
        (solid (Output.run {} earlier).text).Sublist (solid (Output.run {} ops).text) ∧
          (solid (Output.run {} ops).text).Perm
            (solid (Output.run {} earlier).text ++
              solid ((Output.run {} earlier).added later)) := by
  have hstart : Follows ({} : Output).text ({} : Output).points {} := .start rfl
  refine ⟨(follows_run hstart hops hsep).text_eq, ?_⟩
  rintro earlier later rfl
  obtain ⟨hearlier, hlater⟩ := hops.of_append
  have hfollows := follows_run hstart hearlier fun op hop => hsep op (by simp [hop])
  rw [run_append]
  exact run_keeps hfollows hlater fun op hop => hsep op (by simp [hop])

/-- A function with its brace on a line of its own, so that the point before the brace moves back
over a blank; both points get text twice. -/
def bracedRun : List Operation :=
  [.emit "function () ", .pushPoint, .newline, .openBlock "\x7b", .pushPoint, .newline, .emit "$x",
    .ensureTerminator, .insertAt 0 "global $y;".toList, .insertAt 1 "two ".toList,
    .insertAt 1 "one ".toList, .insertAt 0 "global $x;".toList, .popPoint, .closeBlock 1 "\x7d",
    .popPoint]

theorem output_follows_draft_braced :
    (Output.run {} bracedRun).text =
        "function ()one two \n\x7bglobal $x;global $y;\n\t$x;\n\x7d".toList ∧
      solid (Output.run {} bracedRun).text = solid (Draft.run {} {} bracedRun).text ∧
      ∀ earlier later, bracedRun = earlier ++ later →
        (solid (Output.run {} earlier).text).Sublist (solid (Output.run {} bracedRun).text) ∧
          List.Perm (solid (Output.run {} bracedRun).text)
            (solid (Output.run {} earlier).text ++
              solid ((Output.run {} earlier).added later)) :=
  ⟨by decide +kernel, output_follows_draft bracedRun (by decide +kernel) (by simp [bracedRun])⟩

end EcmaPhp
