import EcmaPhp.Proofs.Output.Insertion
import EcmaPhp.Proofs.Script.Steps

/-! What is put at an insertion point stands where the point was made, as long as no separation has
written the text before the point anew. -/
namespace EcmaPhp
open Output Script

namespace Step

/-- A separation that writes anew some text before an offset. -/
def Reaches (offset : Nat) : Step → Prop
  | .separation s => s.output.SeparationReaches offset
  | _ => False

/-- Text that is put at the newest of `level` points. -/
def Puts (level : Nat) : Step → Prop
  | .action (.edit (.insert cs)) s =>
    cs ≠ [] ∧ s.output.points ≠ [] ∧ s.output.points.length = level
  | _ => False

instance (offset : Nat) (x : Step) : Decidable (x.Reaches offset) :=
  match x with
  | .separation s => inferInstanceAs (Decidable (s.output.SeparationReaches offset))
  | .action _ _ | .frame _ _ _ | .function _ => inferInstanceAs (Decidable False)

instance (level : Nat) (x : Step) : Decidable (x.Puts level) := by
  unfold Puts
  split <;> infer_instance

theorem not_reaches_zero (x : Step) : ¬ x.Reaches 0 := by
  cases x with
  | separation s => exact s.output.not_separationReaches_zero
  | action a s => exact not_false
  | frame f body s => exact not_false
  | function r => exact not_false

theorem not_puts_zero (x : Step) : ¬ x.Puts 0 := by
  intro h
  unfold Puts at h
  split at h
  · exact h.2.1 (List.length_eq_zero_iff.mp h.2.2)
  · exact h

theorem Reaches.mono {x : Step} {m n : Nat} (h : x.Reaches m) (hle : m ≤ n) : x.Reaches n := by
  cases x with
  | separation s => exact ⟨h.1, lt_of_lt_of_le h.2 (Nat.add_le_add_right hle _)⟩
  | action a s => exact h
  | frame f body s => exact h
  | function r => exact h

end Step

namespace FunctionRun

variable (env : EmitEnv) (r : FunctionRun)

/-- The steps of the body. -/
def inner : List Step := r.body.steps env (r.shape.enter r.brace)

/-- What stands before the brace. -/
def signed : List Char := r.brace.output.text ++ r.shape.signature.text.toList

/-- What stands before the body. -/
def opened : List Char := r.signed ++ ['\x7b']

def clause : List Char := r.shape.form.clause r.stop.captures

def statements : List Char :=
  r.shape.form.statements (r.stop.output.gap (r.stop.output.line != r.brace.output.line))
    r.stop.captures

/-- The function from its brace on, with the end of its signature before it. -/
def written (inside : List Char) : List Char :=
  r.shape.signature.text.toList ++ r.clause ++ ['\x7b'] ++ r.statements ++ inside ++ ['\x7d']

/-- Neither side of the brace gets text after a separation has moved its point. -/
def InPlace : Prop :=
  (r.clause ≠ [] → ∀ x ∈ r.inner env, ¬ x.Reaches r.signed.length) ∧
    (r.statements ≠ [] ∨ (∃ x ∈ r.inner env, x.Puts (r.brace.output.points.length + 2)) →
      ∀ x ∈ r.inner env, ¬ x.Reaches r.opened.length)

instance : Decidable (r.InPlace env) := inferInstanceAs (Decidable (_ ∧ _))

end FunctionRun

/-- No text is put at a point of this step after a separation has moved the point. -/
def Step.InPlace (env : EmitEnv) : Step → Prop
  | .frame .point body s =>
    (∃ x ∈ body.steps env (Frame.point.enter s), x.Puts (s.output.points.length + 1)) →
      ∀ x ∈ body.steps env (Frame.point.enter s), ¬ x.Reaches s.output.text.length
  | .function r => r.InPlace env
  | _ => True

instance (env : EmitEnv) (x : Step) : Decidable (x.InPlace env) := by
  unfold Step.InPlace
  split <;> infer_instance

namespace Script

variable {h : Bool} {pre : List Char} {xs ys zs : List Step} {o o' o'' : Output}

/-- A start of the text stays from one output to another, and so do the points in it that no
separation reaches. -/
structure Held (h : Bool) (pre : List Char) (xs : List Step) (o o' : Output) : Prop where
  anchored : Anchored h pre o'.text
  points : ∀ floor ≤ pre.length, (∀ x ∈ xs, ¬ x.Reaches floor) → Retreat floor o.points o'.points

namespace Held

theorem refl (ha : Anchored h pre o.text) : Held h pre xs o o :=
  ⟨ha, fun floor _ _ => Retreat.refl floor _⟩

theorem of_revises (ha : Anchored h pre o.text) (hr : Revises o o') : Held h pre xs o o' := by
  obtain ⟨ha', hpoints⟩ := hr.anchored_stays ha
  exact ⟨ha', fun floor hfloor _ => hpoints.mono hfloor⟩

theorem trans {h' : Bool} (hxy : Held h' pre xs o o') (hyz : Held h pre xs o' o'') :
    Held h pre xs o o'' :=
  ⟨hyz.anchored, fun floor hfloor hx =>
    (hxy.points floor hfloor hx).trans (hyz.points floor hfloor hx)⟩

theorem mono (hxy : Held h pre xs o o') (hsub : xs ⊆ ys) : Held h pre ys o o' :=
  ⟨hxy.anchored, fun floor hfloor hx => hxy.points floor hfloor fun x hmem => hx x (hsub hmem)⟩

theorem length_points (hxy : Held h pre xs o o') : o'.points.length = o.points.length :=
  (hxy.points 0 (Nat.zero_le _) fun x _ => x.not_reaches_zero).length_eq

end Held

/-- The steps put nothing at the newest point, or it lies behind the start of the text and stays
there. -/
def Ready (pre : List Char) (xs : List Step) (o : Output) : Prop :=
  (∀ x ∈ xs, ¬ x.Puts o.points.length) ∨
    (∀ p ∈ o.points.head?, pre.length ≤ p) ∧ ∀ x ∈ xs, ¬ x.Reaches pre.length

theorem Ready.mono (hready : Ready pre xs o) (hsub : ys ⊆ xs) : Ready pre ys o :=
  hready.imp (fun hputs x hx => hputs x (hsub hx))
    (And.imp_right fun hreach x hx => hreach x (hsub hx))

theorem Ready.step (hready : Ready pre xs o) (hheld : Held h pre xs o o') : Ready pre xs o' := by
  rcases hready with hputs | ⟨hpoint, hreach⟩
  · left
    rw [hheld.length_points]
    exact hputs
  · refine .inr ⟨?_, hreach⟩
    have hpoints := hheld.points pre.length (le_refl _) hreach
    generalize o.points = ps at hpoint hpoints
    generalize o'.points = ps' at hpoints
    cases hpoints with
    | nil => simp
    | cons hp _ =>
      have := hpoint _ rfl
      rintro p ⟨⟩
      omega

/-- What an action does to the output leaves the start of the text alone. -/
theorem held_action {x : Action} {s : EmitState} (ha : Anchored h pre s.output.text)
    (hready : Ready pre xs s.output) (hmem : .action x s ∈ xs) :
    Held h pre xs s.output (x.apply s).output := by
  rcases x.output_cases s with hgrows | ⟨cs, p, ps, rfl, hcs, hps⟩
  · exact .of_revises ha hgrows.revises
  · have hpoint : s.output.points[0]? = some p := by rw [hps]; rfl
    obtain ⟨htext, hpoints⟩ := insertAt_eq hpoint cs
    have hp : pre.length ≤ p := by
      rcases hready with hputs | ⟨hpoint, -⟩
      · exact absurd ⟨hcs, by simp [hps], rfl⟩ (hputs _ hmem)
      · exact hpoint p (by simp [hps])
    refine ⟨htext.symm ▸ ha.insert hp cs, fun floor _ _ => hpoints.symm ▸ Retreat.refl floor _⟩

end Script

namespace FunctionRun

variable {env : EmitEnv} {r : FunctionRun} {h : Bool}

theorem endsSolid_opened : EndsSolid true r.opened :=
  ⟨r.signed, '\x7b', rfl, by decide, fun _ => by decide⟩

/-- The output as it opens the braces of a function. -/
theorem enter_output (r : FunctionRun) :
    (r.shape.enter r.brace).output.text = r.opened ++ (if r.shape.padded then [' '] else []) ∧
      (r.shape.enter r.brace).output.points =
        r.opened.length :: r.signed.length :: r.brace.output.points := by
  have hopen (o : Output) : (o.openBlock "\x7b").text = o.text ++ ['\x7b'] ∧
      (o.openBlock "\x7b").points = o.points := by
    have hbrace : ¬ ['\t'] <:+ ['\x7b'] := by decide
    simp [openBlock, increaseIndent, emit, emitChars, endsWith, Chunks.lastChunks, Chunks.joinLast,
      Chunks.push, Chunks.text, Output.text, hbrace]
  simp only [FunctionShape.enter, EmitState.onOutput, openBraces, opened, signed]
  split <;> simp [hopen]

theorem bounded_enter (hb : Bounded r.brace.output) : Bounded (r.shape.enter r.brace).output := by
  intro p hp
  rw [(enter_output r).1, List.length_append]
  rw [(enter_output r).2] at hp
  have hlength : r.opened.length = r.signed.length + 1 := by simp [opened]
  have hsigned : r.brace.output.text.length ≤ r.signed.length := by simp [signed]
  simp only [List.mem_cons] at hp
  rcases hp with rfl | rfl | hp
  · omega
  · omega
  · have := hb p hp
    omega

theorem opened_prefix_enter : r.opened <+: (r.shape.enter r.brace).output.text := by
  rw [(enter_output r).1]
  exact List.prefix_append _ _

/-- What the body puts at the newest point stands behind the brace. -/
theorem InPlace.ready (hplace : r.InPlace env) :
    Ready r.opened (r.inner env) (r.shape.enter r.brace).output := by
  have hpoints := (enter_output r).2
  by_cases hputs : ∃ x ∈ r.inner env, x.Puts (r.brace.output.points.length + 2)
  · refine .inr ⟨?_, hplace.2 (.inr hputs)⟩
    rw [hpoints]
    rintro p ⟨⟩
    exact le_refl _
  · left
    rw [hpoints]
    exact fun x hx hput => hputs ⟨x, hx, hput⟩

/-- The captures go to the two newest points, first to the older one. -/
theorem insertCaptures_eq {o : Output} {p₀ p₁ : Nat} {ps : List Nat}
    (hps : o.points = p₀ :: p₁ :: ps)
    (form : FunctionForm) (names : List String) (multiline : Bool) :
    (o.insertCaptures form names multiline).text =
        (o.text.take p₁ ++ form.clause names ++ o.text.drop p₁).take
          (p₀ + (form.clause names).length) ++
          form.statements (o.gap multiline) names ++
          (o.text.take p₁ ++ form.clause names ++ o.text.drop p₁).drop
            (p₀ + (form.clause names).length) ∧
      (o.insertCaptures form names multiline).points =
        (p₀ + (form.clause names).length) :: p₁ :: ps ∧
      (Bounded o → Bounded (o.insertCaptures form names multiline)) := by
  have hold : o.points[1]? = some p₁ := by rw [hps]; rfl
  obtain ⟨htext₁, hpoints₁⟩ := insertAt_eq hold (form.clause names)
  have hpoints₁ : (o.insertAt 1 (form.clause names)).points =
      (p₀ + (form.clause names).length) :: p₁ :: ps := by
    rw [hpoints₁, hps]
    rfl
  have hnew : (o.insertAt 1 (form.clause names)).points[0]? =
      some (p₀ + (form.clause names).length) := by
    rw [hpoints₁]
    rfl
  obtain ⟨htext₂, hpoints₂⟩ := insertAt_eq hnew (form.statements (o.gap multiline) names)
  rw [htext₁] at htext₂
  refine ⟨htext₂, hpoints₂.trans ?_, fun hb => bounded_insertAt hnew (bounded_insertAt hold hb _) _⟩
  rw [hpoints₁]
  rfl

/-- The output after the captures are put in. -/
theorem InPlace.insertCaptures_output (hplace : r.InPlace env)
    (hheld : Held h r.opened (r.inner env) (r.shape.enter r.brace).output r.stop.output) :
    ∃ rest p₀ p₁ ps,
      (r.stop.output.insertCaptures r.shape.form r.stop.captures
        (r.stop.output.line != r.brace.output.line)).text =
        r.signed ++ r.clause ++ ['\x7b'] ++ r.statements ++ rest ∧
      (r.stop.output.insertCaptures r.shape.form r.stop.captures
        (r.stop.output.line != r.brace.output.line)).points = p₀ :: p₁ :: ps ∧
      r.stop.output.points.drop 2 = ps := by
  obtain ⟨rest, hrest⟩ := hheld.anchored.isPrefix
  have hpoints := (enter_output r).2
  -- Both points of the function are still there, and those that get text have not moved.
  obtain ⟨p₀, p₁, ps, hps⟩ : ∃ p₀ p₁ ps, r.stop.output.points = p₀ :: p₁ :: ps := by
    have hlength := hheld.length_points
    rw [hpoints] at hlength
    match hps : r.stop.output.points with
    | [] | [_] => simp [hps] at hlength
    | p₀ :: p₁ :: ps => exact ⟨p₀, p₁, ps, rfl⟩
  have hclause (hne : r.clause ≠ []) : p₁ = r.signed.length := by
    have hkept := hheld.points r.signed.length (by simp [opened]) (hplace.1 hne)
    simp only [hpoints, hps, Retreat, List.forall₂_cons] at hkept
    omega
  have hstatements (hne : r.statements ≠ []) : p₀ = r.opened.length := by
    have hkept := hheld.points r.opened.length (le_refl _) (hplace.2 (.inl hne))
    simp only [hpoints, hps, Retreat, List.forall₂_cons] at hkept
    omega
  obtain ⟨htext, hpoints, -⟩ := insertCaptures_eq hps r.shape.form r.stop.captures
    (r.stop.output.line != r.brace.output.line)
  have hbefore : r.stop.output.text.take p₁ ++ r.clause ++ r.stop.output.text.drop p₁ =
      r.signed ++ r.clause ++ ['\x7b'] ++ rest := by
    rw [← hrest, opened]
    by_cases hne : r.clause = []
    · simp [hne]
    · simp [hclause hne]
  rw [← clause, ← statements, hbefore] at htext
  refine ⟨rest, p₀ + r.clause.length, p₁, ps, htext.trans ?_, hpoints, by rw [hps]; rfl⟩
  by_cases hne : r.statements = []
  · simp [hne]
  · have hlength : p₀ + r.clause.length = (r.signed ++ r.clause ++ ['\x7b']).length := by
      simp only [hstatements hne, opened, List.length_append]
      omega
    rw [hlength, List.take_left, List.drop_left]

theorem endsSolid_statements (hne : r.statements ≠ []) : EndsSolid false r.statements := by
  rw [statements] at hne ⊢
  cases hform : r.shape.form with
  | closure => simp [hform, FunctionForm.statements] at hne
  | global =>
    rcases List.eq_nil_or_concat r.stop.captures with hnil | ⟨names, name, hcaptures⟩
    · simp [hform, hnil, FunctionForm.statements] at hne
    · have hlast : EndsSolid false (FunctionForm.listing .global name).toList :=
        ⟨("global $" ++ name).toList, ';', by simp [FunctionForm.listing], by decide, by simp⟩
      simp only [hcaptures, List.concat_eq_append, FunctionForm.statements, List.flatMap_append,
        List.flatMap_singleton]
      exact (hlast.append _).append _

/-- The braces of a function close behind its body, which they leave alone but for blanks. -/
theorem closeInline_eq (o : Output) (shape : FunctionShape) (firstLine : Int) :
    ∃ o₁ pad, Revises o o₁ ∧
      (o.closeInline firstLine (if shape.padded then " \x7d" else "\x7d") "\x7d").text =
        o₁.text ++ (pad ++ ['\x7d']) ∧
      (o.closeInline firstLine (if shape.padded then " \x7d" else "\x7d") "\x7d").points =
        o₁.points := by
  rw [closeInline]
  split
  · refine ⟨o.decreaseIndent, if shape.padded then [' '] else [], (grows_decreaseIndent o).revises, ?_,
      by simp⟩
    split <;> simp
  · rename_i hline
    refine ⟨o.ensureNewline.decreaseIndent, [],
      ((grows_ensureNewline o).trans (grows_decreaseIndent _)).revises, ?_, ?_⟩
    · simp [closeBlock, hline]
    · simp [closeBlock, hline]

/-- A function at its end: what was there when its brace was opened, followed by the function with
its captures directly at the brace. -/
theorem InPlace.exit_output (hplace : r.InPlace env)
    (hheld : Held h r.opened (r.inner env) (r.shape.enter r.brace).output r.stop.output) :
    ∃ inside, (r.shape.exit r.brace r.stop).output.text = r.brace.output.text ++ r.written inside ∧
      Retreat r.brace.output.text.length (r.stop.output.points.drop 2)
        (r.shape.exit r.brace r.stop).output.points := by
  obtain ⟨rest, p₀, p₁, ps, htext, hpoints, hps⟩ := hplace.insertCaptures_output hheld
  obtain ⟨o₁, pad, hrev, htext₁, hpoints₁⟩ := closeInline_eq
    (r.stop.output.insertCaptures r.shape.form r.stop.captures
      (r.stop.output.line != r.brace.output.line)).popPoint.popPoint r.shape r.brace.output.line
  have hsolid : EndsSolid false (r.signed ++ r.clause ++ ['\x7b'] ++ r.statements) := by
    by_cases hne : r.statements = []
    · rw [hne, List.append_nil]
      exact ⟨_, '\x7b', rfl, by decide, by simp⟩
    · exact (endsSolid_statements hne).append _
  obtain ⟨⟨inside, hinside⟩, hretreat⟩ := hrev.prefix_stays hsolid (by
    simp only [text_popPoint, htext]
    exact List.prefix_append _ _)
  refine ⟨inside ++ pad, ?_, ?_⟩
  · refine htext₁.trans ?_
    rw [← hinside]
    simp [written, signed]
  · simp only [points_popPoint, hpoints, List.drop_succ_cons, List.drop_zero] at hretreat
    rw [hps]
    change Retreat _ ps (closeInline _ _ _ _).points
    rw [hpoints₁]
    exact hretreat.mono (by simp only [signed, List.length_append]; omega)

/-- From brace to brace a function leaves what stands before it alone. -/
theorem InPlace.held_exit {pre : List Char} (hplace : r.InPlace env)
    (hheld : Held h r.opened (r.inner env) (r.shape.enter r.brace).output r.stop.output)
    (ha : Anchored h pre r.brace.output.text) :
    Held h pre (r.inner env) r.brace.output (r.shape.exit r.brace r.stop).output := by
  obtain ⟨inside, htext, hretreat⟩ := hplace.exit_output hheld
  have hpre : pre.length ≤ r.brace.output.text.length := ha.isPrefix.length_le
  refine ⟨?_, fun floor hfloor hreach => ?_⟩
  · obtain ⟨held, hpre, hheld, hs⟩ := ha
    exact ⟨held, hpre, htext ▸ hheld.trans (List.prefix_append _ _), hs⟩
  · have hbody :=
      hheld.points floor (by simp only [opened, signed, List.length_append]; omega) hreach
    rw [(enter_output r).2] at hbody
    exact (hbody.drop 2).trans (hretreat.mono (hfloor.trans hpre))

end FunctionRun

namespace Script

variable {env : EmitEnv} {h : Bool} {α : Type} {m : Script h α} {s t : EmitState} {a : α}
  {xs : List Step} {pre : List Char}

/-- Inside an insertion point the start of the text stays. -/
theorem held_point {β : Type} {body : Script h β} {u : EmitState}
    (hin : Step.InPlace env (.frame .point body s))
    (hbody : Ready pre (body.steps env (Frame.point.enter s)) (Frame.point.enter s).output →
      Held h pre (body.steps env (Frame.point.enter s)) (Frame.point.enter s).output u.output)
    (ha : Anchored h pre s.output.text) :
    Held h pre (body.steps env (Frame.point.enter s)) s.output (Frame.point.exit s u).output := by
  have hpoints : (Frame.point.enter s).output.points = s.output.text.length :: s.output.points :=
    points_pushPoint s.output
  have hpre := ha.isPrefix.length_le
  have hready : Ready pre (body.steps env (Frame.point.enter s)) (Frame.point.enter s).output := by
    by_cases hputs : ∃ x ∈ body.steps env (Frame.point.enter s), x.Puts (s.output.points.length + 1)
    · refine .inr ⟨?_, fun x hx hreach => hin hputs x hx (hreach.mono hpre)⟩
      rw [hpoints]
      rintro p ⟨⟩
      exact hpre
    · left
      rw [hpoints]
      exact fun x hx hput => hputs ⟨x, hx, hput⟩
  have hheld := hbody hready
  refine ⟨hheld.anchored, fun floor hfloor hreach => ?_⟩
  have hkept := (hheld.points floor hfloor hreach).drop 1
  rw [hpoints] at hkept
  exact hkept

/-- The parenthesis of a loop's head is what a separation in it cannot pass. -/
theorem anchored_head (ha : pre <+: s.output.text) :
    Anchored true pre (Frame.head.enter s).output.text := by
  have hs : EndsSolid true (s.output.text ++ ['(']) :=
    ⟨s.output.text, '(', rfl, by decide, fun _ => by decide⟩
  have hstays := (grows_increaseIndent (s.output.emit "(")).revises.prefix_stays hs (by simp)
  exact ⟨_, ha.trans (List.prefix_append _ _), hstays.1, hs⟩

/-- A run leaves a start of the text alone, if what it puts at the newest point stands behind it. -/
theorem Runs.held (hr : Runs env m s a t xs) (ha : Anchored h pre s.output.text)
    (hplace : ∀ x ∈ xs, x.InPlace env) (hready : Ready pre xs s.output) :
    Held h pre xs s.output t.output := by
  induction hr generalizing pre with
  | pure a s => exact .refl ha
  | ask _ ih => exact ih ha hplace hready
  | act rest ih =>
    have hfirst := held_action ha hready (List.mem_cons_self ..)
    have hrest := ih hfirst.anchored (fun x hx => hplace x (List.mem_cons_of_mem _ hx))
      ((hready.step hfirst).mono (List.subset_cons_self _ _))
    exact hfirst.trans (hrest.mono (List.subset_cons_self _ _))
  | @separate _ _ s _ _ ys rest ih =>
    have hfirst : Held true pre (.separation s :: ys) s.output s.output.terminatorToSeparator := by
      obtain ⟨held, hpre, hheld, hs⟩ := ha
      refine ⟨⟨held, hpre, separation_prefix_stays hs hheld, hs⟩, fun floor _ hreach => ?_⟩
      exact separation_retreat (hreach _ (List.mem_cons_self ..))
    have hrest := ih hfirst.anchored (fun x hx => hplace x (List.mem_cons_of_mem _ hx))
      ((hready.step hfirst).mono (List.subset_cons_self _ _))
    exact hfirst.trans (hrest.mono (List.subset_cons_self _ _))
  | @within h _ _ f body _ s _ u _ _ ys zs inner rest ihInner ihRest =>
    have hys : ys ⊆ .frame f body s :: (ys ++ zs) := fun _ hx => by simp [hx]
    have hzs : zs ⊆ .frame f body s :: (ys ++ zs) := fun _ hx => by simp [hx]
    have hinner : Held h pre (.frame f body s :: (ys ++ zs)) s.output (f.exit s u).output := by
      -- A point comes onto the stack of points and goes again; every other frame leaves the stack.
      by_cases hf : f = .point
      · subst hf
        have hsteps := inner.run_eq.2
        have hpoint := held_point (hplace _ (List.mem_cons_self ..))
          (fun hready' =>
            hsteps.symm ▸ ihInner ha (fun x hx => hplace x (hys hx)) (hsteps ▸ hready')) ha
        exact (hsteps ▸ hpoint).mono hys
      · have hfirst : Held h pre (.frame f body s :: (ys ++ zs)) s.output (f.enter s).output :=
          .of_revises ha (f.revises_enter s hf)
        have hbody := (ihInner hfirst.anchored (fun x hx => hplace x (hys hx))
          ((hready.step hfirst).mono hys)).mono hys
        exact (hfirst.trans hbody).trans (.of_revises hbody.anchored (f.revises_exit s u hf))
    have hrest :=
      ihRest hinner.anchored (fun x hx => hplace x (hzs hx)) ((hready.step hinner).mono hzs)
    exact hinner.trans (hrest.mono hzs)
  | @head h _ _ body _ s _ u _ _ ys zs inner rest ihInner ihRest =>
    have hys : ys ⊆ .frame .head body s :: (ys ++ zs) := fun _ hx => by simp [hx]
    have hzs : zs ⊆ .frame .head body s :: (ys ++ zs) := fun _ hx => by simp [hx]
    have hfirst : Held true pre (.frame .head body s :: (ys ++ zs)) s.output
        (Frame.head.enter s).output :=
      ⟨anchored_head ha.isPrefix,
        (Held.of_revises ha (Frame.head.revises_enter s (by simp [Frame.head]))).points⟩
    have hbody := (ihInner hfirst.anchored (fun x hx => hplace x (hys hx))
      ((hready.step hfirst).mono hys)).mono hys
    have hlast : Held h pre (.frame .head body s :: (ys ++ zs)) u.output
        (Frame.head.exit s u).output :=
      .of_revises hbody.anchored.outside (Frame.head.revises_exit s u (by simp [Frame.head]))
    have hinner := (hfirst.trans hbody).trans hlast
    have hrest :=
      ihRest hinner.anchored (fun x hx => hplace x (hzs hx)) ((hready.step hinner).mono hzs)
    exact hinner.trans (hrest.mono hzs)
  | @function h _ shape params body _ s _ u v _ ws ys zs first inner rest ihFirst ihInner ihRest =>
    let r : FunctionRun := ⟨h, shape, params, body, s, u, v⟩
    have hws : ws ⊆ ws ++ (ys ++ .function r :: zs) := fun _ hx => by simp [hx]
    have hys : ys ⊆ ws ++ (ys ++ .function r :: zs) := fun _ hx => by simp [hx]
    have hzs : zs ⊆ ws ++ (ys ++ .function r :: zs) := fun _ hx => by simp [hx]
    have hfirst := (ihFirst ha (fun x hx => hplace x (hws hx)) (hready.mono hws)).mono hws
    have hr : r.InPlace env := hplace (.function r) (by simp [r])
    have hsteps : r.inner env = ys := inner.run_eq.2
    -- What the body has to keep is the text up to its own brace, and not `pre`.
    have hbody : Held h r.opened (r.inner env) (r.shape.enter r.brace).output r.stop.output :=
      hsteps.symm ▸ ihInner (.of_isPrefix r.endsSolid_opened.outside r.opened_prefix_enter)
        (fun x hx => hplace x (hys hx)) (hsteps ▸ hr.ready)
    have hinner := hfirst.trans ((hr.held_exit hbody hfirst.anchored).mono (hsteps.symm ▸ hys))
    have hrest :=
      ihRest hinner.anchored (fun x hx => hplace x (hzs hx)) ((hready.step hinner).mono hzs)
    exact hinner.trans (hrest.mono hzs)

end Script
end EcmaPhp
