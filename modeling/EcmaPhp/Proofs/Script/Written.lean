import EcmaPhp.Proofs.Script.Placement

/-! What a function has written stays in one piece until the end of the run. -/
namespace EcmaPhp
open Output Script

namespace Output

variable {o o' o'' : Output} {front block : List Char}

/-- A piece of the text stands behind `front`, and no point lies behind the start of the piece. -/
structure Contains (front block : List Char) (o : Output) : Prop where
  text : front ++ block <+: o.text
  points : ∀ p ∈ o.points, p ≤ front.length

/-- Wherever a piece of the text stands, it stays in one piece, and all that stands before it stays
before it. -/
def Keeps (block : List Char) (o o' : Output) : Prop :=
  ∀ front, Contains front block o → ∃ front', front.Sublist front' ∧ Contains front' block o'

namespace Keeps

theorem refl (block : List Char) (o : Output) : Keeps block o o :=
  fun front hc => ⟨front, List.Sublist.refl front, hc⟩

theorem trans (h : Keeps block o o') (h' : Keeps block o' o'') : Keeps block o o'' := by
  intro front hc
  obtain ⟨front₁, hsub, hc₁⟩ := h front hc
  obtain ⟨front₂, hsub', hc₂⟩ := h' front₁ hc₁
  exact ⟨front₂, hsub.trans hsub', hc₂⟩

/-- What leaves every start of the text alone keeps the pieces in it. -/
theorem of_held {h : Bool} {xs : List Step} (hs : EndsSolid true block)
    (hheld : ∀ pre, Anchored h pre o.text → Held h pre xs o o') : Keeps block o o' := by
  intro front hc
  have held := hheld (front ++ block) (.of_isPrefix (hs.append front).outside hc.text)
  have hretreat := held.points 0 (Nat.zero_le _) fun x _ => x.not_reaches_zero
  exact ⟨front, List.Sublist.refl front, held.anchored.isPrefix, hretreat.le_of_forall_le hc.points⟩

theorem of_revises (hs : EndsSolid true block) (hr : Revises o o') : Keeps block o o' :=
  of_held hs fun pre ha => (Held.of_revises ha hr : Held false pre [] o o')

theorem separation (hs : EndsSolid true block) : Keeps block o o.terminatorToSeparator := by
  intro front hc
  exact ⟨front, List.Sublist.refl front, separation_prefix_stays (hs.append front) hc.text,
    (separation_retreat (not_separationReaches_zero _)).le_of_forall_le hc.points⟩

theorem popPoint : Keeps block o o.popPoint := fun front hc =>
  ⟨front, List.Sublist.refl front, hc.text, fun p hp => hc.points p (List.mem_of_mem_drop hp)⟩

/-- Text goes before the piece, since all points lie there. -/
theorem insertAt {depth p : Nat} (h : o.points[depth]? = some p) (cs : List Char) :
    Keeps block o (o.insertAt depth cs) := by
  intro front hc
  obtain ⟨htext, hpoints⟩ := insertAt_eq h cs
  obtain ⟨rest, hrest⟩ := hc.text
  have hp : p ≤ front.length := hc.points p (List.mem_of_getElem? h)
  have hlength : (front.take p ++ cs ++ front.drop p).length = front.length + cs.length := by
    simp only [List.length_append, List.length_take, List.length_drop]
    omega
  refine ⟨front.take p ++ cs ++ front.drop p, ?_, ?_, ?_⟩
  · nth_rw 1 [← List.take_append_drop p front]
    exact (List.sublist_append_left _ cs).append (List.Sublist.refl _)
  · rw [htext, ← hrest, List.append_assoc front, List.take_append_of_le_length hp,
      List.drop_append_of_le_length hp]
    simp
  · intro q hq
    rw [hlength]
    rw [hpoints] at hq
    rcases List.mem_append.mp hq with hq | hq
    · obtain ⟨q, hq', rfl⟩ := List.mem_map.mp hq
      exact Nat.add_le_add_right (hc.points q (List.mem_of_mem_take hq')) _
    · exact le_trans (hc.points q (List.mem_of_mem_drop hq)) (Nat.le_add_right _ _)

/-- The end of a function puts its captures before the pieces in its body. -/
theorem closeBraces {p₀ p₁ : Nat} {ps : List Nat} (hs : EndsSolid true block)
    (hps : o.points = p₀ :: p₁ :: ps) (shape : FunctionShape) (names : List String)
    (firstLine : Int) : Keeps block o (o.closeBraces shape names firstLine) := by
  have hold : o.points[1]? = some p₁ := by rw [hps]; rfl
  have hnew : (o.insertAt 1 (shape.form.clause names)).points[0]? =
      some (p₀ + (shape.form.clause names).length) := by
    rw [(insertAt_eq hold _).2, hps]
    rfl
  have hclause : Keeps block o _ := insertAt hold (shape.form.clause names)
  have hstatements : Keeps block _ _ :=
    insertAt hnew (shape.form.statements (o.gap (o.line != firstLine)) names)
  exact (((hclause.trans hstatements).trans popPoint).trans popPoint).trans
    (.of_revises hs (grows_closeInline _ _ _ _).revises)

end Keeps

/-- The end of a function leaves the points before its own where they are, blanks apart. -/
theorem closeBraces_points {p₀ p₁ : Nat} {ps : List Nat} (hps : o.points = p₀ :: p₁ :: ps)
    (shape : FunctionShape) (names : List String) (firstLine : Int) :
    Retreat 0 ps (o.closeBraces shape names firstLine).points ∧
      (Bounded o → Bounded (o.closeBraces shape names firstLine)) := by
  obtain ⟨-, hpoints, hbounded⟩ :=
    FunctionRun.insertCaptures_eq hps shape.form names (o.line != firstLine)
  have hrev := (grows_closeInline
    (o.insertCaptures shape.form names (o.line != firstLine)).popPoint.popPoint firstLine
    (if shape.padded then " \x7d" else "\x7d") "\x7d").revises
  constructor
  · have hretreat := hrev.retreat
    simp only [points_popPoint, hpoints, List.drop_succ_cons, List.drop_zero] at hretreat
    exact hretreat
  · intro hb
    exact hrev.bounded fun p hp => hbounded hb p (List.mem_of_mem_drop (List.mem_of_mem_drop hp))

end Output

theorem Action.points (x : Action) (s : EmitState) :
    Retreat 0 s.output.points (x.apply s).output.points ∧
      (Bounded s.output → Bounded (x.apply s).output) := by
  rcases x.output_cases s with hgrows | ⟨cs, p, ps, rfl, -, hps⟩
  · exact ⟨hgrows.revises.retreat, hgrows.revises.bounded⟩
  · have hpoint : s.output.points[0]? = some p := by rw [hps]; rfl
    have hsame : (s.output.insertAt 0 cs).points = s.output.points := (insertAt_eq hpoint cs).2
    exact ⟨hsame.symm ▸ Retreat.refl 0 s.output.points, fun hb => bounded_insertAt hpoint hb cs⟩

theorem Frame.bounded_enter (f : Frame) {s : EmitState} (hb : Bounded s.output) :
    Bounded (f.enter s).output := by
  by_cases hf : f = .point
  · subst hf
    intro p hp
    change p ∈ s.output.pushPoint.points at hp
    rw [points_pushPoint] at hp
    rcases List.mem_cons.mp hp with rfl | hp
    · exact le_refl _
    · exact hb p hp
  · exact (f.revises_enter s hf).bounded hb

theorem Frame.bounded_exit (f : Frame) (start : EmitState) {s : EmitState} (hb : Bounded s.output) :
    Bounded (f.exit start s).output := by
  by_cases hf : f = .point
  · subst hf
    exact fun p hp => hb p (List.mem_of_mem_drop hp)
  · exact (f.revises_exit start s hf).bounded hb

/-- The points before a frame are at its end where its body has left them, blanks apart. -/
theorem Frame.retreat_exit (f : Frame) (s t : EmitState)
    (hr : Retreat 0 (f.enter s).output.points t.output.points) :
    Retreat 0 s.output.points (f.exit s t).output.points := by
  by_cases hf : f = .point
  · subst hf
    have hpush : (Frame.point.enter s).output.points = s.output.text.length :: s.output.points :=
      points_pushPoint s.output
    rw [hpush] at hr
    exact hr.drop 1
  · exact ((f.revises_enter s hf).retreat.trans hr).trans (f.revises_exit s t hf).retreat

theorem Frame.points_exit_lt (f : Frame) (start : EmitState) {s : EmitState} {offset : Nat}
    (h : ∀ p ∈ s.output.points, p < offset) : ∀ p ∈ (f.exit start s).output.points, p < offset := by
  by_cases hf : f = .point
  · subst hf
    exact fun p hp => h p (List.mem_of_mem_drop hp)
  · exact (f.revises_exit start s hf).retreat.lt_of_forall_lt h

namespace Script

variable {env : EmitEnv} {h : Bool} {α : Type} {m : Script h α} {s t : EmitState} {a : α}
  {xs : List Step}

/-- A function has its two points at its end. -/
theorem exists_points_of_retreat {r : FunctionRun} {v : EmitState}
    (hr : Retreat 0 (r.shape.enter r.brace).output.points v.output.points) :
    ∃ p₀ p₁ ps, v.output.points = p₀ :: p₁ :: ps ∧ Retreat 0 r.brace.output.points ps := by
  rw [r.enter_output.2] at hr
  obtain ⟨p₀, rest, -, hrest, hps⟩ := List.forall₂_cons_left_iff.mp hr
  obtain ⟨p₁, ps, -, hretreat, rfl⟩ := List.forall₂_cons_left_iff.mp hrest
  exact ⟨p₀, p₁, ps, hps, hretreat⟩

/-- A run has as many points at its end as at its start; none has moved on, and none has come to lie
behind the end of the text. -/
theorem Runs.points (hr : Runs env m s a t xs) :
    Retreat 0 s.output.points t.output.points ∧ (Bounded s.output → Bounded t.output) := by
  induction hr with
  | pure a s => exact ⟨Retreat.refl 0 _, id⟩
  | ask _ ih => exact ih
  | @act _ _ x _ s _ _ _ _ ih =>
    exact ⟨(x.points s).1.trans ih.1, ih.2 ∘ (x.points s).2⟩
  | separate _ ih =>
    exact ⟨(separation_retreat (not_separationReaches_zero _)).trans ih.1,
      ih.2 ∘ bounded_separation⟩
  | @within _ _ _ f _ _ s _ u _ _ _ _ _ _ ihInner ihRest =>
    exact ⟨(f.retreat_exit s u ihInner.1).trans ihRest.1,
      fun hb => ihRest.2 (f.bounded_exit s (ihInner.2 (f.bounded_enter hb)))⟩
  | @head _ _ _ _ _ s _ u _ _ _ _ _ _ ihInner ihRest =>
    exact ⟨(Frame.head.retreat_exit s u ihInner.1).trans ihRest.1,
      fun hb => ihRest.2 (Frame.head.bounded_exit s (ihInner.2 (Frame.head.bounded_enter hb)))⟩
  | @function h _ shape params body _ s _ u v _ _ _ _ _ _ _ ihFirst ihInner ihRest =>
    let r : FunctionRun := ⟨h, shape, params, body, s, u, v⟩
    obtain ⟨p₀, p₁, ps, hps, hretreat⟩ := exists_points_of_retreat (r := r) ihInner.1
    have hclose := closeBraces_points hps shape v.captures u.output.line
    refine ⟨((ihFirst.1.trans hretreat).trans hclose.1).trans ihRest.1, fun hb => ?_⟩
    exact ihRest.2 (hclose.2 (ihInner.2 (r.bounded_enter (ihFirst.2 hb))))

/-- A separation that reaches behind an offset takes all points along. -/
theorem Runs.points_lt {offset : Nat} (hr : Runs env m s a t xs)
    (hreach : ∃ x ∈ xs, x.Reaches offset) : ∀ p ∈ t.output.points, p < offset := by
  induction hr with
  | pure a s => simp at hreach
  | ask _ ih => exact ih hreach
  | act rest ih => exact ih (by simpa [Step.Reaches] using hreach)
  | @separate _ _ s _ _ ys rest ih =>
    have hreach : s.output.SeparationReaches offset ∨ ∃ x ∈ ys, x.Reaches offset := by
      simpa [Step.Reaches] using hreach
    rcases hreach with hreach | hreach
    -- After this separation the points lie before the offset, and from there they only go back.
    · exact rest.points.1.lt_of_forall_lt (separation_points_lt hreach)
    · exact ih hreach
  | @within _ _ _ f _ _ s _ u _ _ ys zs inner rest ihInner ihRest =>
    have hreach : (∃ x ∈ ys, x.Reaches offset) ∨ ∃ x ∈ zs, x.Reaches offset := by
      simpa [Step.Reaches, or_and_right, exists_or] using hreach
    rcases hreach with hreach | hreach
    · exact rest.points.1.lt_of_forall_lt (f.points_exit_lt s (ihInner hreach))
    · exact ihRest hreach
  | @head _ _ _ _ _ s _ u _ _ ys zs inner rest ihInner ihRest =>
    have hreach : (∃ x ∈ ys, x.Reaches offset) ∨ ∃ x ∈ zs, x.Reaches offset := by
      simpa [Step.Reaches, or_and_right, exists_or] using hreach
    rcases hreach with hreach | hreach
    · exact rest.points.1.lt_of_forall_lt (Frame.head.points_exit_lt s (ihInner hreach))
    · exact ihRest hreach
  | @function h _ shape params body _ s _ u v _ ws ys zs first inner rest ihFirst ihInner ihRest =>
    let r : FunctionRun := ⟨h, shape, params, body, s, u, v⟩
    obtain ⟨p₀, p₁, ps, hps, hretreat⟩ := exists_points_of_retreat (r := r) inner.points.1
    have hclose := (closeBraces_points hps shape v.captures u.output.line).1
    have hreach : (∃ x ∈ ws, x.Reaches offset) ∨ (∃ x ∈ ys, x.Reaches offset) ∨
        ∃ x ∈ zs, x.Reaches offset := by
      simpa [Step.Reaches, or_and_right, exists_or] using hreach
    rcases hreach with hreach | hreach | hreach
    · exact ((hretreat.trans hclose).trans rest.points.1).lt_of_forall_lt (ihFirst hreach)
    · refine (hclose.trans rest.points.1).lt_of_forall_lt fun p hp => ihInner hreach p ?_
      rw [hps]
      simp [hp]
    · exact ihRest hreach

/-- Where the text for a brace does not come in place, its point lies before the brace. -/
theorem points_lt_of_not_inPlace {r : FunctionRun}
    (hr : Runs env r.body (r.shape.enter r.brace) () r.stop (r.inner env)) (hin : ¬ r.InPlace env) :
    r.clause ≠ [] ∧ (∀ p ∈ r.stop.output.points, p < r.signed.length) ∨
      (r.statements ≠ [] ∨ ∃ x ∈ r.inner env, x.Puts (r.brace.output.points.length + 2)) ∧
        ∀ p ∈ r.stop.output.points, p < r.opened.length := by
  rcases not_and_or.mp hin with hclause | hstatements
  · obtain ⟨hne, hreach⟩ := Classical.not_imp.mp hclause
    exact .inl ⟨hne, hr.points_lt (by simpa using hreach)⟩
  · obtain ⟨hputs, hreach⟩ := Classical.not_imp.mp hstatements
    exact .inr ⟨hputs, hr.points_lt (by simpa using hreach)⟩

/-- The body of a function leaves alone what stands before it. -/
theorem held_body {r : FunctionRun} (hin : r.InPlace env)
    (hr : Runs env r.body (r.shape.enter r.brace) () r.stop (r.inner env))
    (hplace : ∀ x ∈ r.inner env, x.InPlace env) :
    Held r.inHead r.opened (r.inner env) (r.shape.enter r.brace).output r.stop.output :=
  hr.held (.of_isPrefix r.endsSolid_opened.outside r.opened_prefix_enter) hplace hin.ready

/-- A run keeps every piece of the text that is there when it begins. -/
theorem Runs.keeps {block : List Char} (hr : Runs env m s a t xs) (hs : EndsSolid true block)
    (hplace : ∀ x ∈ xs, x.InPlace env) : Keeps block s.output t.output := by
  induction hr with
  | pure a s => exact .refl block s.output
  | ask _ ih => exact ih hplace
  | @act _ _ x _ s _ _ _ _ ih =>
    refine Keeps.trans ?_ (ih fun y hy => hplace y (List.mem_cons_of_mem _ hy))
    rcases x.output_cases s with hgrows | ⟨cs, p, ps, rfl, -, hps⟩
    · exact .of_revises hs hgrows.revises
    · exact .insertAt (by rw [hps]; rfl) cs
  | separate _ ih =>
    exact (Keeps.separation hs).trans (ih fun y hy => hplace y (List.mem_cons_of_mem _ hy))
  | @within h _ _ f body _ s _ u _ _ ys zs inner _ ihInner ihRest =>
    have hys : ∀ x ∈ ys, x.InPlace env := fun x hx => hplace x (by simp [hx])
    refine Keeps.trans ?_ (ihRest fun x hx => hplace x (by simp [hx]))
    by_cases hf : f = .point
    · -- The point may lie behind the piece, so the body is not covered by the induction.
      subst hf
      have hsteps := inner.run_eq.2
      refine .of_held hs fun pre ha => (?_ : Held h pre ys _ _)
      have hpoint := held_point (hplace _ (List.mem_cons_self ..))
        (fun hready => hsteps.symm ▸ inner.held ha hys (hsteps ▸ hready)) ha
      exact hsteps ▸ hpoint
    · exact (Keeps.trans (.of_revises hs (f.revises_enter s hf)) (ihInner hys)).trans
        (.of_revises hs (f.revises_exit s u hf))
  | @head _ _ _ _ _ s _ u _ _ ys zs _ _ ihInner ihRest =>
    refine Keeps.trans ?_ (ihRest fun x hx => hplace x (by simp [hx]))
    exact (Keeps.trans (.of_revises hs (Frame.head.revises_enter s (by simp [Frame.head])))
      (ihInner fun x hx => hplace x (by simp [hx]))).trans
        (.of_revises hs (Frame.head.revises_exit s u (by simp [Frame.head])))
  | @function h _ shape params body _ s _ u v _ ws ys zs _ inner _ ihFirst _ ihRest =>
    let r : FunctionRun := ⟨h, shape, params, body, s, u, v⟩
    have hsteps : r.inner env = ys := inner.run_eq.2
    have hin : r.InPlace env := hplace (.function r) (by simp [r])
    have hbody := held_body hin (hsteps.symm ▸ inner) fun x hx => hplace x (by simp [hsteps ▸ hx])
    refine Keeps.trans (ihFirst fun x hx => hplace x (by simp [hx])) ?_
    refine Keeps.trans ?_ (ihRest fun x hx => hplace x (by simp [hx]))
    exact .of_held hs fun pre ha => hin.held_exit hbody ha

/-- The function stands in the text as it was at its end, behind all that stood before it. -/
def Stands (r : FunctionRun) (o : Output) : Prop :=
  ∃ inside front,
    (r.shape.exit r.brace r.stop).output.text = r.brace.output.text ++ r.written inside ∧
      r.brace.output.text.Sublist front ∧ Contains front (r.written inside) o

theorem Stands.keeps {r : FunctionRun} {o o' : Output} (hr : Stands r o)
    (hk : ∀ block, EndsSolid true block → Keeps block o o') : Stands r o' := by
  obtain ⟨inside, front, htext, hsub, hc⟩ := hr
  have hs : EndsSolid true (r.written inside) := ⟨_, '\x7d', rfl, by decide, fun _ => by decide⟩
  obtain ⟨front', hsub', hc'⟩ := hk _ hs front hc
  exact ⟨inside, front', htext, hsub.trans hsub', hc'⟩

/-- Every function of a run stands in the text at the end of the run. -/
theorem Runs.stands {r : FunctionRun} (hr : Runs env m s a t xs) (hplace : ∀ x ∈ xs, x.InPlace env)
    (hb : Bounded s.output) (hmem : .function r ∈ xs) : Stands r t.output := by
  induction hr with
  | pure a s => cases hmem
  | ask _ ih => exact ih hplace hb hmem
  | @act _ _ x _ s _ _ _ rest ih =>
    exact ih (fun y hy => hplace y (List.mem_cons_of_mem _ hy)) ((x.points s).2 hb)
      (by simpa using hmem)
  | separate rest ih =>
    exact ih (fun y hy => hplace y (List.mem_cons_of_mem _ hy)) (bounded_separation hb)
      (by simpa using hmem)
  | @within h _ _ f body _ s _ u _ _ ys zs inner rest ihInner ihRest =>
    have hys : ∀ x ∈ ys, x.InPlace env := fun x hx => hplace x (by simp [hx])
    have hzs : ∀ x ∈ zs, x.InPlace env := fun x hx => hplace x (by simp [hx])
    have henter := f.bounded_enter hb
    have hmem : .function r ∈ ys ∨ .function r ∈ zs := by simpa using hmem
    rcases hmem with hmem | hmem
    · refine ((ihInner hys henter hmem).keeps fun block hs => ?_).keeps fun block hs =>
        rest.keeps hs hzs
      by_cases hf : f = .point
      · subst hf
        exact .popPoint
      · exact .of_revises hs (f.revises_exit s u hf)
    · exact ihRest hzs (f.bounded_exit s (inner.points.2 henter)) hmem
  | @head _ _ _ _ _ s _ u _ _ ys zs inner rest ihInner ihRest =>
    have hys : ∀ x ∈ ys, x.InPlace env := fun x hx => hplace x (by simp [hx])
    have hzs : ∀ x ∈ zs, x.InPlace env := fun x hx => hplace x (by simp [hx])
    have henter := Frame.head.bounded_enter hb
    have hmem : .function r ∈ ys ∨ .function r ∈ zs := by simpa using hmem
    rcases hmem with hmem | hmem
    · refine ((ihInner hys henter hmem).keeps fun block hs => ?_).keeps fun block hs =>
        rest.keeps hs hzs
      exact .of_revises hs (Frame.head.revises_exit s u (by simp [Frame.head]))
    · exact ihRest hzs (Frame.head.bounded_exit s (inner.points.2 henter)) hmem
  | @function h _ shape params body _ s _ u v _ ws ys zs first inner rest ihFirst ihInner ihRest =>
    let q : FunctionRun := ⟨h, shape, params, body, s, u, v⟩
    have hws : ∀ x ∈ ws, x.InPlace env := fun x hx => hplace x (by simp [hx])
    have hys : ∀ x ∈ ys, x.InPlace env := fun x hx => hplace x (by simp [hx])
    have hzs : ∀ x ∈ zs, x.InPlace env := fun x hx => hplace x (by simp [hx])
    have hbrace : Bounded u.output := first.points.2 hb
    have hsteps : q.inner env = ys := inner.run_eq.2
    have hin : q.InPlace env := hplace (.function q) (by simp [q])
    have hbody := held_body hin (hsteps.symm ▸ inner) (hsteps.symm ▸ hys)
    obtain ⟨p₀, p₁, ps, hps, hretreat⟩ := exists_points_of_retreat (r := q) inner.points.1
    have hclose := closeBraces_points hps shape v.captures u.output.line
    -- The function is in the parameters, in the body, the one that closes here or a later one.
    have hmem : .function r ∈ ws ∨ .function r ∈ ys ∨ r = q ∨ .function r ∈ zs := by
      simpa [q] using hmem
    rcases hmem with hmem | hmem | rfl | hmem
    · refine ((ihFirst hws hb hmem).keeps fun block hs => ?_).keeps fun block hs =>
        rest.keeps hs hzs
      exact .of_held hs fun pre ha => hin.held_exit hbody ha
    · refine ((ihInner hys (q.bounded_enter hbrace) hmem).keeps fun block hs => ?_).keeps
        fun block hs => rest.keeps hs hzs
      exact .closeBraces hs hps shape v.captures u.output.line
    · obtain ⟨inside, htext, -⟩ := hin.exit_output hbody
      refine Stands.keeps ?_ fun block hs => rest.keeps hs hzs
      refine ⟨inside, q.brace.output.text, htext, List.Sublist.refl _, ?_, ?_⟩
      · exact htext ▸ List.prefix_refl _
      · exact (hretreat.trans hclose.1).le_of_forall_le hbrace
    · exact ihRest hzs (hclose.2 (inner.points.2 (q.bounded_enter hbrace))) hmem

end Script
end EcmaPhp
