import EcmaPhp.Proofs.Script.Frames

/-! The jumps that a run writes, each with the loops and choices around it. -/
namespace EcmaPhp
open EmitM

/-- What a jump can leave: a loop, which it can repeat as well, or a choice between cases. -/
inductive Construct where
  | loop
  | choice
  deriving DecidableEq, Repr

/-- The construct that a keyword of PHP begins. -/
def Construct.ofKeyword? (keyword : List Char) : Option Construct :=
  if ["while ", "do ", "for ", "foreach "].any (·.toList = keyword) then some .loop
  else if keyword = "switch ".toList then some .choice
  else none

/-- A loop or a choice that is around a jump, by the node that it is or comes from. -/
structure Enclosure where
  construct : Construct
  node : Node

def Kind.isJump (kind : Kind) : Bool := kind = .breakStatement || kind = .continueStatement

/-- A jump as it is written, with what is around it, the innermost first. -/
structure Jump where
  node : Node
  text : List Char
  outer : List Enclosure

namespace Script

/-- The loop or choice that a script begins. -/
def construct? {h : Bool} {α : Type} (m : Script h α) : Option Construct :=
  m.keyword?.bind Construct.ofKeyword?

/-- The text that a script writes before it asks anything or opens a frame. -/
def ownText {h : Bool} {α : Type} : Script h α → List Char
  | .act (.edit (.text cs)) next => cs ++ next.ownText
  | .act _ next => next.ownText
  | _ => []

end Script

namespace Frame

variable {h : Bool} {α : Type}

/-- What is around the script in a frame. -/
def enclosing (f : Frame) (body : Script h α) (outer : List Enclosure) : List Enclosure :=
  match f with
  | .node n _ => (body.construct?.map (⟨·, n⟩)).toList ++ outer
  | _ => outer

/-- The jump that a frame is. -/
def jumps (f : Frame) (body : Script h α) (outer : List Enclosure) : List Jump :=
  match f with
  | .node n _ => if n.kind.isJump then [⟨n, body.ownText, outer⟩] else []
  | _ => []

end Frame

namespace Script

/-- The jumps that a run writes. Nothing outside a function is around what is in it. -/
def jumps {h : Bool} {α : Type} :
    Script h α → EmitEnv → EmitState → List Enclosure → List Jump
  | .pure _, _, _, _ | .fail _, _, _, _ => []
  | .ask q next, env, s, outer => (next (q.answer env s)).jumps env s outer
  | .act a next, env, s, outer => next.jumps env (a.apply s) outer
  | .separate next, env, s, outer => next.jumps env (s.onOutput Output.terminatorToSeparator) outer
  | .within f body next, env, s, outer =>
    f.jumps body outer ++ body.jumps env (f.enter s) (f.enclosing body outer) ++
      match body.run env (f.enter s) with
      | .ok b t => (next b).jumps env (f.exit s t) outer
      | .error _ _ => []
  | .head body next, env, s, outer =>
    body.jumps env (Frame.head.enter s) outer ++
      match body.run env (Frame.head.enter s) with
      | .ok b t => (next b).jumps env (Frame.head.exit s t) outer
      | .error _ _ => []
  | .function shape params body next, env, s, outer =>
    params.jumps env (s.enterScope .function) [] ++
      match params.run env (s.enterScope .function) with
      | .error _ _ => []
      | .ok _ u => body.jumps env (shape.enter u) [] ++
        match body.run env (shape.enter u) with
        | .error _ _ => []
        | .ok _ t => (next t.innermost).jumps env (shape.exit u t).leaveScope outer

variable {h b : Bool} {α β : Type} {env : EmitEnv} {s t : EmitState} {outer : List Enclosure}

theorem run_inHead (m : Script h α) (env : EmitEnv) (s : EmitState) :
    m.inHead.run env s = m.run env s := by
  induction m generalizing s with
  | pure a => rfl
  | fail e => rfl
  | ask q next ih => exact ih _ s
  | act x next ih => exact ih _
  | separate next ih => rfl
  | within f body next ihBody ih => simp only [inHead, run, ihBody, ih]
  | head body next _ ih => simp only [inHead, run, ih]
  | function shape params body next ihParams ihBody ih =>
    simp only [inHead, run, ihParams, ihBody, ih]

theorem keyword?_inHead (m : Script h α) : m.inHead.keyword? = m.keyword? := by
  induction m with
  | act x next ih =>
    cases x with
    | register n => exact ih
    | edit e =>
      cases e with
      | text cs =>
        cases next with
        | within f body next => cases f <;> rfl
        | _ => rfl
      | _ => rfl
    | _ => rfl
  | _ => rfl

theorem ownText_inHead (m : Script h α) : m.inHead.ownText = m.ownText := by
  induction m with
  | act x next ih =>
    cases x with
    | edit e =>
      cases e with
      | text cs => exact congrArg (cs ++ ·) ih
      | _ => exact ih
    | _ => exact ih
  | _ => rfl

theorem jumps_inHead (m : Script h α) (env : EmitEnv) (s : EmitState) (outer : List Enclosure) :
    m.inHead.jumps env s outer = m.jumps env s outer := by
  induction m generalizing s outer with
  | pure a => rfl
  | fail e => rfl
  | ask q next ih => exact ih _ s outer
  | act x next ih => exact ih _ outer
  | separate next ih => rfl
  | within f body next ihBody ih =>
    have henclosing : f.enclosing body.inHead outer = f.enclosing body outer := by
      cases f <;> simp [Frame.enclosing, construct?, keyword?_inHead]
    have hjumps : f.jumps body.inHead outer = f.jumps body outer := by
      cases f <;> simp [Frame.jumps, ownText_inHead]
    simp only [inHead, jumps, run_inHead, ihBody, ih, henclosing, hjumps]
  | head body next _ ih => simp only [inHead, jumps, ih]
  | function shape params body next ihParams ihBody ih =>
    simp only [inHead, jumps, run_inHead, ihParams, ihBody, ih]

end Script

/-- Every jump in a frame has a property; `outer` is around the frames that are in no function. -/
def FrameLaw.ofJumps (outer : List Enclosure) (P : Jump → Prop) : FrameLaw :=
  fun inFunction n _ _ m => ∀ env s wrapped,
    ∀ j ∈ (EmitM.within (.node n wrapped) m).jumps env s (if inFunction then [] else outer), P j

namespace Script

variable {h b : Bool} {α β : Type} {outer : List Enclosure} {P : Jump → Prop}

theorem lifts_ofJumps : (FrameLaw.ofJumps outer P).Lifts := by
  intro b n h α m hm env s wrapped j hj
  have heq : EmitM.within (.node n wrapped) m.inHead =
      (EmitM.within (.node n wrapped) m).inHead := rfl
  rw [heq, jumps_inHead] at hj
  exact hm env s wrapped j hj

/-- The jumps of a script are those in its outermost frames. -/
theorem Frames.jumps {m : Script h α} (hm : m.Frames (.ofJumps outer P) b) (env : EmitEnv)
    (s : EmitState) : ∀ j ∈ m.jumps env s (if b then [] else outer), P j := by
  induction m generalizing b s with
  | pure a => simp [Script.jumps]
  | fail e => simp [Script.jumps]
  | ask q next ih => exact ih _ (hm _) s
  | act x next ih => exact ih hm _
  | separate next ih => exact ih hm _
  | within f body next ihBody ih =>
    rw [frames_within_iff] at hm
    intro j hj
    rw [Script.jumps, List.mem_append] at hj
    rcases hj with hj | hj
    · cases f with
      | node n wrapped =>
        apply hm.1 env s wrapped
        rw [EmitM.within, Script.jumps]
        exact List.mem_append_left _ hj
      | _ => exact ihBody hm.1 _ j hj
    · split at hj
      · exact ih _ (hm.2 _) _ j hj
      · cases hj
  | head body next ihBody ih =>
    intro j hj
    rw [Script.jumps, List.mem_append] at hj
    rcases hj with hj | hj
    · exact ihBody hm.1 _ j hj
    · split at hj
      · exact ih _ (hm.2 _) _ j hj
      · cases hj
  | function shape params body next ihParams ihBody ih =>
    intro j hj
    rw [Script.jumps, List.mem_append] at hj
    rcases hj with hj | hj
    · exact ihParams hm.1 _ j hj
    · split at hj
      · cases hj
      · rcases List.mem_append.mp hj with hj | hj
        · exact ihBody hm.2.1 _ j hj
        · split at hj
          · cases hj
          · exact ih _ (hm.2.2 _) _ j hj

/-- A script without frames of nodes writes no jump. -/
theorem jumps_eq_nil {m : Script h α} (hm : m.Frames (fun _ _ _ _ _ => False) b) (env : EmitEnv)
    (s : EmitState) (outer : List Enclosure) : m.jumps env s outer = [] := by
  induction m generalizing b s outer with
  | pure a => rfl
  | fail e => rfl
  | ask q next ih => exact ih _ (hm _) s outer
  | act x next ih => exact ih hm _ outer
  | separate next ih => exact ih hm _ outer
  | within f body next ihBody ih =>
    cases f with
    | node n wrapped => exact hm.1.elim
    | _ =>
      simp only [Script.jumps, Frame.jumps, ihBody hm.1, List.nil_append]
      split
      · exact ih _ (hm.2 _) _ outer
      · rfl
  | head body next ihBody ih =>
    simp only [Script.jumps, ihBody hm.1, List.nil_append]
    split
    · exact ih _ (hm.2 _) _ outer
    · rfl
  | function shape params body next ihParams ihBody ih =>
    simp only [Script.jumps, ihParams hm.1, ihBody hm.2.1, List.nil_append]
    split
    · rfl
    · split
      · rfl
      · exact ih _ (hm.2.2 _) _ outer

/-- Whatever the answers are, a script that does not fail has an outermost frame that obeys a
law. -/
def Meets (law : FrameLaw) {h : Bool} {α : Type} : Script h α → Bool → Prop
  | .pure _, _ => False
  | .fail _, _ => True
  | .ask _ next, b => ∀ a, (next a).Meets law b
  | .act _ next, b | .separate next, b => next.Meets law b
  | .within (.node n _) body next, b => law b n body ∨ ∀ a, (next a).Meets law b
  | .within _ body next, b | .head body next, b =>
    body.Meets law b ∨ ∀ a, (next a).Meets law b
  | .function _ params body next, b =>
    params.Meets law true ∨ body.Meets law true ∨ ∀ a, (next a).Meets law b

variable {law : FrameLaw} {m : Script h α} {f : α → Script h β}

theorem Meets.left (hm : m.Meets law b) : (m >>= f).Meets law b := by
  induction m with
  | pure a => cases hm
  | fail e => trivial
  | ask q next ih => exact fun a => ih a (hm a)
  | act x next ih => exact ih hm
  | separate next ih => exact ih hm
  | within fr body next _ ih =>
    cases fr with
    | _ => exact hm.imp_right fun hnext a => ih a (hnext a)
  | head body next _ ih => exact hm.imp_right fun hnext a => ih a (hnext a)
  | function shape params body next _ _ ih =>
    exact hm.imp_right fun hrest => hrest.imp_right fun hnext a => ih a (hnext a)

theorem Meets.right (hf : ∀ a, m.Gives a → (f a).Meets law b) : (m >>= f).Meets law b := by
  induction m with
  | pure a => exact hf a rfl
  | fail e => trivial
  | ask q next ih => exact fun c => ih c fun a ha => hf a ⟨c, ha⟩
  | act x next ih => exact ih hf
  | separate next ih => exact ih hf
  | within fr body next _ ih =>
    cases fr with
    | _ => exact .inr fun c => ih c fun a ha => hf a ⟨c, ha⟩
  | head body next _ ih => exact .inr fun c => ih c fun a ha => hf a ⟨c, ha⟩
  | function shape params body next _ _ ih =>
    exact .inr (.inr fun c => ih c fun a ha => hf a ⟨c, ha⟩)

theorem meets_forM {γ : Type} {xs : List γ} {g : γ → Script h PUnit} {x : γ} (hx : x ∈ xs)
    (hg : (g x).Meets law b) : (forM xs g).Meets law b := by
  induction xs with
  | nil => cases hx
  | cons y rest ih =>
    rw [List.forM_cons]
    rcases List.mem_cons.mp hx with rfl | hrest
    · exact hg.left
    · exact .right fun _ _ => ih hrest

end Script

/-- A frame that has a jump in it; `outer` is around the frames that are in no function. -/
def FrameLaw.withJump (outer : List Enclosure) (j : Jump) : FrameLaw :=
  fun inFunction n _ _ m => ∀ env s wrapped a t,
    m.run env ((Frame.node n wrapped).enter s) = .ok a t →
    j ∈ (EmitM.within (.node n wrapped) m).jumps env s (if inFunction then [] else outer)

/-- A run that succeeds writes the jump that its script meets. -/
theorem Script.Meets.mem_jumps {h b : Bool} {α : Type} {outer : List Enclosure} {j : Jump}
    {m : Script h α} (hm : m.Meets (.withJump outer j) b) {env : EmitEnv} {s t : EmitState} {a : α}
    (hrun : m.run env s = .ok a t) : j ∈ m.jumps env s (if b then [] else outer) := by
  induction m generalizing b s t with
  | pure a => cases hm
  | fail e => cases hrun
  | ask q next ih => exact ih _ (hm _) hrun
  | act x next ih => exact ih hm hrun
  | separate next ih => exact ih hm hrun
  | within f body next ihBody ih =>
    cases hbody : body.run env (f.enter s) with
    | error e u => simp [run, hbody] at hrun
    | ok c u =>
      simp only [run, hbody] at hrun
      simp only [Script.jumps, hbody, List.mem_append]
      cases f with
      | node n wrapped =>
        rcases hm with hlaw | hnext
        · have hframe := hlaw env s wrapped c u hbody
          simp only [EmitM.within, Script.jumps, hbody, Pure.pure, List.append_nil] at hframe
          exact .inl (List.mem_append.mp hframe)
        · exact .inr (ih c (hnext c) hrun)
      | _ =>
        rcases hm with hinside | hnext
        · exact .inl (.inr (ihBody hinside hbody))
        · exact .inr (ih c (hnext c) hrun)
  | head body next ihBody ih =>
    cases hbody : body.run env (Frame.head.enter s) with
    | error e u => simp [run, hbody] at hrun
    | ok c u =>
      simp only [run, hbody] at hrun
      simp only [Script.jumps, hbody, List.mem_append]
      rcases hm with hinside | hnext
      · exact .inl (ihBody hinside hbody)
      · exact .inr (ih c (hnext c) hrun)
  | function shape params body next ihParams ihBody ih =>
    cases hparams : params.run env (s.enterScope .function) with
    | error e u => simp [run, hparams] at hrun
    | ok c u =>
      cases hbody : body.run env (shape.enter u) with
      | error e v => simp [run, hparams, hbody] at hrun
      | ok d v =>
        simp only [run, hparams, hbody] at hrun
        simp only [Script.jumps, hparams, hbody, List.mem_append]
        rcases hm with hfirst | hinside | hnext
        · exact .inl (ihParams hfirst hparams)
        · exact .inr (.inl (ihBody hinside hbody))
        · exact .inr (.inr (ih _ (hnext _) hrun))

end EcmaPhp
