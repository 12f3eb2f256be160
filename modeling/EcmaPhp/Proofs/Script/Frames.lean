import EcmaPhp.Proofs.Script.References

/-! The nodes that a script emits by itself: those whose frames stand in the frame of no other
node. -/
namespace EcmaPhp
open EmitM

/-- What may be asked of a node and of the script in its frame, by whether the frame stands in a
function. -/
abbrev FrameLaw := (inFunction : Bool) → Node → {h : Bool} → {α : Type} → Script h α → Prop

/-- A law that does not tell the head of a loop from other places. -/
def FrameLaw.Lifts (law : FrameLaw) : Prop :=
  ∀ (b : Bool) (n : Node) {h : Bool} {α : Type} (m : Script h α), law b n m → law b n m.inHead

namespace Script

/-- The outermost frames of nodes in a script obey a law. -/
def Frames (law : FrameLaw) {h : Bool} {α : Type} : Script h α → Bool → Prop
  | .pure _, _ | .fail _, _ => True
  | .ask _ next, b => ∀ a, (next a).Frames law b
  | .act _ next, b | .separate next, b => next.Frames law b
  | .within (.node n _) body next, b => law b n body ∧ ∀ a, (next a).Frames law b
  | .within _ body next, b | .head body next, b =>
    body.Frames law b ∧ ∀ a, (next a).Frames law b
  | .function _ params body next, b =>
    params.Frames law true ∧ body.Frames law true ∧ ∀ a, (next a).Frames law b

/-- The text that a script writes right before a block, after declarations at most. -/
def keyword? {h : Bool} {α : Type} : Script h α → Option (List Char)
  | .act (.edit (.text cs)) (.within (.block _ _ _) _ _) => some cs
  | .act (.edit (.text cs)) (.head _ _) => some cs
  | .act (.register _) next => next.keyword?
  | _ => none

variable {law : FrameLaw} {h b : Bool} {α β : Type}

/-- What a frame asks of the script in it. -/
def FramesIn (law : FrameLaw) (b : Bool) (f : Frame) (body : Script h α) : Prop :=
  match f with
  | .node n _ => law b n body
  | _ => body.Frames law b

theorem frames_within_iff {f : Frame} {body : Script h α} {next : α → Script h β} :
    (Script.within f body next).Frames law b ↔
      body.FramesIn law b f ∧ ∀ a, (next a).Frames law b := by
  cases f <;> rfl

@[simp]
theorem frames_bind (m : Script h α) (f : α → Script h β) :
    (m >>= f).Frames law b ↔ m.Frames law b ∧ ∀ a, m.Gives a → (f a).Frames law b := by
  induction m with
  | pure a => simp [Frames, Gives, Bind.bind, Script.bind]
  | fail e => simp [Frames, Gives, Bind.bind, Script.bind]
  | ask q next ih =>
    change (∀ a, (next a >>= f).Frames law b) ↔ _
    simp only [ih, Frames, Gives]
    grind
  | act x next ih => exact ih f
  | separate next ih => exact ih f
  | within fr body next _ ih =>
    change (Script.within fr body fun a => next a >>= f).Frames law b ↔ _
    simp only [frames_within_iff, ih, Gives]
    grind
  | head body next _ ih =>
    change (_ ∧ ∀ a, (next a >>= f).Frames law b) ↔ _
    simp only [ih, Frames, Gives]
    grind
  | function shape params body next _ _ ih =>
    change (_ ∧ _ ∧ ∀ a, (next a >>= f).Frames law b) ↔ _
    simp only [ih, Frames, Gives]
    grind

theorem Frames.inHead (hlaw : law.Lifts) {m : Script h α} (hm : m.Frames law b) :
    m.inHead.Frames law b := by
  induction m generalizing b with
  | pure a => trivial
  | fail e => trivial
  | ask q next ih => exact fun a => ih a (hm a)
  | act x next ih => exact ih hm
  | separate next ih => exact hm
  | within f body next ihBody ih =>
    rw [frames_within_iff] at hm
    refine frames_within_iff.mpr ⟨?_, fun a => ih a (hm.2 a)⟩
    cases f with
    | node n wrapped => exact hlaw b n body hm.1
    | _ => exact ihBody hm.1
  | head body next _ ih => exact ⟨hm.1, fun a => ih a (hm.2 a)⟩
  | function shape params body next ihParams ihBody ih =>
    exact ⟨ihParams hm.1, ihBody hm.2.1, fun a => ih a (hm.2.2 a)⟩

@[simp]
theorem frames_pure (a : α) : (Pure.pure a : Script h α).Frames law b := trivial

@[simp]
theorem frames_fail (failure : Failure) : (EmitM.fail failure : EmitM α).Frames law b := trivial

@[simp]
theorem frames_unsupported (n : Node) (reason : String) :
    (EmitM.unsupported n reason : EmitM α).Frames law b := trivial

@[simp]
theorem frames_act (x : Action) : (EmitM.act x : Script h Unit).Frames law b := trivial

@[simp]
theorem frames_edit (e : Edit) : (EmitM.edit e : Script h Unit).Frames law b := trivial

@[simp]
theorem frames_emit (text : String) : (EmitM.emit text : Script h Unit).Frames law b := trivial

@[simp]
theorem frames_emitChars (text : List Char) : (EmitM.emitChars text : Script h Unit).Frames law b :=
  trivial

@[simp]
theorem frames_ensureTerminator : (EmitM.ensureTerminator : Script h Unit).Frames law b := trivial

@[simp]
theorem frames_note (e : Event) : (EmitM.note e).Frames law b := trivial

@[simp]
theorem frames_register (n : Node) : (EmitM.register n).Frames law b := trivial

@[simp]
theorem frames_ask (q : Query α) : (EmitM.ask q : Script h α).Frames law b := fun _ => trivial

@[simp]
theorem frames_getScopes : EmitM.getScopes.Frames law b := fun _ => trivial

@[simp]
theorem frames_getOptions : EmitM.getOptions.Frames law b := fun _ => trivial

@[simp]
theorem frames_getTokens : (EmitM.getTokens : Script h TokenIndex).Frames law b := fun _ => trivial

@[simp]
theorem frames_inProgramScope : EmitM.inProgramScope.Frames law b := fun _ => trivial

@[simp]
theorem frames_resolve (n : Node) : (EmitM.resolve n).Frames law b := fun _ => trivial

@[simp]
theorem frames_need (n : Node) (f : Field) : (EmitM.need n f).Frames law b := by
  rw [EmitM.need]
  split <;> trivial

@[simp]
theorem frames_needOf {n : Node} (p : Part n) (f : Field) : (EmitM.needOf p f).Frames law b := by
  rw [EmitM.needOf]
  split <;> trivial

@[simp]
theorem frames_needFirst (n : Node) : (EmitM.needFirst n).Frames law b := by
  rw [EmitM.needFirst]
  split <;> trivial

@[simp]
theorem frames_ite (c : Prop) [Decidable c] (m m' : Script h α) :
    (if c then m else m').Frames law b ↔ (c → m.Frames law b) ∧ (¬ c → m'.Frames law b) := by
  split <;> simp_all

@[simp]
theorem frames_within (f : Frame) (m : Script h α) :
    (EmitM.within f m).Frames law b ↔ m.FramesIn law b f :=
  frames_within_iff.trans (and_iff_left fun _ => trivial)

theorem frames_around {n : Node} {parens : Parens} {m : Script h Unit} (hm : law b n m) :
    (EmitM.around n parens m).Frames law b :=
  fun _ => ⟨hm, fun _ => trivial⟩

@[simp]
theorem frames_inScope (kind : ScopeKind) (m : EmitM Unit) :
    (EmitM.inScope kind m).Frames law b ↔ m.Frames law b :=
  frames_within _ _

@[simp]
theorem frames_inFunction (shape : FunctionShape) (params body : EmitM Unit) :
    (EmitM.inFunction shape params body).Frames law b ↔
      params.Frames law true ∧ body.Frames law true :=
  ⟨fun hm => ⟨hm.1, hm.2.1⟩, fun hm => ⟨hm.1, hm.2, fun _ => trivial⟩⟩

@[simp]
theorem frames_head (m : Script true α) :
    (EmitM.inHead m : Script h α).Frames law b ↔ m.Frames law b :=
  ⟨fun hm => hm.1, fun hm => ⟨hm, fun _ => trivial⟩⟩

@[simp]
theorem frames_separate : EmitM.separate.Frames law b := trivial

@[simp]
theorem frames_forM {γ : Type} (xs : List γ) (f : γ → Script h PUnit)
    (hf : ∀ x ∈ xs, (f x).Frames law b) : (forM xs f).Frames law b := by
  induction xs with
  | nil => trivial
  | cons x rest ih =>
    rw [List.forM_cons, frames_bind]
    exact ⟨hf x (by simp), fun _ _ => ih fun y hy => hf y (by simp [hy])⟩

@[simp]
theorem frames_mapM {γ δ : Type} (xs : List γ) (f : γ → Script h δ)
    (hf : ∀ x ∈ xs, (f x).Frames law b) : (xs.mapM f).Frames law b := by
  have hloop (acc : List δ) : (List.mapM.loop f xs acc).Frames law b := by
    induction xs generalizing acc with
    | nil => trivial
    | cons x rest ih =>
      rw [List.mapM.loop, frames_bind]
      exact ⟨hf x (by simp), fun y _ => ih (fun z hz => hf z (by simp [hz])) (y :: acc)⟩
  exact hloop []

end Script
end EcmaPhp
