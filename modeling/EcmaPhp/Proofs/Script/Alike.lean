import EcmaPhp.Proofs.Output.Sketch
import EcmaPhp.Proofs.Script.Steps

/-! Scripts that differ in the delimiters of their arrays only, and how their runs go side by
side. -/
namespace EcmaPhp
open Output Script Piece

/-- The same options but for the way in which arrays are written. -/
def Options.withArrays (o : Options) (concise : Bool) : Options :=
  { o with conciseArrays := concise }

/-- What is the same to know in both runs. -/
def Query.IsShared {α : Type} : Query α → Prop
  | .options | .output => False
  | .tokens | .scopes | .fields => True

/-- A block whose delimiters are pieces of the text. -/
def Frame.ofPieces (concise : Bool) (opening inline closing : List Piece) : Frame :=
  .block (.ofList (render concise opening)) (.ofList (render concise inline))
    (.ofList (render concise closing))

namespace Script

/-- Two scripts that do the same, the one with arrays that are concise if `a`, the other if `b`. -/
inductive Alike (a b : Bool) : {h : Bool} → {α : Type} → Script h α → Script h α → Prop where
  | pure {h : Bool} {α : Type} (x : α) : Alike a b (.pure x : Script h α) (.pure x)
  | fail {h : Bool} {α : Type} (failure : Failure) :
    Alike a b (.fail failure : Script h α) (.fail failure)
  | ask {h : Bool} {α β : Type} {q : Query β} (hq : q.IsShared) {next next' : β → Script h α}
      (hnext : ∀ x, Alike a b (next x) (next' x)) : Alike a b (.ask q next) (.ask q next')
  | options {h : Bool} {α : Type} {next next' : Options → Script h α}
      (hnext : ∀ o : Options, Alike a b (next (o.withArrays a)) (next' (o.withArrays b))) :
    Alike a b (.ask .options next) (.ask .options next')
  | output {h : Bool} {α : Type} {next next' : Output → Script h α}
      (hnext : ∀ d : Sketch, Alike a b (next (d.output a)) (next' (d.output b))) :
    Alike a b (.ask .output next) (.ask .output next')
  | act {h : Bool} {α : Type} (x : Action) {next next' : Script h α}
      (hnext : Alike a b next next') : Alike a b (.act x next) (.act x next')
  | text {h : Bool} {α : Type} (ps : List Piece) {next next' : Script h α}
      (hnext : Alike a b next next') :
    Alike a b (.act (.edit (.text (render a ps))) next) (.act (.edit (.text (render b ps))) next')
  | separate {α : Type} {next next' : Script true α} (hnext : Alike a b next next') :
    Alike a b (.separate next) (.separate next')
  | within {h : Bool} {α β : Type} (f : Frame) {body body' : Script h β}
      {next next' : β → Script h α} (hbody : Alike a b body body')
      (hnext : ∀ x, Alike a b (next x) (next' x)) :
    Alike a b (.within f body next) (.within f body' next')
  /-- A block between delimiters of an array. -/
  | array {h : Bool} {α β : Type} (opening inline closing : List Piece) {body body' : Script h β}
      {next next' : β → Script h α} (hbody : Alike a b body body')
      (hnext : ∀ x, Alike a b (next x) (next' x)) :
    Alike a b (.within (.ofPieces a opening inline closing) body next)
      (.within (.ofPieces b opening inline closing) body' next')
  | head {h : Bool} {α β : Type} {body body' : Script true β} {next next' : β → Script h α}
      (hbody : Alike a b body body') (hnext : ∀ x, Alike a b (next x) (next' x)) :
    Alike a b (.head body next) (.head body' next')
  | function {h : Bool} {α : Type} (shape : FunctionShape)
      {params params' body body' : Script h Unit} {next next' : Scope → Script h α} (hparams : Alike a b params params')
      (hbody : Alike a b body body') (hnext : ∀ x, Alike a b (next x) (next' x)) :
    Alike a b (.function shape params body next) (.function shape params' body' next')

variable {a b h : Bool} {α β : Type}

theorem Alike.bind {m m' : Script h α} {f f' : α → Script h β} (hm : Alike a b m m')
    (hf : ∀ x, Alike a b (f x) (f' x)) : Alike a b (m >>= f) (m' >>= f') := by
  induction hm with
  | pure x => exact hf x
  | fail failure => exact .fail failure
  | ask hq _ ih => exact .ask hq fun x => ih x hf
  | options _ ih => exact .options fun o => ih o hf
  | output _ ih => exact .output fun d => ih d hf
  | act x _ ih => exact .act x (ih hf)
  | text ps _ ih => exact .text ps (ih hf)
  | separate _ ih => exact .separate (ih hf)
  | within frame hbody _ _ ih => exact .within frame hbody fun x => ih x hf
  | array opening inline closing hbody _ _ ih =>
    exact .array opening inline closing hbody fun x => ih x hf
  | head hbody _ _ ih => exact .head hbody fun x => ih x hf
  | function shape hparams hbody _ _ _ ih => exact .function shape hparams hbody fun x => ih x hf

theorem Alike.inHead {m m' : Script h α} (hm : Alike a b m m') : Alike a b m.inHead m'.inHead := by
  induction hm with
  | pure x => exact .pure x
  | fail failure => exact .fail failure
  | ask hq _ ih => exact .ask hq ih
  | options _ ih => exact .options ih
  | output _ ih => exact .output ih
  | act x _ ih => exact .act x ih
  | text ps _ ih => exact .text ps ih
  | separate hnext _ => exact .separate hnext
  | within frame _ _ ihBody ih => exact .within frame ihBody ih
  | array opening inline closing _ _ ihBody ih => exact .array opening inline closing ihBody ih
  | head hbody _ _ ih => exact .head hbody ih
  | function shape _ _ _ ihParams ihBody ih => exact .function shape ihParams ihBody ih

end Script

/-- Two states that differ in the delimiters of arrays in the output only. -/
structure EmitState.Mirrors (a b : Bool) (s s' : EmitState) : Prop where
  output : ∃ d : Sketch, s.output = d.output a ∧ s'.output = d.output b
  scopes : s.scopes = s'.scopes
  declared : s.declared = s'.declared
  log : s.log = s'.log

/-- Two results that differ in the delimiters of arrays in the output only. -/
def Script.Result.Mirrors (a b : Bool) {α : Type} (r r' : Script.Result α) : Prop :=
  match r, r' with
  | .ok x s, .ok x' s' => x = x' ∧ s.Mirrors a b s'
  | .error failure s, .error failure' s' => failure = failure' ∧ s.Mirrors a b s'
  | _, _ => False

def Step.IsSeparation : Step → Prop
  | .separation _ => True
  | _ => False

namespace EmitState.Mirrors

variable {a b : Bool} {s s' t t' : EmitState}

theorem onOutput {f : Bool → Output → Output} (hf : Uniform f) (hs : s.Mirrors a b s') :
    (s.onOutput (f a)).Mirrors a b (s'.onOutput (f b)) := by
  obtain ⟨d, hd, hd'⟩ := hs.output
  obtain ⟨e, he⟩ := hf d
  refine ⟨⟨e, ?_, ?_⟩, hs.scopes, hs.declared, hs.log⟩
  · exact (congrArg (f a) hd).trans (he a)
  · exact (congrArg (f b) hd').trans (he b)

theorem line (hs : s.Mirrors a b s') : s.output.line = s'.output.line := by
  obtain ⟨d, hd, hd'⟩ := hs.output
  rw [hd, hd']
  rfl

theorem offset (hs : s.Mirrors a b s') : s.output.offset = s'.output.offset := by
  obtain ⟨d, hd, hd'⟩ := hs.output
  rw [hd, hd']
  rfl

theorem innermost (hs : s.Mirrors a b s') : s.innermost = s'.innermost := by
  rw [EmitState.innermost, EmitState.innermost, hs.scopes]

theorem edit (hs : s.Mirrors a b s') (e : Edit) :
    (s.onOutput e.apply).Mirrors a b (s'.onOutput e.apply) := by
  have huniform : Uniform fun _ => e.apply := by
    cases e with
    | text cs => exact uniform_emitChars cs
    | verbatim cs => exact uniform_emitVerbatim cs
    | newline => exact uniform_newline
    | ensureNewline => exact uniform_ensureNewline
    | breakLine => exact uniform_breakLine
    | realign sourceLine => exact uniform_realign sourceLine
    | terminator => exact uniform_ensureTerminator
    | comments cs => exact uniform_emitComments cs
    | mark cs => exact uniform_markAll cs
    | insert cs => exact uniform_insertAt (Nat.zero_le 1) cs
  exact hs.onOutput huniform

theorem act (hs : s.Mirrors a b s') (x : Action) : (x.apply s).Mirrors a b (x.apply s') := by
  obtain ⟨houtput, hscopes, hdeclared, hlog⟩ := hs
  cases x with
  | edit e => exact edit ⟨houtput, hscopes, hdeclared, hlog⟩ e
  | register n => exact ⟨houtput, congrArg (·.register n) hscopes, hdeclared, hlog⟩
  | refer n =>
    refine ⟨houtput, congrArg (·.refer n) hscopes, hdeclared, ?_⟩
    simp only [Action.apply, EmitState.refer, hscopes, hlog]
  | learnField key =>
    simp only [Action.apply, EmitState.learnField, ← hdeclared]
    cases s.declared with
    | nil => exact ⟨houtput, hscopes, hdeclared, hlog⟩
    | cons known outer => exact ⟨houtput, hscopes, rfl, hlog⟩
  | note e => exact ⟨houtput, hscopes, hdeclared, congrArg (· ++ [e]) hlog⟩

theorem enter (hs : s.Mirrors a b s') (f : Frame) : (f.enter s).Mirrors a b (f.enter s') := by
  cases f with
  | node n wrapped => exact hs.onOutput (uniform_beginNode wrapped n)
  | indent => exact hs.onOutput uniform_increaseIndent
  | block opening inline closing => exact hs.onOutput (uniform_openBlock opening)
  | point => exact hs.onOutput uniform_pushPoint
  | scope kind => exact ⟨hs.output, congrArg (·.enter kind) hs.scopes, hs.declared, hs.log⟩
  | fields keys => exact ⟨hs.output, hs.scopes, congrArg (keys :: ·) hs.declared, hs.log⟩
  | unsourced => exact hs

theorem exit (hs : s.Mirrors a b s') (ht : t.Mirrors a b t') (f : Frame) :
    (f.exit s t).Mirrors a b (f.exit s' t') := by
  cases f with
  | node n wrapped => exact ht.onOutput (uniform_endNode wrapped n)
  | indent => exact ht.onOutput uniform_decreaseIndent
  | block opening inline closing =>
    simp only [Frame.exit, hs.line]
    exact ht.onOutput (uniform_closeInline s'.output.line inline closing)
  | point => exact ht.onOutput uniform_popPoint
  | scope kind => exact ⟨ht.output, congrArg (List.drop 1) ht.scopes, ht.declared, ht.log⟩
  | fields keys => exact ⟨ht.output, ht.scopes, congrArg (List.drop 1) ht.declared, ht.log⟩
  | unsourced =>
    simp only [Frame.exit, endUnsourced, hs.line, hs.offset]
    exact ht.onOutput (uniform_endUnsourced s'.output.line s'.output.offset)

theorem openArray (hs : s.Mirrors a b s') (opening inline closing : List Piece) :
    ((Frame.ofPieces a opening inline closing).enter s).Mirrors a b
      ((Frame.ofPieces b opening inline closing).enter s') := by
  have hopen := hs.onOutput (uniform_openPieces opening)
  simpa [Frame.ofPieces, Frame.enter, openBlock, emit] using hopen

theorem closeArray (hs : s.Mirrors a b s') (ht : t.Mirrors a b t')
    (opening inline closing : List Piece) :
    ((Frame.ofPieces a opening inline closing).exit s t).Mirrors a b
      ((Frame.ofPieces b opening inline closing).exit s' t') := by
  simp only [Frame.ofPieces, Frame.exit, hs.line]
  exact ht.onOutput (uniform_closePieces s'.output.line inline closing)

theorem leaveFunction (hs : s.Mirrors a b s') (ht : t.Mirrors a b t') (shape : FunctionShape) :
    (shape.exit s t).leaveScope.Mirrors a b (shape.exit s' t').leaveScope := by
  have hcaptures : t.captures = t'.captures := congrArg Scope.captures ht.innermost
  simp only [FunctionShape.exit, hs.line, hcaptures]
  have hclosed := ht.onOutput (uniform_closeBraces shape t'.captures s'.output.line)
  exact ⟨hclosed.output, congrArg (List.drop 1) hclosed.scopes, hclosed.declared, hclosed.log⟩

end EmitState.Mirrors

namespace Script

variable {a b h : Bool} {α β : Type} {o : Options} {tokens : TokenIndex} {s s' : EmitState}

theorem Result.Mirrors.ok_or_error {r r' : Result α} (hr : r.Mirrors a b r') :
    (∃ x t t', r = .ok x t ∧ r' = .ok x t' ∧ t.Mirrors a b t') ∨
      ∃ failure t t', r = .error failure t ∧ r' = .error failure t' ∧ t.Mirrors a b t' := by
  match r, r', hr with
  | .ok x t, .ok _ t', ⟨rfl, ht⟩ => exact .inl ⟨x, t, t', rfl, rfl, ht⟩
  | .error failure t, .error _ t', ⟨rfl, ht⟩ => exact .inr ⟨failure, t, t', rfl, rfl, ht⟩

/-- Runs of such scripts go side by side as long as nothing is separated. -/
theorem Alike.mirrors {m m' : Script h α} (hm : Alike a b m m') (hs : s.Mirrors a b s')
    (hsteps : ∀ x ∈ m.steps ⟨o.withArrays a, tokens⟩ s, ¬ x.IsSeparation) :
    (m.run ⟨o.withArrays a, tokens⟩ s).Mirrors a b (m'.run ⟨o.withArrays b, tokens⟩ s') := by
  induction hm generalizing s s' with
  | pure x => exact ⟨rfl, hs⟩
  | fail failure => exact ⟨rfl, hs⟩
  | @ask h α β q hq next next' _ ih =>
    have hanswer : q.answer ⟨o.withArrays a, tokens⟩ s = q.answer ⟨o.withArrays b, tokens⟩ s' := by
      cases q with
      | options => cases hq
      | tokens => rfl
      | scopes => exact hs.scopes
      | fields => simp only [Query.answer, hs.declared]
      | output => cases hq
    have hnext := ih (q.answer ⟨o.withArrays a, tokens⟩ s) hs hsteps
    rw [run, run, ← hanswer]
    exact hnext
  | options _ ih => exact ih o hs hsteps
  | output _ ih =>
    obtain ⟨d, hd, hd'⟩ := hs.output
    have hnext := ih d hs (by simpa [steps, Query.answer, hd] using hsteps)
    simp only [run, Query.answer]
    rw [hd, hd']
    exact hnext
  | act x _ ih =>
    simp only [steps, List.forall_mem_cons] at hsteps
    exact ih (hs.act x) hsteps.2
  | text ps _ ih =>
    simp only [steps, List.forall_mem_cons] at hsteps
    exact ih (hs.onOutput (uniform_emitPieces ps)) hsteps.2
  | separate _ _ =>
    simp only [steps, List.forall_mem_cons] at hsteps
    exact absurd trivial hsteps.1
  | within f _ _ ihBody ih =>
    simp only [steps, List.forall_mem_cons, List.forall_mem_append] at hsteps
    rcases (ihBody (hs.enter f) hsteps.2.1).ok_or_error with
      ⟨x, t, t', hrun, hrun', ht⟩ | ⟨failure, t, t', hrun, hrun', ht⟩
    · simp only [hrun] at hsteps
      simp only [run, hrun, hrun']
      exact ih x (hs.exit ht f) hsteps.2.2
    · simp only [run, hrun, hrun']
      exact ⟨rfl, ht⟩
  | array opening inline closing _ _ ihBody ih =>
    simp only [steps, List.forall_mem_cons, List.forall_mem_append] at hsteps
    rcases (ihBody (hs.openArray opening inline closing) hsteps.2.1).ok_or_error with
      ⟨x, t, t', hrun, hrun', ht⟩ | ⟨failure, t, t', hrun, hrun', ht⟩
    · simp only [hrun] at hsteps
      simp only [run, hrun, hrun']
      exact ih x (hs.closeArray ht opening inline closing) hsteps.2.2
    · simp only [run, hrun, hrun']
      exact ⟨rfl, ht⟩
  | head _ _ ihBody ih =>
    simp only [steps, List.forall_mem_cons, List.forall_mem_append] at hsteps
    rcases (ihBody (hs.enter Frame.head) hsteps.2.1).ok_or_error with
      ⟨x, t, t', hrun, hrun', ht⟩ | ⟨failure, t, t', hrun, hrun', ht⟩
    · simp only [hrun] at hsteps
      simp only [run, hrun, hrun']
      exact ih x (hs.exit ht Frame.head) hsteps.2.2
    · simp only [run, hrun, hrun']
      exact ⟨rfl, ht⟩
  | function shape _ _ _ ihParams ihBody ih =>
    simp only [steps, List.forall_mem_append] at hsteps
    rcases (ihParams (hs.enter (.scope .function)) hsteps.1).ok_or_error with
      ⟨x, u, u', hparams, hparams', hu⟩ | ⟨failure, u, u', hparams, hparams', hu⟩
    · simp only [Frame.enter] at hparams hparams'
      simp only [hparams, List.forall_mem_append] at hsteps
      rcases (ihBody (hu.onOutput (uniform_openBraces shape)) hsteps.2.1).ok_or_error with
        ⟨y, t, t', hbody, hbody', ht⟩ | ⟨failure, t, t', hbody, hbody', ht⟩
      · simp only [FunctionShape.enter, hbody, List.forall_mem_cons] at hsteps
        simp only [run, hparams, hparams', FunctionShape.enter, hbody, hbody', ← ht.innermost]
        exact ih t.innermost (hu.leaveFunction ht shape) hsteps.2.2.2
      · simp only [run, hparams, hparams', FunctionShape.enter, hbody, hbody']
        exact ⟨rfl, ht⟩
    · simp only [Frame.enter] at hparams hparams'
      simp only [run, hparams, hparams']
      exact ⟨rfl, hu⟩

end Script
end EcmaPhp
