import EcmaPhp.Emit.Monad
import EcmaPhp.Proofs.Script.Scopes

/-! The names that a run binds in the scope where it takes place: those of the nodes that it declares
there, in no scope inside that one. -/
namespace EcmaPhp
open Script

/-- A step that declares a name in the scope at a depth. -/
def Step.Declares (depth : Nat) (key : String) : Step → Prop
  | .action (.register n) s =>
    s.scopes.length = depth ∧ n.accessor? = none ∧ key ∈ n.bindings.map (·.1)
  | _ => False

namespace Scope

theorem defines_define (s : Scope) (key name : String) (n : Node) :
    (s.define name n).defines key = true ↔ s.defines key = true ∨ key = name := by
  rw [define]
  split
  · rename_i hdefined
    constructor
    · exact .inl
    · rintro (h | rfl)
      · exact h
      · exact hdefined
  · simp [defines_eq_true_iff]

theorem defines_defineAll (s : Scope) (key : String) (bindings : List (String × Node)) :
    (s.defineAll bindings).defines key = true ↔
      s.defines key = true ∨ key ∈ bindings.map (·.1) := by
  induction bindings generalizing s with
  | nil => simp [defineAll]
  | cons b rest ih =>
    change ((s.define b.1 b.2).defineAll rest).defines key = true ↔ _
    rw [ih, defines_define, or_assoc, List.map_cons, List.mem_cons]

end Scope

/-- The innermost scope binds a name. -/
def EmitState.Binds (s : EmitState) (key : String) : Prop :=
  ∃ scope outer, s.scopes = scope :: outer ∧ scope.defines key = true

namespace EmitState

variable {s t : EmitState} {key : String}

theorem Binds.evolves (h : s.Binds key) (hevolves : s.scopes.Evolves t.scopes) : t.Binds key := by
  obtain ⟨scope, outer, hs, hdefines⟩ := h
  have hgrows := hevolves.grows
  rw [hs] at hgrows
  obtain ⟨scope', outer', hscope, -, ht⟩ := List.forall₂_cons_left_iff.mp hgrows
  exact ⟨scope', outer', ht, hscope.defines hdefines⟩

theorem Binds.innermost (h : s.Binds key) : s.innermost.defines key = true := by
  obtain ⟨scope, outer, hs, hdefines⟩ := h
  simpa [EmitState.innermost, hs] using hdefines

theorem scopes_ne_nil_of_evolves (h : s.scopes ≠ []) (hevolves : s.scopes.Evolves t.scopes) :
    t.scopes ≠ [] := by
  rw [← List.length_pos_iff, hevolves.length_eq]
  exact List.length_pos_iff.mpr h

theorem binds_cons {scope : Scope} {outer : Scopes} (h : s.scopes = scope :: outer) :
    s.Binds key ↔ scope.defines key = true := by
  simp [Binds, h]

/-- Which names are bound depends on the definitions only. -/
theorem binds_congr (h : t.scopes.map Scope.definitions = s.scopes.map Scope.definitions) :
    t.Binds key ↔ s.Binds key := by
  cases hs : s.scopes with
  | nil =>
    rw [hs] at h
    have ht : t.scopes = [] := by simpa using h
    simp [Binds, hs, ht]
  | cons scope outer =>
    rw [hs] at h
    obtain ⟨scope', outer', ht, hdefinitions, -⟩ := List.map_eq_cons_iff.mp h
    rw [binds_cons ht, binds_cons hs, Scope.defines_eq_true_iff, Scope.defines_eq_true_iff,
      hdefinitions]

end EmitState

theorem Scopes.map_definitions_modifyNearest {f : Scope → Scope}
    (hf : ∀ s, (f s).definitions = s.definitions) (kind : ScopeKind) (a : Scopes) :
    (modifyNearest kind f a).map Scope.definitions = a.map Scope.definitions := by
  induction a with
  | nil => rfl
  | cons s outer ih =>
    rw [modifyNearest]
    split <;> simp [hf, ih]

/-- An accessor binds nothing. -/
theorem Scopes.map_definitions_addAccessor (a : Scopes) (n : Node) (accessor : Accessor) :
    (a.addAccessor n accessor).map Scope.definitions = a.map Scope.definitions := by
  rw [addAccessor]
  split
  · exact map_definitions_modifyNearest (fun s => s.definitions_addAccessor n accessor) _ a
  · cases a <;> simp [modifyCurrent]

/-- What an action binds, it declares. -/
theorem Action.binds_iff (x : Action) {s : EmitState} {key : String} (hs : s.scopes ≠ []) :
    (x.apply s).Binds key ↔ s.Binds key ∨ (Step.action x s).Declares s.scopes.length key := by
  cases x with
  | register n =>
    obtain ⟨scope, outer, hscopes⟩ := List.exists_cons_of_ne_nil hs
    cases haccessor : n.accessor? with
    | some accessor =>
      have hregister : (Action.apply (.register n) s).scopes = s.scopes.addAccessor n accessor := by
        simp [Action.apply, Scopes.register, haccessor]
      have hsame : (Action.apply (.register n) s).Binds key ↔ s.Binds key :=
        EmitState.binds_congr (hregister ▸ s.scopes.map_definitions_addAccessor n accessor)
      simp [hsame, Step.Declares, haccessor]
    | none =>
      have hregister : (Action.apply (.register n) s).scopes =
          scope.defineAll n.bindings :: outer := by
        simp [Action.apply, Scopes.register, haccessor, hscopes, Scopes.modifyCurrent]
      rw [EmitState.binds_cons hregister, EmitState.binds_cons hscopes, Scope.defines_defineAll]
      simp [Step.Declares, haccessor]
  | refer n =>
    have hsame : (Action.apply (.refer n) s).Binds key ↔ s.Binds key :=
      EmitState.binds_congr (s.scopes.map_definitions_refer n)
    simp [hsame, Step.Declares]
  | learnField name =>
    have hsame : (Action.apply (.learnField name) s).scopes = s.scopes := by
      simp only [Action.apply, EmitState.learnField]
      split <;> rfl
    simp [EmitState.Binds, hsame, Step.Declares]
  | edit e => simp [EmitState.Binds, Action.apply, EmitState.onOutput, Step.Declares]
  | note e => simp [EmitState.Binds, Action.apply, Step.Declares]

namespace Script

variable {env : EmitEnv} {h : Bool} {α : Type} {m : Script h α} {s t : EmitState} {a : α}
  {xs : List Step} {key : String}

/-- Nothing happens outside the scopes in which a run begins. -/
theorem Runs.length_le_of_declares {depth : Nat} {x : Step} (hr : Runs env m s a t xs) (hx : x ∈ xs)
    (hdeclares : x.Declares depth key) : s.scopes.length ≤ depth := by
  cases x with
  | action y u =>
    cases y with
    | register n =>
      obtain ⟨k, hevolves, -⟩ := hr.around hx
      have hlength := hevolves.length_eq
      rw [List.length_drop, hdeclares.1] at hlength
      omega
    | _ => cases hdeclares
  | _ => cases hdeclares

theorem Runs.not_declares {depth : Nat} (hr : Runs env m s a t xs)
    (hdepth : depth < s.scopes.length) : ¬ ∃ x ∈ xs, x.Declares depth key := by
  rintro ⟨x, hx, hdeclares⟩
  exact absurd (hr.length_le_of_declares hx hdeclares) (Nat.not_le.mpr hdepth)

/-- The outer scopes of a run bind what they did. -/
theorem binds_leave {s' t' : EmitState} {opened : Scope}
    (h : Scopes.Evolves (opened :: s.scopes) t.scopes) (hs : s'.scopes = s.scopes)
    (ht : t'.scopes = t.scopes.drop 1) : t'.Binds key ↔ s'.Binds key := by
  apply EmitState.binds_congr
  rw [hs, ht, List.drop_one]
  exact h.outer

theorem exists_declares_frame {β : Type} {f : Frame} {body : Script h β} {ys zs : List Step}
    {depth : Nat} : (∃ x ∈ .frame f body s :: (ys ++ zs), x.Declares depth key) ↔
      (∃ x ∈ ys, x.Declares depth key) ∨ ∃ x ∈ zs, x.Declares depth key := by
  simp [Step.Declares, or_and_right, exists_or]

/-- A run binds in the innermost scope what was bound there and what it declares there. -/
theorem Runs.binds_iff (hr : Runs env m s a t xs) (hs : s.scopes ≠ []) :
    t.Binds key ↔ s.Binds key ∨ ∃ x ∈ xs, x.Declares s.scopes.length key := by
  induction hr with
  | pure a s => simp
  | ask _ ih => exact ih hs
  | @act _ _ x _ s _ _ _ rest ih =>
    have hevolves := x.evolves s
    rw [ih (EmitState.scopes_ne_nil_of_evolves hs hevolves), x.binds_iff hs, hevolves.length_eq]
    simp [or_assoc]
  | separate _ ih =>
    rw [ih hs]
    simp [Step.Declares, EmitState.onOutput, EmitState.Binds]
  | @within _ _ _ f body _ s _ u _ _ ys zs inner rest ihInner ihRest =>
    have hevolves : s.scopes.Evolves (f.exit s u).scopes := by
      rw [f.scopes_exit]
      exact (f.scopes_enter s ▸ inner.evolves).of_append
    rw [ihRest (EmitState.scopes_ne_nil_of_evolves hs hevolves), hevolves.length_eq,
      exists_declares_frame, ← or_assoc]
    apply or_congr_left
    cases f with
    | scope kind =>
      rw [binds_leave inner.evolves rfl rfl, or_iff_left (inner.not_declares (Nat.lt_succ_self _))]
    | _ => exact ihInner hs
  | @head _ _ _ body _ s _ u _ _ ys zs inner rest ihInner ihRest =>
    have hevolves : s.scopes.Evolves (Frame.head.exit s u).scopes := inner.evolves
    rw [ihRest (EmitState.scopes_ne_nil_of_evolves hs hevolves), hevolves.length_eq,
      exists_declares_frame, ← or_assoc]
    apply or_congr_left
    exact ihInner hs
  | @function _ _ shape _ _ _ s _ u v _ ws ys zs first inner rest ihFirst ihInner ihRest =>
    have hbody : Scopes.Evolves ({ kind := .function } :: s.scopes) v.scopes :=
      first.evolves.trans inner.evolves
    have hevolves : s.scopes.Evolves (shape.exit u v).leaveScope.scopes := hbody.drop 1
    -- All that happens in the function is one scope deeper.
    have hparams : ¬ ∃ x ∈ ws, x.Declares s.scopes.length key :=
      first.not_declares (Nat.lt_succ_self _)
    have hlength : u.scopes.length = s.scopes.length + 1 := first.evolves.length_eq
    have hinner : ¬ ∃ x ∈ ys, x.Declares s.scopes.length key := by
      apply inner.not_declares
      show s.scopes.length < u.scopes.length
      omega
    rw [ihRest (EmitState.scopes_ne_nil_of_evolves hs hevolves), hevolves.length_eq,
      binds_leave hbody rfl rfl]
    apply or_congr_right
    simp only [List.mem_append, List.mem_cons, or_and_right, exists_or, hparams, hinner, false_or]
    simp [Step.Declares]

/-- A function gives a scope with the names that it declares there. -/
theorem Runs.defines_iff {shape : FunctionShape} {params body : EmitM Unit} {scope : Scope}
    (hr : Runs env (EmitM.inFunction shape params body) s scope t xs) :
    scope.defines key = true ↔ ∃ x ∈ xs, x.Declares (s.scopes.length + 1) key := by
  cases hr with
  | @function _ _ _ _ _ _ _ _ u v _ ys zs _ first inner rest =>
    obtain ⟨rfl, -, rfl⟩ := rest.of_pure
    have hopened : (s.enterScope .function).scopes ≠ [] := List.cons_ne_nil _ _
    have hbrace : u.scopes ≠ [] := EmitState.scopes_ne_nil_of_evolves hopened first.evolves
    have hlength : (shape.enter u).scopes.length = s.scopes.length + 1 := first.evolves.length_eq
    have hnew : ¬ (s.enterScope .function).Binds key := by
      simp [EmitState.Binds, EmitState.enterScope, Scopes.enter, Scope.defines, Scope.definition?]
    obtain ⟨scope, outer, hscopes⟩ := List.exists_cons_of_ne_nil
      (EmitState.scopes_ne_nil_of_evolves hbrace inner.evolves)
    have hinnermost : v.innermost = scope := by simp [EmitState.innermost, hscopes]
    have hparams : u.Binds key ↔ ∃ x ∈ ys, x.Declares (s.scopes.length + 1) key := by
      rw [first.binds_iff hopened, or_iff_right hnew]
      rfl
    have hbody : v.Binds key ↔ u.Binds key ∨ ∃ x ∈ zs, x.Declares (s.scopes.length + 1) key := by
      rw [inner.binds_iff hbrace, hlength]
      rfl
    rw [hinnermost, ← EmitState.binds_cons hscopes, hbody, hparams]
    simp [or_and_right, exists_or, Step.Declares]

end Script
end EcmaPhp
