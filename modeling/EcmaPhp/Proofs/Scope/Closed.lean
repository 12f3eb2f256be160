import EcmaPhp.Proofs.Scope.Evolution
import Mathlib.Data.List.Nodup

/-! Closed chains of scopes: a name that a scope reads from outside comes down to it from the scope
that binds the name, through every scope between the two. -/
namespace EcmaPhp

namespace Scope

theorem nodup_uses_use {s : Scope} (h : s.uses.Nodup) (name : String) :
    (s.use name).uses.Nodup := by
  unfold use
  split
  · exact h
  · rename_i hnew
    apply List.Nodup.append h (List.nodup_singleton name)
    simpa using hnew

theorem mem_uses_or_eq_of_use {s : Scope} {name other : String} (h : other ∈ (s.use name).uses) :
    other ∈ s.uses ∨ other = name := by
  unfold use at h
  split at h
  · exact .inl h
  · simpa using h

@[simp]
theorem uses_define (s : Scope) (name : String) (n : Node) :
    (s.define name n).uses = s.uses := by
  unfold define
  split <;> rfl

@[simp]
theorem uses_defineAll (s : Scope) (bindings : List (String × Node)) :
    (s.defineAll bindings).uses = s.uses := by
  induction bindings generalizing s with
  | nil => rfl
  | cons b rest ih =>
    have hrest : (s.defineAll (b :: rest)).uses = (s.define b.1 b.2).uses := ih (s.define b.1 b.2)
    rw [hrest, uses_define]

@[simp]
theorem uses_addAccessor (s : Scope) (n : Node) (a : Accessor) :
    (s.addAccessor n a).uses = s.uses := by
  cases a <;> rfl

/-- A name that code inside the scope finds there, or finds further out through the scope. -/
def Provides (s : Scope) (name : String) : Prop := s.defines name = true ∨ name ∈ s.uses

def BindsVariable (s : Scope) (name : String) : Prop :=
  ∃ d, s.definition? name = some d ∧ d.kind.bindsVariable = true

theorem Provides.defines_or_mem_captures {s : Scope} {name : String} (h : s.Provides name) :
    s.defines name = true ∨ name ∈ s.captures := by
  cases hdef : s.defines name with
  | true => exact .inl rfl
  | false =>
    have huses : name ∈ s.uses := h.resolve_left (by simp [hdef])
    exact .inr (mem_captures.mpr ⟨huses, hdef⟩)

theorem Grows.provides {s s' : Scope} {name : String} (h : Grows s s') (hs : s.Provides name) :
    s'.Provides name :=
  hs.imp h.defines fun hmem => h.uses.subset hmem

theorem Grows.bindsVariable {s s' : Scope} {name : String} (h : Grows s s')
    (hs : s.BindsVariable name) : s'.BindsVariable name := by
  obtain ⟨d, hd, hvar⟩ := hs
  exact ⟨d, h.definition?_eq hd, hvar⟩

/-- What a scope reads from outside comes down to it: the next scope provides the name, and some
scope further out binds it as a variable. -/
structure ClosedIn (outer : Scopes) (s : Scope) : Prop where
  nodup : s.uses.Nodup
  passed : ∀ name ∈ s.uses, ∃ next ∈ outer.head?, next.Provides name
  bound : ∀ name ∈ s.uses, ∃ a ∈ outer, a.BindsVariable name

theorem closedIn_of_uses_eq_nil {outer : Scopes} {s : Scope} (h : s.uses = []) :
    ClosedIn outer s := by
  constructor <;> simp [h]

end Scope

namespace Scopes

variable {a b : Scopes} {name : String}

theorem exists_head_provides (h : List.Forall₂ Scope.Grows a b)
    (ha : ∃ next ∈ a.head?, next.Provides name) : ∃ next ∈ b.head?, next.Provides name := by
  obtain ⟨next, hnext, hprovides⟩ := ha
  cases h with
  | nil => cases hnext
  | cons hs _ =>
    obtain rfl := Option.some.inj hnext
    exact ⟨_, rfl, hs.provides hprovides⟩

theorem exists_bindsVariable (h : List.Forall₂ Scope.Grows a b)
    (ha : ∃ s ∈ a, s.BindsVariable name) : ∃ s ∈ b, s.BindsVariable name := by
  induction h with
  | nil => simp at ha
  | cons hs _ ih =>
    simp only [List.mem_cons, exists_eq_or_imp] at ha ⊢
    exact ha.imp hs.bindsVariable ih

end Scopes

/-- Names that the outer scopes gain do no harm. -/
theorem Scope.ClosedIn.mono {outer outer' : Scopes} {s s' : Scope} (h : ClosedIn outer s)
    (hgrows : List.Forall₂ Grows outer outer') (huses : s'.uses = s.uses) :
    ClosedIn outer' s' := by
  refine ⟨huses ▸ h.nodup, ?_, ?_⟩
  · intro name hname
    exact Scopes.exists_head_provides hgrows (h.passed name (huses ▸ hname))
  · intro name hname
    exact Scopes.exists_bindsVariable hgrows (h.bound name (huses ▸ hname))

namespace Scopes

/-- Every scope of the chain is closed in those around it. -/
def Closed : Scopes → Prop
  | [] => True
  | s :: outer => s.ClosedIn outer ∧ Closed outer

theorem map_uses_modifyCurrent (a : Scopes) (f : Scope → Scope) (hf : ∀ s, (f s).uses = s.uses) :
    (a.modifyCurrent f).map Scope.uses = a.map Scope.uses := by
  cases a with
  | nil => rfl
  | cons s outer => simp [modifyCurrent, hf]

theorem map_uses_modifyNearest (a : Scopes) (kind : ScopeKind) (f : Scope → Scope)
    (hf : ∀ s, (f s).uses = s.uses) :
    (modifyNearest kind f a).map Scope.uses = a.map Scope.uses := by
  induction a with
  | nil => rfl
  | cons s outer ih =>
    unfold modifyNearest
    split <;> simp [hf, ih]

/-- A declaration reads nothing. -/
theorem map_uses_register (a : Scopes) (n : Node) :
    (a.register n).map Scope.uses = a.map Scope.uses := by
  unfold register
  split
  · unfold addAccessor
    split
    · exact map_uses_modifyNearest a _ _ fun s => s.uses_addAccessor n _
    · exact map_uses_modifyCurrent a _ fun s => s.uses_addAccessor n _
  · exact map_uses_modifyCurrent a _ fun s => s.uses_defineAll n.bindings

theorem Closed.of_grows {a b : Scopes} (h : a.Closed) (hgrows : List.Forall₂ Scope.Grows a b)
    (huses : b.map Scope.uses = a.map Scope.uses) : b.Closed := by
  induction hgrows with
  | nil => trivial
  | cons _ hrest ih =>
    obtain ⟨hhead, htail⟩ := List.cons.inj huses
    exact ⟨h.1.mono hrest hhead, ih h.2 htail⟩

theorem Closed.register {a : Scopes} (h : a.Closed) (n : Node) : (a.register n).Closed :=
  h.of_grows (Evolves.register a n).grows (map_uses_register a n)

theorem capture_cons_of_defines {s : Scope} (outer : Scopes) {name : String}
    (h : s.defines name = true) : capture (s :: outer) name = s :: outer := by
  simp [capture, within, h]

theorem capture_cons_of_not_defines {s : Scope} (outer : Scopes) {name : String}
    (h : s.defines name = false) :
    capture (s :: outer) name = s.use name :: capture outer name := by
  simp [capture, within, h]

theorem lookup?_cons_of_not_defines {s : Scope} (outer : Scopes) {name : String}
    (h : s.defines name = false) : lookup? (s :: outer) name = lookup? outer name := by
  show lookup? ([s] ++ outer) name = lookup? outer name
  apply lookup?_append_of_not_defines
  simpa using h

/-- After a capture the innermost scope provides the name. -/
theorem head_capture_provides {a : Scopes} {name : String} (h : (a.lookup? name).isSome = true) :
    ∃ next ∈ (a.capture name).head?, next.Provides name := by
  cases a with
  | nil => cases h
  | cons s outer =>
    cases hs : s.defines name with
    | true => exact ⟨s, by rw [capture_cons_of_defines outer hs]; rfl, .inl hs⟩
    | false =>
      refine ⟨s.use name, ?_, .inr (s.mem_uses_use name)⟩
      rw [capture_cons_of_not_defines outer hs]
      rfl

theorem exists_bindsVariable_of_lookup? {a : Scopes} {name : String} {d : Node}
    (h : a.lookup? name = some d) (hvar : d.kind.bindsVariable = true) :
    ∃ s ∈ a, s.BindsVariable name := by
  obtain ⟨s, hs, hd⟩ := List.exists_of_findSome?_eq_some h
  exact ⟨s, hs, d, hd, hvar⟩

/-- The scopes that note a captured name pass it on, from the one that binds it down to the
innermost. -/
theorem Closed.capture {a : Scopes} {name : String} {d : Node} (h : a.Closed)
    (hd : a.lookup? name = some d) (hvar : d.kind.bindsVariable = true) :
    (a.capture name).Closed := by
  induction a with
  | nil => trivial
  | cons s outer ih =>
    cases hs : s.defines name with
    | true =>
      rw [capture_cons_of_defines outer hs]
      exact h
    | false =>
      rw [lookup?_cons_of_not_defines outer hs] at hd
      rw [capture_cons_of_not_defines outer hs]
      have hgrows := (Evolves.capture outer name).grows
      -- the old uses only need that the outer scopes grow; the new one comes from the next scope
      have hold : s.ClosedIn (Scopes.capture outer name) := h.1.mono hgrows rfl
      refine ⟨⟨Scope.nodup_uses_use hold.nodup name, ?_, ?_⟩, ih h.2 hd⟩
      · intro other hother
        rcases Scope.mem_uses_or_eq_of_use hother with hmem | rfl
        · exact hold.passed other hmem
        · exact head_capture_provides (by rw [hd]; rfl)
      · intro other hother
        rcases Scope.mem_uses_or_eq_of_use hother with hmem | rfl
        · exact hold.bound other hmem
        · exact exists_bindsVariable hgrows (exists_bindsVariable_of_lookup? hd hvar)

theorem lookup?_of_captured? {a : Scopes} {n : Node} {name : String}
    (h : a.captured? n = some name) :
    ∃ d, a.lookup? name = some d ∧ d.kind.bindsVariable = true := by
  unfold captured? at h
  split at h
  · rename_i key d hkey hresolve
    split at h
    · rename_i hvar
      obtain rfl := Option.some.inj h
      rw [resolve?, hkey, Option.bind_some] at hresolve
      exact ⟨d, hresolve, hvar⟩
    · cases h
  · cases h

theorem Closed.refer {a : Scopes} (h : a.Closed) (n : Node) : (a.refer n).Closed := by
  unfold Scopes.refer
  split
  · rename_i name hname
    obtain ⟨d, hd, hvar⟩ := lookup?_of_captured? hname
    exact h.capture hd hvar
  · exact h

end Scopes

end EcmaPhp
