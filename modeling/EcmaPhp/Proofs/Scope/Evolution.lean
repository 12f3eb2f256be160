import EcmaPhp.Scope.Chain
import Mathlib.Data.List.Forall2

/-! How a chain of scopes can change: scopes gain names, and only the innermost one gains
definitions. -/
namespace EcmaPhp

namespace Scope

/-- A scope with more definitions and more uses. -/
structure Grows (s s' : Scope) : Prop where
  kind : s'.kind = s.kind
  definitions : s.definitions <+: s'.definitions
  uses : s.uses <+: s'.uses

namespace Grows

variable {s s' s'' : Scope} {name : String}

theorem refl (s : Scope) : Grows s s := ⟨rfl, List.prefix_refl _, List.prefix_refl _⟩

instance : Std.Refl Grows := ⟨refl⟩

theorem trans (h : Grows s s') (h' : Grows s' s'') : Grows s s'' :=
  ⟨h'.kind.trans h.kind, h.definitions.trans h'.definitions, h.uses.trans h'.uses⟩

/-- A definition stays as it is. -/
theorem definition?_eq {n : Node} (h : Grows s s') (hdef : s.definition? name = some n) :
    s'.definition? name = some n := by
  obtain ⟨more, hmore⟩ := h.definitions
  rw [definition?] at hdef ⊢
  rw [← hmore, List.lookup_append, hdef, Option.some_or]

theorem defines (h : Grows s s') (hdef : s.defines name = true) : s'.defines name = true := by
  obtain ⟨n, hn⟩ := Option.isSome_iff_exists.mp hdef
  rw [Scope.defines, h.definition?_eq hn, Option.isSome_some]

theorem define (s : Scope) (name : String) (n : Node) : Grows s (s.define name n) := by
  rw [Scope.define]
  split
  · exact .refl s
  · exact ⟨rfl, List.prefix_append _ _, List.prefix_refl _⟩

theorem defineAll (s : Scope) (bindings : List (String × Node)) :
    Grows s (s.defineAll bindings) := by
  induction bindings generalizing s with
  | nil => exact .refl s
  | cons b rest ih => exact (define s b.1 b.2).trans (ih (s.define b.1 b.2))

theorem use (s : Scope) (name : String) : Grows s (s.use name) := by
  rw [Scope.use]
  split
  · exact .refl s
  · exact ⟨rfl, List.prefix_refl _, List.prefix_append _ _⟩

theorem addAccessor (s : Scope) (n : Node) (a : Accessor) : Grows s (s.addAccessor n a) := by
  cases a with
  | getter => exact ⟨rfl, List.prefix_refl _, List.prefix_refl _⟩
  | setter => exact ⟨rfl, List.prefix_refl _, List.prefix_refl _⟩

end Grows

@[simp]
theorem definitions_use (s : Scope) (name : String) : (s.use name).definitions = s.definitions := by
  rw [use]
  split <;> rfl

@[simp]
theorem definitions_addAccessor (s : Scope) (n : Node) (a : Accessor) :
    (s.addAccessor n a).definitions = s.definitions := by
  cases a <;> rfl

theorem mem_uses_use (s : Scope) (name : String) : name ∈ (s.use name).uses := by
  rw [use]
  split
  · simp_all
  · simp

theorem mem_captures {s : Scope} {name : String} :
    name ∈ s.captures ↔ name ∈ s.uses ∧ s.defines name = false := by
  simp [captures]

/-- A scope that defines no name twice. -/
def Distinct (s : Scope) : Prop := (s.definitions.map (·.1)).Nodup

theorem defines_eq_true_iff {s : Scope} {name : String} :
    s.defines name = true ↔ name ∈ s.definitions.map (·.1) := by
  simp [defines, definition?, List.lookup_isSome_iff]

theorem Distinct.define {s : Scope} (h : s.Distinct) (name : String) (n : Node) :
    (s.define name n).Distinct := by
  unfold Scope.define
  split
  · exact h
  · rename_i hnew
    unfold Distinct
    rw [List.map_append, List.map_singleton]
    refine List.nodup_append.mpr ⟨h, by simp, ?_⟩
    rintro other hother _ hname rfl
    rw [List.mem_singleton.mp hname] at hother
    exact hnew (defines_eq_true_iff.mpr hother)

theorem Distinct.defineAll {s : Scope} (h : s.Distinct) (bindings : List (String × Node)) :
    (s.defineAll bindings).Distinct := by
  induction bindings generalizing s with
  | nil => exact h
  | cons b rest ih => exact ih (h.define b.1 b.2)

end Scope

namespace Scopes

theorem map_definitions_capture (a : Scopes) (name : String) :
    (a.capture name).map Scope.definitions = a.map Scope.definitions := by
  rw [capture, within]
  induction a with
  | nil => rfl
  | cons s outer ih =>
    by_cases hs : s.defines name
    · simp [hs]
    · simpa [hs] using ih

/-- A reference binds nothing. -/
theorem map_definitions_refer (a : Scopes) (n : Node) :
    (a.refer n).map Scope.definitions = a.map Scope.definitions := by
  rw [refer]
  split
  · exact map_definitions_capture a _
  · rfl

/-- Each scope of a chain grows, and only the innermost gets new definitions. -/
structure Evolves (before after : Scopes) : Prop where
  grows : List.Forall₂ Scope.Grows before after
  outer : after.tail.map Scope.definitions = before.tail.map Scope.definitions

namespace Evolves

variable {a b c : Scopes}

theorem refl (a : Scopes) : Evolves a a := ⟨List.forall₂_refl a, rfl⟩

theorem trans (h : Evolves a b) (h' : Evolves b c) : Evolves a c := by
  refine ⟨?_, h'.outer.trans h.outer⟩
  have hgrows := h.grows
  have hgrows' := h'.grows
  clear h h'
  induction hgrows generalizing c with
  | nil =>
    cases hgrows'
    exact .nil
  | cons hs _ ih =>
    cases hgrows' with
    | cons hs' hrest => exact .cons (hs.trans hs') (ih hrest)

theorem length_eq (h : Evolves a b) : b.length = a.length := h.grows.length_eq.symm

/-- The chains without their innermost scopes evolve too. -/
theorem drop (h : Evolves a b) (n : Nat) : Evolves (a.drop n) (b.drop n) := by
  refine ⟨List.forall₂_drop n h.grows, ?_⟩
  have houter := congrArg (List.drop n) h.outer
  simpa [List.tail_drop, List.map_drop, Nat.add_comm] using houter

theorem of_append {opened : Scopes} (h : Evolves (opened ++ a) b) :
    Evolves a (b.drop opened.length) := by
  have hdrop := h.drop opened.length
  rwa [List.drop_left] at hdrop

theorem of_definitions (hgrows : List.Forall₂ Scope.Grows a b)
    (hdef : b.map Scope.definitions = a.map Scope.definitions) : Evolves a b :=
  ⟨hgrows, by rw [List.map_tail, List.map_tail, hdef]⟩

theorem modifyCurrent (a : Scopes) (f : Scope → Scope) (hf : ∀ s, Scope.Grows s (f s)) :
    Evolves a (a.modifyCurrent f) := by
  cases a with
  | nil => exact .refl []
  | cons s outer => exact ⟨.cons (hf s) (List.forall₂_refl outer), rfl⟩

theorem modifyNearest (a : Scopes) (kind : ScopeKind) (f : Scope → Scope)
    (hf : ∀ s, Scope.Grows s (f s)) (hdef : ∀ s, (f s).definitions = s.definitions) :
    Evolves a (modifyNearest kind f a) := by
  suffices h : List.Forall₂ Scope.Grows a (Scopes.modifyNearest kind f a) ∧
      (Scopes.modifyNearest kind f a).map Scope.definitions = a.map Scope.definitions from
    of_definitions h.1 h.2
  induction a with
  | nil => exact ⟨.nil, rfl⟩
  | cons s outer ih =>
    rw [Scopes.modifyNearest]
    split
    · exact ⟨.cons (hf s) (List.forall₂_refl outer), by simp [hdef]⟩
    · exact ⟨.cons (.refl s) ih.1, by simp [ih.2]⟩

theorem register (a : Scopes) (n : Node) : Evolves a (a.register n) := by
  rw [Scopes.register]
  split
  · rename_i accessor _
    rw [Scopes.addAccessor]
    split
    · exact modifyNearest a _ _ (fun s => .addAccessor s n accessor) fun s => by simp
    · exact modifyCurrent a _ fun s => .addAccessor s n accessor
  · exact modifyCurrent a _ fun s => .defineAll s n.bindings

theorem capture (a : Scopes) (name : String) : Evolves a (a.capture name) := by
  refine of_definitions ?_ (map_definitions_capture a name)
  rw [Scopes.capture, within]
  induction a with
  | nil => exact .nil
  | cons s outer ih =>
    by_cases hs : s.defines name
    · simp [hs, Scope.Grows.refl]
    · simpa [hs, Scope.Grows.use] using ih

theorem refer (a : Scopes) (n : Node) : Evolves a (a.refer n) := by
  rw [Scopes.refer]
  split
  · exact capture a _
  · exact .refl a

end Evolves

theorem distinct_of_definitions {a b : Scopes} (ha : ∀ s ∈ a, s.Distinct)
    (h : b.map Scope.definitions = a.map Scope.definitions) : ∀ s ∈ b, s.Distinct := by
  intro s hs
  have hmem : s.definitions ∈ a.map Scope.definitions := h ▸ List.mem_map_of_mem hs
  obtain ⟨t, ht, heq⟩ := List.mem_map.mp hmem
  unfold Scope.Distinct
  rw [← heq]
  exact ha t ht

theorem distinct_modifyCurrent {a : Scopes} {f : Scope → Scope} (ha : ∀ s ∈ a, s.Distinct)
    (hf : ∀ s, s.Distinct → (f s).Distinct) : ∀ s ∈ a.modifyCurrent f, s.Distinct := by
  cases a with
  | nil => exact ha
  | cons s outer =>
    rw [List.forall_mem_cons] at ha
    exact List.forall_mem_cons.mpr ⟨hf s ha.1, ha.2⟩

theorem distinct_modifyNearest {a : Scopes} {kind : ScopeKind} {f : Scope → Scope}
    (ha : ∀ s ∈ a, s.Distinct) (hf : ∀ s, s.Distinct → (f s).Distinct) :
    ∀ s ∈ modifyNearest kind f a, s.Distinct := by
  induction a with
  | nil => exact ha
  | cons s outer ih =>
    rw [List.forall_mem_cons] at ha
    rw [modifyNearest]
    split
    · exact List.forall_mem_cons.mpr ⟨hf s ha.1, ha.2⟩
    · exact List.forall_mem_cons.mpr ⟨ha.1, ih ha.2⟩

theorem distinct_register {a : Scopes} (ha : ∀ s ∈ a, s.Distinct) (n : Node) :
    ∀ s ∈ a.register n, s.Distinct := by
  have haccessor (x : Accessor) (s : Scope) (hs : s.Distinct) : (s.addAccessor n x).Distinct := by
    unfold Scope.Distinct
    rw [Scope.definitions_addAccessor]
    exact hs
  rw [Scopes.register]
  split
  · rename_i x _
    rw [Scopes.addAccessor]
    split
    · exact distinct_modifyNearest ha (haccessor x)
    · exact distinct_modifyCurrent ha (haccessor x)
  · exact distinct_modifyCurrent ha fun s hs => hs.defineAll n.bindings

theorem distinct_refer {a : Scopes} (ha : ∀ s ∈ a, s.Distinct) (n : Node) :
    ∀ s ∈ a.refer n, s.Distinct :=
  distinct_of_definitions ha (map_definitions_refer a n)

theorem lookup?_eq_of_definitions {a b : Scopes} (name : String)
    (h : b.map Scope.definitions = a.map Scope.definitions) : b.lookup? name = a.lookup? name := by
  have hlookup (c : Scopes) :
      c.lookup? name = (c.map Scope.definitions).findSome? fun d => d.lookup name := by
    rw [lookup?, List.findSome?_map]
    rfl
  rw [hlookup, hlookup, h]

theorem lookup?_append_of_not_defines {inside outer : Scopes} {name : String}
    (h : ∀ s ∈ inside, s.defines name = false) :
    (inside ++ outer).lookup? name = outer.lookup? name := by
  have hnone : inside.findSome? (·.definition? name) = none := by
    rw [List.findSome?_eq_none_iff]
    intro s hs
    simpa [Scope.defines] using h s hs
  rw [lookup?, List.findSome?_append, hnone, Option.none_or, lookup?]

/-- A capture is noted in every scope within the one that binds the name. -/
theorem drop_capture {inside : Scopes} (outer : Scopes) {s : Scope} {name : String}
    (hinside : ∀ s ∈ inside, s.defines name = false) (hs : s.defines name = false) :
    ∃ outer', ((inside ++ s :: outer).capture name).drop inside.length = s.use name :: outer' := by
  have hdrop : (inside ++ s :: outer).dropWhile (fun s => !s.defines name) =
      outer.dropWhile fun s => !s.defines name := by
    rw [List.dropWhile_append_of_pos (by simpa using hinside),
      List.dropWhile_cons_of_pos (by simpa using hs)]
  rw [capture, within, hdrop, List.takeWhile_append_of_pos (by simpa using hinside),
    List.takeWhile_cons_of_pos (by simpa using hs)]
  simp

/-- The name that a node refers to, if the scopes bind it to a variable. -/
theorem captured?_eq_some {scopes : Scopes} {n d : Node} {name : String}
    (hkey : n.bindingKey? = some name)
    (hlookup : scopes.lookup? name = some d) (hvar : d.kind.bindsVariable = true) :
    scopes.captured? n = some name := by
  have hresolve : scopes.resolve? n = some d := by rw [resolve?, hkey, Option.bind_some, hlookup]
  simp [captured?, hkey, hresolve, hvar]

end Scopes
end EcmaPhp
