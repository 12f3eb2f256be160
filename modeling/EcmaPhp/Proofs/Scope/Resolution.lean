import EcmaPhp.Proofs.Scope.Registry

/-! What a reference finds and what it leaves behind: the definition in the innermost scope that has
one, and a note of the name in the scopes within that one, if it binds a variable there. -/
namespace EcmaPhp

namespace Scope

theorem use_of_mem {s : Scope} {name : String} (h : name ∈ s.uses) : s.use name = s := by
  simp [use, h]

theorem use_of_not_mem {s : Scope} {name : String} (h : name ∉ s.uses) :
    s.use name = { s with uses := s.uses ++ [name] } := by
  simp [use, h]

theorem definition?_eq_none_iff {s : Scope} {name : String} :
    s.definition? name = none ↔ s.defines name = false := by
  simp [defines]

@[simp]
theorem defines_use (s : Scope) (name other : String) :
    (s.use name).defines other = s.defines other := by
  rw [defines, definition?, definitions_use]
  rfl

end Scope

namespace Scopes

theorem capture_capture (a : Scopes) (name : String) :
    (a.capture name).capture name = a.capture name := by
  induction a with
  | nil => rfl
  | cons s outer ih =>
    cases hs : s.defines name with
    | true => rw [capture_cons_of_defines outer hs, capture_cons_of_defines outer hs]
    | false =>
      have hused : (s.use name).defines name = false := by rw [Scope.defines_use, hs]
      rw [capture_cons_of_not_defines outer hs, capture_cons_of_not_defines _ hused, ih,
        Scope.use_of_mem (s.mem_uses_use name)]

/-- A reference finds after another one what it would have found before it. -/
theorem resolve?_refer (a : Scopes) (m n : Node) : (a.refer m).resolve? n = a.resolve? n := by
  rw [resolve?, resolve?]
  congr 1
  funext name
  exact lookup?_eq_of_definitions name (map_definitions_refer a m)

/-- A reference for the second time changes nothing. -/
theorem refer_refer (a : Scopes) (n : Node) : (a.refer n).refer n = a.refer n := by
  have hcaptured : (a.refer n).captured? n = a.captured? n := by
    rw [captured?, captured?, resolve?_refer]
  rw [refer, hcaptured]
  cases hname : a.captured? n with
  | none => rfl
  | some name =>
    have hrefer : a.refer n = a.capture name := by rw [refer, hname]
    rw [hrefer]
    exact capture_capture a name

/-- What is captured in the scopes up to the one that defines the name. -/
theorem capture_append {inner outer : Scopes} {s : Scope} {name : String}
    (hinner : ∀ t ∈ inner, t.defines name = false) (hs : s.defines name = true) :
    (inner ++ s :: outer).capture name = inner.map (·.use name) ++ s :: outer := by
  induction inner with
  | nil => exact capture_cons_of_defines outer hs
  | cons t rest ih =>
    obtain ⟨ht, hrest⟩ := List.forall_mem_cons.mp hinner
    rw [List.cons_append, capture_cons_of_not_defines _ ht, ih hrest]
    rfl

end Scopes

namespace Registry

theorem assign_map_self (scope : Nat → Scope) (path : List Nat) :
    assign scope path (path.map scope) = scope := by
  induction path with
  | nil => rfl
  | cons i rest ih => rw [List.map_cons, assign, ih, Function.update_eq_self]

/-- New values for the first of some scopes leave the others alone. -/
theorem assign_append (scope g : Nat → Scope) (front back : List Nat) :
    assign scope (front ++ back) (front.map g ++ back.map scope) =
      fun i => if i ∈ front then g i else scope i := by
  induction front with
  | nil => simp [assign_map_self]
  | cons j rest ih =>
    rw [List.cons_append, List.map_cons, List.cons_append, assign, ih]
    funext i
    by_cases hij : i = j
    · simp [hij]
    · simp [hij]

theorem write_chain (r : Registry) : r.write r.chain = r := by
  rw [write, chain, assign_map_self]

/-- What a node refers to at the current place: a name and its definition `d` in the scope `i`, the
innermost one that defines the name; `inner` are the scopes within it. -/
structure Finds (r : Registry) (n : Node) (name : String) (inner : List Nat) (i : Nat) (d : Node) :
    Prop where
  key : n.bindingKey? = some name
  path : inner ++ [i] <+: r.path
  inside : ∀ j ∈ inner, (r.scope j).defines name = false
  found : (r.scope i).definition? name = some d

variable {r : Registry} {n d : Node} {name : String} {inner : List Nat} {i : Nat}

theorem lookup?_chain (r : Registry) (name : String) :
    r.chain.lookup? name = r.path.findSome? fun j => (r.scope j).definition? name := by
  rw [chain, Scopes.lookup?, List.findSome?_map]
  rfl

theorem exists_finds_iff (hkey : n.bindingKey? = some name) :
    (∃ inner i, r.Finds n name inner i d) ↔ r.chain.lookup? name = some d := by
  rw [lookup?_chain, List.findSome?_eq_some_iff]
  constructor
  · rintro ⟨inner, i, -, ⟨outer, hpath⟩, hinside, hfound⟩
    refine ⟨inner, i, outer, by simp [← hpath], hfound, fun j hj => ?_⟩
    exact Scope.definition?_eq_none_iff.mpr (hinside j hj)
  · rintro ⟨inner, i, outer, hpath, hfound, hinside⟩
    refine ⟨inner, i, hkey, ⟨outer, by simp [hpath]⟩, fun j hj => ?_, hfound⟩
    exact Scope.definition?_eq_none_iff.mp (hinside j hj)

/-- The definition that a node refers to is that of the innermost scope with one. -/
theorem resolve?_eq_some_iff :
    r.chain.resolve? n = some d ↔ ∃ name inner i, r.Finds n name inner i d := by
  rw [Scopes.resolve?, Option.bind_eq_some_iff]
  constructor
  · rintro ⟨name, hkey, hlookup⟩
    exact ⟨name, (exists_finds_iff hkey).mpr hlookup⟩
  · rintro ⟨name, inner, i, hfinds⟩
    exact ⟨name, hfinds.key, (exists_finds_iff hfinds.key).mp ⟨inner, i, hfinds⟩⟩

theorem resolve?_eq_none_iff :
    r.chain.resolve? n = none ↔
      ∀ name, n.bindingKey? = some name → ∀ i ∈ r.path, (r.scope i).defines name = false := by
  simp only [Scopes.resolve?, Option.bind_eq_none_iff, lookup?_chain, List.findSome?_eq_none_iff,
    Scope.definition?_eq_none_iff]

theorem Finds.resolve?_eq (h : r.Finds n name inner i d) : r.chain.resolve? n = some d :=
  resolve?_eq_some_iff.mpr ⟨name, inner, i, h⟩

theorem Finds.captured?_eq (h : r.Finds n name inner i d) :
    r.chain.captured? n = if d.kind.bindsVariable then some name else none := by
  simp [Scopes.captured?, h.key, h.resolve?_eq]

/-- A captured name is noted within the scope that defines it, where that is news. -/
theorem Finds.write_refer (h : r.Finds n name inner i d) (hvar : d.kind.bindsVariable = true) :
    r.write (r.chain.refer n) =
      { r with
        scope := fun j =>
          if j ∈ inner ∧ name ∉ (r.scope j).uses then
            { r.scope j with uses := (r.scope j).uses ++ [name] }
          else r.scope j } := by
  obtain ⟨outer, hpath⟩ := h.path
  have hchain : r.chain = inner.map r.scope ++ r.scope i :: outer.map r.scope := by
    simp [chain, ← hpath]
  have hdefines : (r.scope i).defines name = true := by simp [Scope.defines, h.found]
  have hinside : ∀ t ∈ inner.map r.scope, t.defines name = false := by
    rw [List.forall_mem_map]
    exact h.inside
  have hcapture : r.chain.refer n = r.chain.capture name := by
    rw [Scopes.refer, h.captured?_eq, if_pos hvar]
  have hrefer : r.chain.refer n =
      inner.map (fun j => (r.scope j).use name) ++ (i :: outer).map r.scope := by
    rw [hcapture, hchain, Scopes.capture_append hinside hdefines, List.map_map]
    rfl
  have hsplit : r.path = inner ++ i :: outer := by simp [← hpath]
  rw [write, hrefer, hsplit, assign_append]
  congr 1
  funext j
  by_cases hj : j ∈ inner
  · by_cases hmem : name ∈ (r.scope j).uses
    · simp [hj, hmem, Scope.use_of_mem hmem]
    · simp [hj, hmem, Scope.use_of_not_mem hmem]
  · simp [hj]

/-- Nothing is noted of a name of the current scope, or of one that is no variable. -/
theorem write_refer_eq_self
    (h : ∀ name inner i d, r.Finds n name inner i d → inner = [] ∨ d.kind.bindsVariable = false) :
    r.write (r.chain.refer n) = r := by
  cases hcaptured : r.chain.captured? n with
  | none => rw [Scopes.refer, hcaptured, write_chain]
  | some name =>
    obtain ⟨d, hresolve⟩ : ∃ d, r.chain.resolve? n = some d := by
      rw [← Option.isSome_iff_exists]
      by_contra hnone
      rw [Option.not_isSome_iff_eq_none] at hnone
      simp [Scopes.captured?, hnone] at hcaptured
    obtain ⟨key, inner, i, hfinds⟩ := resolve?_eq_some_iff.mp hresolve
    rcases h key inner i d hfinds with rfl | hvar
    · by_cases hvar : d.kind.bindsVariable = true
      · simp [hfinds.write_refer hvar]
      · simp [hfinds.captured?_eq, hvar] at hcaptured
    · simp [hfinds.captured?_eq, hvar] at hcaptured

theorem chain_write_refer (r : Registry) (n : Node) :
    (r.write (r.chain.refer n)).chain = r.chain.refer n :=
  r.chain_write (Scopes.Evolves.refer r.chain n).length_eq

theorem step_resolve_resolve (r : Registry) (n : Node) (captured : Bool) :
    (r.step (.resolve n captured)).step (.resolve n captured) = r.step (.resolve n captured) := by
  cases captured with
  | false => rfl
  | true =>
    let noted := r.write (r.chain.refer n)
    change noted.write (noted.chain.refer n) = noted
    rw [r.chain_write_refer n, Scopes.refer_refer, ← r.chain_write_refer n]
    exact noted.write_chain

theorem resolve?_step_resolve (r : Registry) (n : Node) (captured : Bool) :
    (r.step (.resolve n captured)).chain.resolve? n = r.chain.resolve? n := by
  cases captured with
  | false => rfl
  | true =>
    change (r.write (r.chain.refer n)).chain.resolve? n = _
    rw [chain_write_refer, Scopes.resolve?_refer]

end Registry

/-- Whatever has happened to the scopes of a program, a reference finds the definition in the
innermost scope around it that has one, and nothing if there is none. If it is to be captured and its
definition binds a variable further out, the scopes within the defining one that have not noted the
name yet note it last; no other scope and nothing else of a scope changes, and nothing at all in any
other case. The same reference again finds the same and changes nothing. -/
theorem Registry.reference_notes_exactly (steps : List ScopeStep) (n : Node) (captured : Bool) :
    let r := Registry.run steps
    let r' := r.step (.resolve n captured)
    (∀ d, r.chain.resolve? n = some d ↔ ∃ name inner i, r.Finds n name inner i d) ∧
      (r.chain.resolve? n = none ↔
        ∀ name, n.bindingKey? = some name → ∀ i ∈ r.path, (r.scope i).defines name = false) ∧
      (∀ name inner i d, r.Finds n name inner i d →
        captured = true → d.kind.bindsVariable = true →
        r' = { r with
          scope := fun j =>
            if j ∈ inner ∧ name ∉ (r.scope j).uses then
              { r.scope j with uses := (r.scope j).uses ++ [name] }
            else r.scope j }) ∧
      (captured = false ∨
          (∀ name inner i d, r.Finds n name inner i d →
            inner = [] ∨ d.kind.bindsVariable = false) →
        r' = r) ∧
      r'.step (.resolve n captured) = r' ∧ r'.chain.resolve? n = r.chain.resolve? n := by
  intro r r'
  refine ⟨fun d => resolve?_eq_some_iff, resolve?_eq_none_iff, ?_, ?_,
    r.step_resolve_resolve n captured, r.resolve?_step_resolve n captured⟩
  · rintro name inner i d hfinds rfl hvar
    exact hfinds.write_refer hvar
  · intro h
    cases captured with
    | false => rfl
    | true => exact write_refer_eq_self (h.resolve_left (by decide))

/-- Two functions around a reference to a variable of the program; the outer one has noted the name
before, for another reference. -/
def nestedReference : List ScopeStep :=
  let name : Node := { kind := .identifier, field := some .name, text := "x" }
  [.enter .program, .register { kind := .variableDeclarator, children := [name] },
    .enter .function, .resolve name true, .enter .function]

theorem Registry.reference_notes_exactly_nested :
    let n : Node := { kind := .identifier, text := "x" }
    let r := Registry.run nestedReference
    ∃ d, r.chain.resolve? n = some d ∧ d.kind = .variableDeclarator ∧
      (r.step (.resolve n true)).scope = (fun j =>
        if j ∈ [2, 1] ∧ "x" ∉ (r.scope j).uses then
          { r.scope j with uses := (r.scope j).uses ++ ["x"] }
        else r.scope j) ∧
      ((r.step (.resolve n true)).scope 2).uses = ["x"] ∧
      ((r.step (.resolve n true)).scope 1).uses = ["x"] := by
  intro n r
  have hpath : r.path = [2, 1, 0] := by decide +kernel
  have hkind : ((r.scope 0).definition? "x").map (·.kind) = some .variableDeclarator := by
    decide +kernel
  obtain ⟨d, hd, hkind⟩ := Option.map_eq_some_iff.mp hkind
  have hfinds : r.Finds n "x" [2, 1] 0 d := ⟨rfl, by simp [hpath], by decide +kernel, hd⟩
  have hvar : d.kind.bindsVariable = true := by rw [hkind]; rfl
  obtain ⟨hfound, -, hnotes, -⟩ := Registry.reference_notes_exactly nestedReference n true
  refine ⟨d, (hfound d).mpr ⟨"x", [2, 1], 0, hfinds⟩, hkind, ?_, by decide +kernel,
    by decide +kernel⟩
  exact congrArg Registry.scope (hnotes "x" [2, 1] 0 d hfinds rfl hvar)

end EcmaPhp
