import EcmaPhp.Proofs.Script.Steps

/-! Scripts that refer to a name before they write the variable of that name. -/
namespace EcmaPhp
open EmitM

/-- A node that can stand for the variable of its name. -/
def Node.isName (n : Node) : Bool :=
  n.kind = .identifier || n.kind = .shorthandProperty || n.kind = .shorthandPattern

theorem Node.bindingKey?_of_isName {n : Node} (h : n.isName = true) :
    n.bindingKey? = some n.text := by
  simp only [Node.isName, Bool.or_eq_true, decide_eq_true_eq] at h
  rcases h with (hkind | hkind) | hkind <;> simp [Node.bindingKey?, hkind]

namespace Script

variable {h : Bool} {α β : Type}

/-- A script that refers to a name before it writes the variable of that name, and changes nothing
but the output before that. -/
def RefersFirst (n : Node) {h : Bool} {α : Type} : Script h α → Prop
  | .pure _ | .fail _ => True
  | .ask _ next => ∀ b, (next b).RefersFirst n
  | .act (.refer m) _ => m = n
  | .act (.edit (.text cs)) next => ¬ '$' :: n.text.toList <:+ cs ∧ next.RefersFirst n
  | _ => False

/-- A frame around a name holds a script that refers to it first. -/
def RefersIn (f : Frame) (body : Script h α) : Prop :=
  match f with
  | .node n _ => n.isName = true → body.RefersFirst n
  | _ => True

/-- Each frame of a script that is around a name refers to it first. -/
def Referring {h : Bool} {α : Type} : Script h α → Prop
  | .pure _ | .fail _ => True
  | .ask _ next => ∀ b, (next b).Referring
  | .act _ next | .separate next => next.Referring
  | .within f body next => body.RefersIn f ∧ body.Referring ∧ ∀ b, (next b).Referring
  | .head body next => body.Referring ∧ ∀ b, (next b).Referring
  | .function _ params body next => params.Referring ∧ body.Referring ∧ ∀ b, (next b).Referring

/-- A result that a script may give. -/
def Gives (a : α) {h : Bool} : Script h α → Prop
  | .pure b => a = b
  | .fail _ => False
  | .ask _ next => ∃ b, (next b).Gives a
  | .act _ next | .separate next => next.Gives a
  | .within _ _ next | .head _ next => ∃ b, (next b).Gives a
  | .function _ _ _ next => ∃ b, (next b).Gives a

@[simp]
theorem referring_bind (m : Script h α) (f : α → Script h β) :
    (m >>= f).Referring ↔ m.Referring ∧ ∀ a, m.Gives a → (f a).Referring := by
  induction m with
  | pure a => simp [Referring, Gives, Bind.bind, Script.bind]
  | fail e => simp [Referring, Gives, Bind.bind, Script.bind]
  | ask q next ih =>
    change (∀ b, (next b >>= f).Referring) ↔ _
    simp only [ih, Referring, Gives]
    grind
  | act x next ih => exact ih f
  | separate next ih => exact ih f
  | within fr body next _ ih =>
    change (_ ∧ _ ∧ ∀ b, (next b >>= f).Referring) ↔ _
    simp only [ih, Referring, Gives]
    grind
  | head body next _ ih =>
    change (_ ∧ ∀ b, (next b >>= f).Referring) ↔ _
    simp only [ih, Referring, Gives]
    grind
  | function shape params body next _ _ ih =>
    change (_ ∧ _ ∧ ∀ b, (next b >>= f).Referring) ↔ _
    simp only [ih, Referring, Gives]
    grind

theorem RefersFirst.inHead {n : Node} {m : Script h α} (hm : m.RefersFirst n) :
    m.inHead.RefersFirst n := by
  induction m with
  | pure a => trivial
  | fail e => trivial
  | ask q next ih => exact fun b => ih b (hm b)
  | act x next ih =>
    cases x with
    | refer m => exact hm
    | edit e =>
      cases e with
      | text cs => exact ⟨hm.1, ih hm.2⟩
      | _ => cases hm
    | _ => cases hm
  | separate next ih => cases hm
  | within f body next _ ih => cases hm
  | head body next _ ih => cases hm
  | function shape params body next _ _ ih => cases hm

theorem Referring.inHead {m : Script h α} (hm : m.Referring) : m.inHead.Referring := by
  induction m with
  | pure a => trivial
  | fail e => trivial
  | ask q next ih => exact fun b => ih b (hm b)
  | act x next ih => exact ih hm
  | separate next ih => exact hm
  | within f body next ihBody ih =>
    refine ⟨?_, ihBody hm.2.1, fun b => ih b (hm.2.2 b)⟩
    cases f with
    | node n wrapped => exact fun hn => (hm.1 hn).inHead
    | _ => trivial
  | head body next _ ih => exact ⟨hm.1, fun b => ih b (hm.2 b)⟩
  | function shape params body next ihParams ihBody ih =>
    exact ⟨ihParams hm.1, ihBody hm.2.1, fun b => ih b (hm.2.2 b)⟩

variable {env : EmitEnv} {s t u : EmitState} {a : α} {xs : List Step}

/-- A name that such a script has written as a variable is one that it has referred to. -/
theorem RefersFirst.exists_refer {m : Script h α} {n : Node} {cs : List Char} (hm : m.RefersFirst n)
    (hr : Runs env m s a t xs) (hmem : .action (.edit (.text cs)) u ∈ xs)
    (hcs : '$' :: n.text.toList <:+ cs) : ∃ v, .action (.refer n) v ∈ xs ∧ v.scopes = s.scopes := by
  induction hr with
  | pure a s => cases hmem
  | ask _ ih => exact ih (hm _) hmem
  | @act _ _ x next s _ _ ys _ ih =>
    cases x with
    | refer m =>
      have hmn : m = n := hm
      subst hmn
      exact ⟨s, List.mem_cons_self .., rfl⟩
    | edit e =>
      cases e with
      | text ds =>
        have hmem : .action (.edit (.text cs)) u ∈ ys := by
          refine (List.mem_cons.mp hmem).resolve_left fun heq => hm.1 ?_
          cases heq
          exact hcs
        obtain ⟨v, hv, hscopes⟩ := ih hm.2 hmem
        exact ⟨v, List.mem_cons_of_mem _ hv, hscopes⟩
      | _ => cases hm
    | _ => cases hm
  | separate _ ih => cases hm
  | within _ _ _ ih => cases hm
  | head _ _ _ ih => cases hm
  | function _ _ _ _ _ ih => cases hm

/-- The frames in a run of such a script. -/
theorem Referring.of_mem_frame {m : Script h α} (hm : m.Referring) (hr : Runs env m s a t xs)
    {k : Bool} {β : Type} {f : Frame} {body : Script k β} (hmem : .frame f body u ∈ xs) :
    body.RefersIn f := by
  induction hr with
  | pure a s => cases hmem
  | ask _ ih => exact ih (hm _) hmem
  | act _ ih => exact ih hm (by simpa using hmem)
  | separate _ ih => exact ih hm (by simpa using hmem)
  | @within _ _ _ g _ _ _ _ _ _ _ ys zs _ _ ihInner ihRest =>
    rcases List.mem_cons.mp hmem with heq | hmem
    · cases heq
      exact hm.1
    · rcases List.mem_append.mp hmem with hmem | hmem
      · exact ihInner hm.2.1 hmem
      · exact ihRest (hm.2.2 _) hmem
  | head _ _ ihInner ihRest =>
    rcases List.mem_cons.mp hmem with heq | hmem
    · cases heq
      trivial
    · rcases List.mem_append.mp hmem with hmem | hmem
      · exact ihInner hm.1 hmem
      · exact ihRest (hm.2 _) hmem
  | @function _ _ _ _ _ _ _ _ _ _ _ ws ys zs _ _ _ ihFirst ihInner ihRest =>
    have hmem : .frame f body u ∈ ws ∨ .frame f body u ∈ ys ∨ .frame f body u ∈ zs := by
      simpa using hmem
    rcases hmem with hmem | hmem | hmem
    · exact ihFirst hm.1 hmem
    · exact ihInner hm.2.1 hmem
    · exact ihRest (hm.2.2 _) hmem

end Script
end EcmaPhp
