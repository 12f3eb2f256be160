import EcmaPhp.Emit.Rules
import EcmaPhp.Proofs.Builtin.Purity
import EcmaPhp.Proofs.Output.Insertion
import EcmaPhp.Proofs.Output.Writing
import EcmaPhp.Proofs.Php.Spelling
import EcmaPhp.Proofs.Script.Steps

/-! Expressions inside templates. An expression that a template may hold as it stands is written
between braces. The variable that it begins with follows the brace at once exactly if no node that
begins there writes anything before it: no comment, no line end and no parenthesis. -/
namespace EcmaPhp
open Output Script Emit EmitM

namespace Node

/-- The object of an access. -/
def accessed? (n : Node) : Option (Part n) :=
  match n.kind with
  | .memberExpression | .subscriptExpression => n.part? .object
  | _ => none

/-- The object of an access, the object of that, and so on: they all begin where the access does. -/
def objects (n : Node) : List Node :=
  match n.accessed? with
  | some object => object.node :: object.node.objects
  | none => []
termination_by n.weight
decreasing_by exact object.smaller

theorem objects_of_accessed? {n : Node} {object : Part n} (h : n.accessed? = some object) :
    n.objects = object.node :: object.node.objects := by
  rw [objects, h]

theorem objects_eq_nil {n : Node} (h : n.accessed? = none) : n.objects = [] := by
  rw [objects, h]

/-- An expression that leaves out no lines of the source, names a property by a plain name and has a
text for a string that it uses as a key. -/
structure PlainAccess (n : Node) : Prop where
  skipped : n.skipped = none
  property : n.kind = .memberExpression → ∀ p ∈ n.child? .property,
    p.kind = .propertyIdentifier ∨ p.kind = .privatePropertyIdentifier
  index : n.kind = .subscriptExpression → ∀ i ∈ n.child? .index, i.kind = .string → i.text ≠ ""

end Node

namespace Writing

/-- A writing that begins with something other than a variable, blanks apart. -/
def Shows (w : Writing) : Prop := ∃ c rest, Text.solid w.text = c :: rest ∧ c ≠ '$'

variable {v w : Writing}

theorem Shows.append (h : v.Shows) (w : Writing) : (v ++ w).Shows := by
  obtain ⟨c, rest, htext, hc⟩ := h
  exact ⟨c, rest ++ Text.solid w.text, by simp [append_def, htext], hc⟩

theorem shows_breaks {count : Nat} (h : 0 < count) : (breaks count).Shows := by
  obtain ⟨more, rfl⟩ := Nat.exists_eq_succ_of_ne_zero h.ne'
  exact ⟨'\n', Text.solid (List.replicate more '\n'), by simp [breaks, List.replicate_succ],
    by decide⟩

theorem shows_ofText {c : Char} (cs : List Char) (hblank : Text.isBlank c = false) (hc : c ≠ '$') :
    (ofText (c :: cs)).Shows :=
  ⟨c, Text.solid cs, by simp [ofText, Text.solid, hblank], hc⟩

/-- The lines of a comment begin with its delimiter. -/
theorem shows_outputLines (c : Comment) : (ofLines c.outputLines).Shows := by
  have hslash (cs : List Char) : (ofText ('/' :: cs)).Shows :=
    shows_ofText cs (by decide) (by decide)
  unfold Comment.outputLines
  split
  · exact hslash _
  · split
    · rename_i hsplit
      exact absurd hsplit (Text.split_ne_nil _ _)
    · exact hslash _
    · rename_i first rest _ _
      cases rest with
      | nil => exact hslash _
      | cons second others =>
        cases hrest : Comment.blockRest (second :: others) with
        | nil => exact hslash _
        | cons => exact ((hslash _).append _).append _

end Writing

namespace Output

variable {o : Output} {wrapped : Bool} {n : Node}

/-- A node that begins without any text of its own: its comments are written already, its line is
reached, and it stands in no parentheses. -/
structure BeginsPlainly (o : Output) (wrapped : Bool) (n : Node) : Prop where
  comments : ∀ c ∈ n.leading, o.isWritten c = true
  line : n.isSynthetic = false → n.location.first.line + o.offset ≤ o.line
  parens : n.isSynthetic = false → wrapped = false

/-- So do all the nodes that begin with it, each in its own parentheses, if it has any. -/
def ObjectsBeginPlainly (o : Output) (tokens : TokenIndex) (n : Node) : Prop :=
  ∀ m ∈ n.objects, o.BeginsPlainly (tokens.isParenthesized m.location) m

theorem emitComments_eq_self {cs : List Comment} (h : ∀ c ∈ cs, o.isWritten c = true) :
    o.emitComments cs = o := by
  induction cs with
  | nil => rfl
  | cons c rest ih =>
    obtain ⟨hc, hrest⟩ := List.forall_mem_cons.mp h
    have hsame : o.emitComment c = o := if_pos hc
    rw [emitComments, List.foldl_cons, hsame]
    exact ih hrest

theorem commentsWriting_eq_empty {cs : List Comment} (h : ∀ c ∈ cs, o.isWritten c = true) :
    o.commentsWriting cs = {} := by
  induction cs with
  | nil => rfl
  | cons c rest ih =>
    obtain ⟨hc, hrest⟩ := List.forall_mem_cons.mp h
    have hsame : o.emitComment c = o := if_pos hc
    rw [commentsWriting, commentWriting, if_pos hc, hsame, ih hrest, Writing.empty_append]

theorem BeginsPlainly.beginNode_eq (h : o.BeginsPlainly wrapped n) (hskipped : n.skipped = none) :
    o.beginNode wrapped n = o := by
  rw [beginNode, emitComments_eq_self h.comments]
  dsimp only
  split
  · rfl
  · rename_i hsourced
    have hsourced : n.isSynthetic = false := by
      rw [Bool.or_eq_true, not_or] at hsourced
      exact Bool.eq_false_iff.mpr hsourced.1
    have hline := h.line hsourced
    have hreached : (n.location.first.line + o.offset - o.line).toNat = 0 := by omega
    simp [hskipped, syncTo, hreached, newlines, h.parens hsourced]

theorem shows_commentsWriting {cs : List Comment} (h : ∃ c ∈ cs, o.isWritten c = false) :
    (o.commentsWriting cs).Shows := by
  induction cs with
  | nil => simp at h
  | cons c rest ih =>
    rw [commentsWriting, commentWriting]
    cases hc : o.isWritten c with
    | true =>
      have hsame : o.emitComment c = o := if_pos hc
      rw [hsame, if_pos rfl, Writing.empty_append]
      exact ih (by simpa [hc] using h)
    | false =>
      simp only [Bool.false_eq_true, if_false]
      refine .append (.append ?_ _) _
      by_cases hahead : 0 < (c.location.first.line + o.offset - o.line).toNat
      · split
        · rw [Writing.empty_append]
          exact Writing.shows_outputLines c
        · exact (Writing.shows_breaks hahead).append _
      · have hreached : (c.location.first.line + o.offset - o.line).toNat = 0 := by omega
        have hnone : o.linesTo c.location.first.line = {} := by
          rw [linesTo, hreached]
          rfl
        rw [hnone, ite_self, Writing.empty_append]
        exact Writing.shows_outputLines c

/-- Any other node begins with a comment, a line end or a parenthesis. -/
theorem shows_nodeStart (h : ¬ o.BeginsPlainly wrapped n) (hskipped : n.skipped = none)
    (hkind : n.kind ≠ .program) : (o.nodeStart wrapped n).Shows := by
  by_cases hwritten : ∀ c ∈ n.leading, o.isWritten c = true
  · have hsourced : n.isSynthetic = false := by
      by_contra hsynthetic
      rw [Bool.not_eq_false] at hsynthetic
      exact h ⟨hwritten, by simp [hsynthetic], by simp [hsynthetic]⟩
    rw [nodeStart, commentsWriting_eq_empty hwritten, emitComments_eq_self hwritten]
    simp only [hsourced, hkind, hskipped, Bool.false_or, decide_false, Bool.false_eq_true, if_false,
      Writing.empty_append]
    by_cases hahead : 0 < (n.location.first.line + o.offset - o.line).toNat
    · exact (Writing.shows_breaks hahead).append _
    · have hreached : (n.location.first.line + o.offset - o.line).toNat = 0 := by omega
      have hline : n.location.first.line + o.offset ≤ o.line := by omega
      have hwrapped : wrapped = true := by
        by_contra hbare
        rw [Bool.not_eq_true] at hbare
        exact h ⟨hwritten, fun _ => hline, fun _ => hbare⟩
      have hnone : o.linesTo n.location.first.line = {} := by
        rw [linesTo, hreached]
        rfl
      rw [hnone, Writing.empty_append, if_pos hwrapped]
      exact Writing.shows_ofText [] (by decide) (by decide)
  · refine .append (shows_commentsWriting ?_) _
    simpa using hwritten

/-- Text that comes behind a solid end leaves what was there. -/
theorem Writes.exists_text_eq {o' : Output} {w : Writing} {i : Int} (h : Writes w i o o')
    (hs : EndsSolid false o.text) :
    ∃ added, o'.text = o.text ++ added ∧ Text.solid added = Text.solid w.text := by
  obtain ⟨kept, cut, added, hreplaces, hcut, hadded⟩ := h.tail
  obtain ⟨front, c, htext, hblank, -⟩ := hs
  rcases List.eq_nil_or_concat cut with rfl | ⟨more, d, rfl⟩
  · exact ⟨added, by rw [hreplaces.after, hreplaces.before, List.append_nil], hadded⟩
  · have hlast := hreplaces.before.symm.trans htext
    rw [List.concat_eq_append, ← List.append_assoc] at hlast
    obtain ⟨-, rfl⟩ := List.append_singleton_inj.mp hlast
    simp [Text.solid, hblank] at hcut

end Output

namespace Script

variable {env : EmitEnv} {h : Bool} {α β : Type}

/-- A script that runs to its end from every state and works at the end of the output only. -/
def Appends (env : EmitEnv) (m : Script h α) : Prop :=
  ∀ s, ∃ a t xs, Runs env m s a t xs ∧ Grows s.output t.output

theorem appends_pure (a : α) : (Pure.pure a : Script h α).Appends env :=
  fun s => ⟨a, s, [], .pure a s, .refl _⟩

theorem Appends.bind {m : Script h α} {f : α → Script h β} (hm : m.Appends env)
    (hf : ∀ a, (f a).Appends env) : (m >>= f).Appends env := by
  intro s
  obtain ⟨a, u, xs, hfirst, hgrows⟩ := hm s
  obtain ⟨b, t, ys, hrest, hgrows'⟩ := hf a u
  exact ⟨b, t, xs ++ ys, hfirst.bind hrest, hgrows.trans hgrows'⟩

theorem appends_ask (q : Query α) : (EmitM.ask q : Script h α).Appends env :=
  fun s => ⟨q.answer env s, s, [], .ask (.pure _ _), .refl _⟩

theorem appends_act {x : Action} (hx : ∀ s : EmitState, Grows s.output (x.apply s).output) :
    (EmitM.act x : Script h Unit).Appends env :=
  fun s => ⟨(), x.apply s, [.action x s], .act (.pure _ _), hx s⟩

theorem appends_emitChars (cs : List Char) : (EmitM.emitChars cs : Script h Unit).Appends env :=
  appends_act fun s => .emitChars s.output cs

theorem appends_emit (text : String) : (EmitM.emit text : Script h Unit).Appends env :=
  appends_emitChars text.toList

theorem Appends.within {f : Frame} {m : Script h α} (hm : m.Appends env) (hf : f ≠ .point) :
    (EmitM.within f m).Appends env := by
  intro s
  obtain ⟨a, t, xs, hbody, hgrows⟩ := hm (f.enter s)
  exact ⟨a, f.exit s t, _, .within hbody (.pure _ _),
    ((f.grows_enter s hf).trans hgrows).trans (f.grows_exit s t hf)⟩

theorem Appends.around {n : Node} {parens : Parens} {m : Script h Unit} (hm : m.Appends env) :
    (EmitM.around n parens m).Appends env :=
  (appends_ask _).bind fun _ => hm.within (by simp)

theorem appends_emitNode {n : Node} {rule : Rule} {context : Context}
    (hrule : rule? n.kind = some rule)
    (h : (rule n (fun p c => emitNode p.node c) context).Appends env) :
    (emitNode n context).Appends env := by
  rw [emitNode, hrule]
  exact h.around

theorem appends_identifier (n : Node) (context : Context) :
    (identifier n context).Appends env := by
  unfold identifier
  dsimp only
  split
  · exact appends_emit _
  · split
    · exact appends_emit _
    · refine (appends_ask _).bind fun scopes => ?_
      split
      · exact appends_emit _
      · refine ((appends_ask _).bind fun scopes =>
          (appends_act fun _ => .refl _).bind fun _ => appends_pure _).bind fun definition => ?_
        split
        · exact appends_emit _
        · split
          · exact appends_emit _
          · split <;> exact appends_emit _

theorem appends_stringLiteral {n : Node} (htext : n.text ≠ "") :
    (stringLiteral n).Appends env := by
  unfold stringLiteral stringText
  split
  · rename_i hnil
    exact absurd (String.toList_eq_nil_iff.mp hnil) htext
  · exact appends_emitChars _

/-- The name of a property is written at the end. -/
theorem appends_property {n : Node} {context : Context}
    (hkind : n.kind = .propertyIdentifier ∨ n.kind = .privatePropertyIdentifier) :
    (emitNode n context).Appends env := by
  have hrule : rule? n.kind = some fun n _ _ => propertyName n := by
    rcases hkind with hkind | hkind <;> rw [hkind] <;> rfl
  exact appends_emitNode hrule (appends_emit _)

/-- So is a key that a template may hold. -/
theorem appends_index {n : Node} {context : Context}
    (hkind : n.kind = .identifier ∨ n.kind = .number ∨ n.kind = .string)
    (htext : n.kind = .string → n.text ≠ "") : (emitNode n context).Appends env := by
  rcases hkind with hkind | hkind | hkind
  · exact appends_emitNode (by rw [hkind]; rfl) (appends_identifier n context)
  · exact appends_emitNode (by rw [hkind]; rfl) (appends_emitChars _)
  · exact appends_emitNode (by rw [hkind]; rfl) (appends_stringLiteral (htext hkind))

/-- A script that runs to its end and writes a variable, before which it writes nothing exactly if
`plain` holds; otherwise a comment, a line end or a parenthesis comes first. -/
def Opens (env : EmitEnv) (m : Script h α) (s : EmitState) (plain : Prop) : Prop :=
  ∃ a t xs w o, Runs env m s a t xs ∧ Writes w 0 s.output o ∧ o.text ++ ['$'] <+: t.output.text ∧
    (plain ∧ o = s.output ∨ ¬ plain ∧ w.Shows)

section Opens

variable {s : EmitState} {plain : Prop}

theorem endsSolid_variable (text : List Char) : EndsSolid false (text ++ ['$']) :=
  ⟨text, '$', rfl, by decide, by simp⟩

theorem opens_emitChars (cs : List Char) :
    (EmitM.emitChars ('$' :: cs) : Script h Unit).Opens env s True := by
  refine ⟨(), _, _, {}, s.output, .act (.pure _ _), .refl _, ?_, .inl ⟨trivial, rfl⟩⟩
  change _ <+: (s.output.emitChars ('$' :: cs)).text
  rw [text_emitChars]
  exact ⟨cs, by simp⟩

theorem Opens.bind {m : Script h α} {f : α → Script h β} (hm : m.Opens env s plain)
    (hf : ∀ a, (f a).Appends env) : (m >>= f).Opens env s plain := by
  obtain ⟨a, u, xs, w, o, hfirst, hwrites, htext, hplain⟩ := hm
  obtain ⟨b, t, ys, hrest, hgrows⟩ := hf a u
  exact ⟨b, t, xs ++ ys, w, o, hfirst.bind hrest, hwrites,
    (hgrows.revises.prefix_stays (endsSolid_variable o.text) htext).1, hplain⟩

/-- What only finds something out comes before. -/
theorem opens_runs_bind {m : Script h α} {f : α → Script h β} {a : α} {xs : List Step}
    (hm : Runs env m s a s xs) (hf : (f a).Opens env s plain) : (m >>= f).Opens env s plain := by
  obtain ⟨b, t, ys, w, o, hrest, hopens⟩ := hf
  exact ⟨b, t, xs ++ ys, w, o, hm.bind hrest, hopens⟩

theorem opens_ask_bind {q : Query α} {k : α → Script h β}
    (hk : (k (q.answer env s)).Opens env s plain) : (EmitM.ask q >>= k).Opens env s plain :=
  opens_runs_bind (.ask (.pure _ _)) hk

theorem opens_resolve_bind {n : Node} {k : Option Node → EmitM β}
    (hk : (k (s.scopes.resolve? n)).Opens env (s.refer n) plain) :
    (EmitM.resolve n >>= k).Opens env s plain := by
  obtain ⟨b, t, xs, w, o, hrest, hopens⟩ := hk
  exact ⟨b, t, _, w, o, .ask (.act hrest), hopens⟩

/-- A node adds what it writes before its body. -/
theorem opens_emitNode_of_rule {n : Node} {rule : Rule} {context : Context}
    (hrule : rule? n.kind = some rule) (hskipped : n.skipped = none) (hkind : n.kind ≠ .program)
    (hbody : ∀ s' : EmitState, s'.scopes = s.scopes →
      (rule n (fun p c => emitNode p.node c) context).Opens env s'
        (s'.output.ObjectsBeginPlainly env.tokens n)) :
    (emitNode n context).Opens env s
      (s.output.BeginsPlainly (context.parens.wraps env.tokens n) n ∧
        s.output.ObjectsBeginPlainly env.tokens n) := by
  rw [emitNode, hrule]
  refine opens_ask_bind ?_
  let f : Frame := .node n (context.parens.wraps env.tokens n)
  obtain ⟨_, u, xs, w, o, hrun, hwrites, htext, hplain⟩ := hbody (f.enter s) rfl
  have hexit : o.text ++ ['$'] <+: (f.exit s u).output.text :=
    ((f.grows_exit s u (by simp [f])).revises.prefix_stays (endsSolid_variable o.text) htext).1
  by_cases hbegins : s.output.BeginsPlainly (context.parens.wraps env.tokens n) n
  · have hsame : (f.enter s).output = s.output := hbegins.beginNode_eq hskipped
    rw [hsame] at hwrites hplain
    exact ⟨(), _, _, w, o, .within hrun (.pure _ _), hwrites, hexit, by simpa [hbegins] using hplain⟩
  · have hstart := shows_nodeStart hbegins hskipped hkind
    exact ⟨(), _, _, _, o, .within hrun (.pure _ _), (writes_beginNode _ _ n).trans hwrites, hexit,
      .inr ⟨fun hplain => hbegins hplain.1, hstart.append w⟩⟩

end Opens
end Script

section Expression

variable {env : EmitEnv} {s : EmitState} {n : Node} {context : Context}

/-- A name that a template may hold is written as a variable. -/
theorem opens_identifier (hkind : n.kind = .identifier)
    (hholds : (s.scopes.interpolation n).1 = true) (hcallee : context.callee = false)
    (hbare : context.bare = false) : (identifier n context).Opens env s True := by
  rw [Scopes.interpolation, hkind] at hholds
  simp only [Bool.and_eq_true, bne_iff_ne, ne_eq, Option.isNone_iff_eq_none] at hholds
  obtain ⟨⟨⟨hundefined, harguments⟩, hconstant⟩, hresolved⟩ := hholds
  unfold identifier
  simp only [hbare, hcallee, Bool.or_self, Bool.false_eq_true, if_false, hundefined]
  refine opens_ask_bind ?_
  have hscopes : Query.scopes.answer env s = s.scopes := rfl
  rw [hscopes, hconstant]
  have hvariable : (EmitM.emit ("$" ++ n.text) : EmitM Unit).Opens env (s.refer n) True := by
    rw [EmitM.emit, String.toList_append]
    exact opens_emitChars n.text.toList
  refine opens_resolve_bind ?_
  cases hresolve : s.scopes.resolve? n with
  | none => simpa [harguments] using hvariable
  | some d =>
    simp only [hresolve, Option.all_some, Bool.and_eq_true, Bool.not_eq_true', bne_iff_ne,
      ne_eq] at hresolved
    simpa [hresolved] using hvariable

theorem exists_runs_accessor (env : EmitEnv) (s : EmitState) (n object : Node) (name : String)
    (context : Context) : ∃ between, Runs env (accessor n object name context) s between s [] := by
  let objectIsClass := s.scopes.isClassRef object
  suffices h : ∀ m : EmitM String, (∃ between, m = Pure.pure between) →
      ∃ between, Runs env m s between s [] by
    obtain ⟨between, hruns⟩ := h
      (if n.isOptionalChain then Pure.pure "?->"
        else if objectIsClass && Text.isCapitalized name then Pure.pure "\\"
        else if object.kind = .superValue || Text.isCapitalized name then Pure.pure "::"
        else if objectIsClass then Pure.pure (if context.callee then "::" else "::$")
        else Pure.pure "->") (by split_ifs <;> exact ⟨_, rfl⟩)
    exact ⟨between, .ask hruns⟩
  rintro _ ⟨between, rfl⟩
  exact ⟨between, .pure _ _⟩

theorem opens_member {visit : Visit n} {object property : Part n} {plain : Prop}
    (hreplacement : Builtin.replacement? s.scopes context.place n = none)
    (hobject : n.part? .object = some object) (hproperty : n.part? .property = some property)
    (hclass : s.scopes.isClassRef object.node = false) (hvisit : (visit object {}).Opens env s plain)
    (hname : (visit property { bare := true }).Appends env) :
    (member n visit context).Opens env s plain := by
  have hscopes : Query.scopes.answer env s = s.scopes := rfl
  unfold member
  refine opens_ask_bind ?_
  rw [hscopes, hreplacement]
  obtain ⟨between, haccessor⟩ :=
    exists_runs_accessor env s n object.node property.node.publicName context
  have hbare : (object.node.kind = .identifier && s.scopes.isClassRef object.node) = false := by
    rw [hclass, Bool.and_false]
  simp only [EmitM.need, hobject, hproperty]
  refine opens_runs_bind (.pure object s) (opens_runs_bind (.pure property s)
    (opens_runs_bind haccessor (opens_ask_bind ?_)))
  change Opens env (visit object ⟨.other, .asSource, false, _ && s.scopes.isClassRef _⟩ >>= _) s plain
  rw [hbare]
  exact hvisit.bind fun _ => (appends_emit between).bind fun _ => hname

theorem opens_subscriptExpression {visit : Visit n} {object index : Part n} {plain : Prop}
    (hobject : n.part? .object = some object) (hindex : n.part? .index = some index)
    (hvisit : (visit object {}).Opens env s plain) (hkey : (visit index {}).Appends env) :
    (subscriptExpression n visit).Opens env s plain := by
  simp only [subscriptExpression, EmitM.need, hobject, hindex]
  refine opens_runs_bind (.pure object s) (opens_runs_bind (.pure index s) ?_)
  exact hvisit.bind fun _ => hkey.within (by simp)

theorem exists_part_of_child? {f : Field} {m : Node} (h : n.child? f = some m) :
    ∃ p, n.part? f = some p ∧ p.node = m := by
  rw [← Node.map_node_part?] at h
  exact Option.map_eq_some_iff.mp h

/-- A member that a template may hold is one of such an object, which is no class, and nothing stands
for it. -/
theorem exists_object_of_member {scopes : Scopes} (hkind : n.kind = .memberExpression)
    (hholds : (scopes.interpolation n).1 = true) :
    ∃ object property, n.part? .object = some object ∧ n.part? .property = some property ∧
      Builtin.replacement? scopes .other n = none ∧ (scopes.interpolation object.node).1 = true ∧
      scopes.isClassRef object.node = false := by
  rw [Scopes.interpolation, hkind] at hholds
  dsimp only at hholds
  split at hholds
  · rename_i object name hobject hname
    obtain ⟨property, hproperty, -⟩ := exists_part_of_child? hname
    split at hholds
    · cases hholds
    · split at hholds
      · cases hholds
      · rename_i hreplacement
        simp only [Bool.and_eq_true, Bool.not_eq_true'] at hholds
        exact ⟨object, property, hobject, hproperty, hreplacement, hholds⟩
  · cases hholds

/-- An element that a template may hold is one of such an object, with a plain key. -/
theorem exists_object_of_subscript {scopes : Scopes} (hkind : n.kind = .subscriptExpression)
    (hholds : (scopes.interpolation n).1 = true) :
    ∃ object index, n.part? .object = some object ∧ n.part? .index = some index ∧
      (index.node.kind = .identifier ∨ index.node.kind = .number ∨ index.node.kind = .string) ∧
      (scopes.interpolation object.node).1 = true := by
  rw [Scopes.interpolation, hkind] at hholds
  dsimp only at hholds
  split at hholds
  · rename_i object key hobject hkey
    obtain ⟨index, hindex, rfl⟩ := exists_part_of_child? hkey
    split at hholds
    · rename_i hplain
      exact ⟨object, index, hobject, hindex, by simpa [or_assoc] using hplain, hholds⟩
    · cases hholds
  · cases hholds

/-- An expression that a template may hold begins with a variable. -/
theorem opens_emitNode (env : EmitEnv) (context : Context)
    (hholds : (s.scopes.interpolation n).1 = true)
    (hplain : ∀ m ∈ n :: n.objects, m.PlainAccess) (hplace : context.place = .other)
    (hcallee : context.callee = false) (hbare : context.bare = false) :
    (emitNode n context).Opens env s
      (s.output.BeginsPlainly (context.parens.wraps env.tokens n) n ∧
        s.output.ObjectsBeginPlainly env.tokens n) := by
  induction hw : n.weight using Nat.strongRecOn generalizing n s context with
  | ind weight ih =>
    obtain ⟨haccess, hobjects⟩ := List.forall_mem_cons.mp hplain
    -- The object begins where the access does, and all that begins with the access begins with it.
    have hobject {object : Part n} (haccessed : n.accessed? = some object) {s' : EmitState}
        (hs' : s'.scopes = s.scopes) (hinner : (s.scopes.interpolation object.node).1 = true)
        {c : Context} (hplace : c.place = .other) (hparens : c.parens = .asSource)
        (hcallee : c.callee = false) (hbare : c.bare = false) :
        (emitNode object.node c).Opens env s' (s'.output.ObjectsBeginPlainly env.tokens n) := by
      have hlist := Node.objects_of_accessed? haccessed
      have hopens := ih object.node.weight (hw ▸ object.smaller) c (hs' ▸ hinner)
        (hlist ▸ hobjects) hplace hcallee hbare rfl
      rw [hparens] at hopens
      have hiff (o : Output) : o.BeginsPlainly (env.tokens.isParenthesized object.node.location)
          object.node ∧ o.ObjectsBeginPlainly env.tokens object.node ↔
            o.ObjectsBeginPlainly env.tokens n := by
        simp [ObjectsBeginPlainly, hlist]
      rwa [Parens.wraps, hiff] at hopens
    have hleaf (hnone : n.accessed? = none) (o : Output) :
        True = o.ObjectsBeginPlainly env.tokens n := by
      simp [ObjectsBeginPlainly, Node.objects_eq_nil hnone]
    cases hkind : n.kind with
    | thisValue =>
      refine opens_emitNode_of_rule (by rw [hkind]; rfl) haccess.skipped (by simp [hkind])
        fun s' _ => ?_
      rw [← hleaf (by rw [Node.accessed?, hkind])]
      exact opens_emitChars "this".toList
    | identifier =>
      refine opens_emitNode_of_rule (by rw [hkind]; rfl) haccess.skipped (by simp [hkind])
        fun s' hs' => ?_
      rw [← hleaf (by rw [Node.accessed?, hkind])]
      exact opens_identifier hkind (hs' ▸ hholds) hcallee hbare
    | memberExpression =>
      obtain ⟨object, property, hpart, hproperty, hreplacement, hinner, hclass⟩ :=
        exists_object_of_member hkind hholds
      have hname := haccess.property hkind _ (Node.child?_of_part? hproperty)
      refine opens_emitNode_of_rule (by rw [hkind]; rfl) haccess.skipped (by simp [hkind])
        fun s' hs' => ?_
      refine opens_member (hplace.symm ▸ hs' ▸ hreplacement) hpart hproperty (hs' ▸ hclass) ?_
        (appends_property hname)
      exact hobject (by rw [Node.accessed?, hkind]; exact hpart) hs' hinner rfl rfl rfl rfl
    | subscriptExpression =>
      obtain ⟨object, index, hpart, hindex, hkey, hinner⟩ :=
        exists_object_of_subscript hkind hholds
      have htext := haccess.index hkind _ (Node.child?_of_part? hindex)
      refine opens_emitNode_of_rule (by rw [hkind]; rfl) haccess.skipped (by simp [hkind])
        fun s' hs' => ?_
      refine opens_subscriptExpression hpart hindex ?_ (appends_index hkey htext)
      exact hobject (by rw [Node.accessed?, hkind]; exact hpart) hs' hinner rfl rfl rfl rfl
    | _ => simp [Scopes.interpolation, hkind] at hholds

end Expression

section Template

variable {env : EmitEnv} {s t : EmitState} {n : Node}

/-- Events change nothing but the log. -/
theorem exists_runs_notes (env : EmitEnv) (events : List Event) (s : EmitState) :
    ∃ t xs, Runs env (events.forM note) s () t xs ∧ t.output = s.output ∧ t.scopes = s.scopes := by
  induction events generalizing s with
  | nil => exact ⟨s, [], .pure _ _, rfl, rfl⟩
  | cons e rest ih =>
    obtain ⟨t, xs, hrest, houtput, hscopes⟩ := ih (Action.apply (.note e) s)
    exact ⟨t, _, .act hrest, houtput, hscopes⟩

/-- An expression that a template may hold is emitted between braces, and begins with a variable. -/
theorem exists_runs_substitution {e : Part n} (hholds : (s.scopes.interpolation e.node).1 = true)
    (hplain : ∀ m ∈ e.node :: e.node.objects, m.PlainAccess) :
    ∃ t lead rest, (substitution (fun p c => emitNode p.node c) e).run env s = .ok () t ∧
      t.output.text = s.output.text ++ '\x7b' :: lead ++ '$' :: rest ++ ['\x7d'] ∧
      (lead = [] ↔ s.output.BeginsPlainly false e.node ∧
        s.output.ObjectsBeginPlainly env.tokens e.node) ∧ lead.head? ≠ some '$' := by
  obtain ⟨u, xs, hnotes, houtput, hscopes⟩ :=
    exists_runs_notes env (s.scopes.interpolation e.node).2 s
  let opened : EmitState := u.onOutput (·.emit "\x7b")
  have hopened : opened.output.text = s.output.text ++ ['\x7b'] := by
    change (u.output.emit "\x7b").text = _
    rw [text_emit, houtput]
    rfl
  have hsame : ∀ wrapped m, opened.output.BeginsPlainly wrapped m ↔
      s.output.BeginsPlainly wrapped m := by
    intro wrapped m
    rw [← houtput]
    exact ⟨fun ⟨hc, hl, hp⟩ => ⟨hc, hl, hp⟩, fun ⟨hc, hl, hp⟩ => ⟨hc, hl, hp⟩⟩
  have hopens : (emitNode e.node { parens := .omitted }).Opens env opened
      (s.output.BeginsPlainly false e.node ∧ s.output.ObjectsBeginPlainly env.tokens e.node) := by
    have hscopes : (opened.scopes.interpolation e.node).1 = true := hscopes.symm ▸ hholds
    have hopens := opens_emitNode env { parens := .omitted } hscopes hplain rfl rfl rfl
    simpa only [ObjectsBeginPlainly, hsame, Parens.wraps] using hopens
  obtain ⟨_, v, ys, w, o, hvisit, hwrites, ⟨rest, hrest⟩, hcases⟩ := hopens
  obtain ⟨lead, hlead, hsolid⟩ :=
    hwrites.exists_text_eq ⟨s.output.text, '\x7b', hopened, by decide, by simp⟩
  have hbraced : Runs env (do
      EmitM.emit "\x7b"
      emitNode e.node { parens := .omitted }
      EmitM.emit "\x7d") u () (v.onOutput (·.emit "\x7d")) _ :=
    .act (hvisit.bind (.act (.pure _ _)))
  have hrun : Runs env (substitution (fun p c => emitNode p.node c) e) s () _ _ :=
    .ask (hnotes.bind (by simpa [Query.answer, hholds] using hbraced))
  refine ⟨_, lead, rest, hrun.run_eq.1, ?_, ?_⟩
  · change (v.output.emit "\x7d").text = _
    rw [text_emit, ← hrest, hlead, hopened]
    simp
  · rcases hcases with ⟨hbegins, rfl⟩ | ⟨hbegins, c, others, hshows, hc⟩
    · obtain rfl : lead = [] := by simpa using hlead
      simp [hbegins]
    · rw [hshows] at hsolid
      constructor
      · simp only [hbegins, iff_false]
        rintro rfl
        simp at hsolid
      · intro hhead
        obtain ⟨more, rfl⟩ := List.head?_eq_some_iff.mp hhead
        have hdollar : Text.solid ('$' :: more) = '$' :: Text.solid more :=
          List.filter_cons_of_pos (by decide)
        rw [hdollar] at hsolid
        exact hc (List.cons.inj hsolid).1.symm

/-- A template emits each of its substitutions. -/
theorem exists_runs_of_templateBody {visit : Visit n} {start : Nat} {parts : List (Part n)}
    {xs : List Step} (hr : Runs env (templateBody n visit start parts) s () t xs) {p : Part n}
    (hp : p ∈ parts) :
    ∃ e u v ys, p.parts.head? = some e ∧ Runs env (substitution visit e) u () v ys ∧ ys <:+: xs := by
  induction parts generalizing s start xs with
  | nil => cases hp
  | cons q rest ih =>
    rw [templateBody] at hr
    obtain ⟨_, u, ws, _, -, hafter, rfl⟩ := hr.of_bind
    cases hparts : q.parts with
    | nil =>
      rw [hparts] at hafter
      cases hafter
    | cons e others =>
      rw [hparts] at hafter
      obtain ⟨_, v, ys, zs, hfirst, hrest, rfl⟩ := hafter.of_bind
      rcases List.mem_cons.mp hp with rfl | hp
      · exact ⟨e, u, v, ys, by rw [hparts]; rfl, hfirst, ws, zs, by simp⟩
      · obtain ⟨e', u', v', ys', hhead, hruns, hinfix⟩ := ih hrest hp
        exact ⟨e', u', v', ys', hhead, hruns, hinfix.trans ⟨ws ++ ys, [], by simp⟩⟩

theorem exists_substitution {context : Context} (hkind : n.kind = .templateString)
    (hrun : (emitNode n context).run env s = .ok () t) {p : Part n}
    (hp : p ∈ n.partsOf .templateSubstitution) :
    ∃ e u v, p.parts.head? = some e ∧
      (substitution (fun p c => emitNode p.node c) e).run env u = .ok () v ∧
      (substitution (fun p c => emitNode p.node c) e).steps env u <:+:
        (emitNode n context).steps env s := by
  have hr := runs_of_run hrun
  have hrule : emitNode n context = around n context.parens
      (template n fun p c => emitNode p.node c) := by
    rw [emitNode, hkind]
    rfl
  rw [hrule] at hr ⊢
  obtain ⟨_, _, _, hbody, -, hsteps⟩ := hr.of_around
  obtain ⟨_, hafter, rfl⟩ := hbody.of_act_bind
  obtain ⟨_, _, _, _, hparts, -, rfl⟩ := hafter.of_bind
  obtain ⟨e, u, v, ys, hhead, hruns, hinfix⟩ := exists_runs_of_templateBody hparts hp
  obtain ⟨hresult, hys⟩ := hruns.run_eq
  refine ⟨e, u, v, hhead, hresult, ?_⟩
  rw [hys, hsteps]
  exact hinfix.trans ((List.prefix_append _ _).isInfix.trans
    ((List.suffix_cons _ _).trans (List.suffix_cons _ _)).isInfix)

end Template

/-- From every state, an expression that a template may hold as it stands is emitted as a brace, what
its nodes write before it, the variable that it begins with and the rest, and a closing brace. Nothing
comes between the brace and the variable exactly if the expression and the objects that it begins with
all begin plainly: their comments are written already, their lines are reached, and the objects stand
in no parentheses. A template emits each of its substitutions in this way. -/
theorem interpolation_opens_variable {n : Node} (hkind : n.kind = .templateString) (env : EmitEnv) :
    (∀ p ∈ n.partsOf .templateSubstitution, ∀ e, p.parts.head? = some e → ∀ s : EmitState,
      (s.scopes.interpolation e.node).1 = true →
      (∀ m ∈ e.node :: e.node.objects, m.PlainAccess) →
      ∃ t lead rest, (substitution (fun p c => emitNode p.node c) e).run env s = .ok () t ∧
        t.output.text = s.output.text ++ '\x7b' :: lead ++ '$' :: rest ++ ['\x7d'] ∧
        (lead = [] ↔ s.output.BeginsPlainly false e.node ∧
          s.output.ObjectsBeginPlainly env.tokens e.node) ∧ lead.head? ≠ some '$') ∧
    ∀ context s t, (emitNode n context).run env s = .ok () t →
      ∀ p ∈ n.partsOf .templateSubstitution, ∃ e u v, p.parts.head? = some e ∧
        (substitution (fun p c => emitNode p.node c) e).run env u = .ok () v ∧
        (substitution (fun p c => emitNode p.node c) e).steps env u <:+:
          (emitNode n context).steps env s :=
  ⟨fun _ _ _ _ _ hholds hplain => exists_runs_substitution hholds hplain,
    fun _ _ _ hrun _ hp => exists_substitution hkind hrun hp⟩

namespace Node

/-- A name on the first line of a source, with the comments before it. -/
def named (name : String) (leading : List Comment) : Node :=
  { kind := .identifier, location := ⟨⟨1, 3⟩, ⟨1, 4⟩⟩, text := name, leading }

def substituted (expression : Node) : Node :=
  { kind := .templateSubstitution, children := [expression] }

def blockComment : Comment := ⟨0, .block, " c ", .unknown⟩

/-- A template that holds a name, and another name after a comment. -/
def commentedTemplate : Node :=
  { kind := .templateString
    children := [substituted (named "a" []), substituted (named "b" [blockComment])] }

end Node

/-- Options by default, and a source without tokens. -/
def EmitEnv.blank : EmitEnv := ⟨{}, ⟨[], []⟩⟩

/-- The start of a program. -/
def EmitState.initial : EmitState := { scopes := [{ kind := .program }] }

open Node EmitEnv EmitState in
/-- The first name follows its brace at once, the second one does not. -/
theorem interpolation_opens_variable_commented :
    ∃ p q e f, commentedTemplate.partsOf .templateSubstitution = [p, q] ∧
      p.parts.head? = some e ∧ q.parts.head? = some f ∧
      (∃ t rest, (substitution (fun p c => emitNode p.node c) e).run blank initial = .ok () t ∧
        t.output.text = '\x7b' :: '$' :: rest ++ ['\x7d']) ∧
      ∃ t lead rest, (substitution (fun p c => emitNode p.node c) f).run blank initial = .ok () t ∧
        t.output.text = '\x7b' :: lead ++ '$' :: rest ++ ['\x7d'] ∧ lead ≠ [] := by
  have hnone (name : String) (leading : List Comment) : (named name leading).objects = [] :=
    objects_eq_nil rfl
  have hplain (name : String) (leading : List Comment) :
      ∀ m ∈ named name leading :: (named name leading).objects, m.PlainAccess := by
    simp only [hnone, List.forall_mem_singleton]
    exact ⟨rfl, nofun, nofun⟩
  have hbegins : initial.output.BeginsPlainly false (named "a" []) :=
    ⟨nofun, by decide, by decide⟩
  have hcommented : ¬ initial.output.BeginsPlainly false (named "b" [blockComment]) :=
    fun h => absurd (h.comments _ (List.mem_singleton_self _)) (by decide)
  have hobjects (name : String) (leading : List Comment) :
      initial.output.ObjectsBeginPlainly blank.tokens (named name leading) := by
    simp [Output.ObjectsBeginPlainly, hnone]
  obtain ⟨hemits, -⟩ := interpolation_opens_variable (n := commentedTemplate) rfl blank
  refine ⟨_, _, _, _, rfl, rfl, rfl, ?_, ?_⟩
  · obtain ⟨t, lead, rest, hrun, htext, hlead, -⟩ := hemits _ (List.mem_cons_self ..) _ rfl initial
      (by decide +kernel) (hplain "a" [])
    obtain rfl := hlead.mpr ⟨hbegins, hobjects "a" []⟩
    exact ⟨t, rest, hrun, htext⟩
  · obtain ⟨t, lead, rest, hrun, htext, hlead, -⟩ := hemits _
      (List.mem_cons_of_mem _ (List.mem_singleton_self _)) _ rfl initial (by decide +kernel)
      (hplain "b" [Node.blockComment])
    exact ⟨t, lead, rest, hrun, htext, fun hnil => hcommented (hlead.mp hnil).1⟩

end EcmaPhp
