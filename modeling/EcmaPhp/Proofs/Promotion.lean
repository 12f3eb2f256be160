import EcmaPhp.Proofs.Budget.Learning
import EcmaPhp.Proofs.Settings
import EcmaPhp.Proofs.Script.Balance
import EcmaPhp.Proofs.Script.Invariant

/-! How the fields that a constructor sets come to be declared before it, with the comments of the
statements that set them. -/
namespace EcmaPhp
open Output Script EmitM Emit

namespace Node

variable {known : List String} {before after : List Node} {statement : Node} {key : String}

theorem snd_takeBlockComments (s : Node) :
    s.takeBlockComments.2 = s.leading.filter Comment.isBlock := by
  unfold takeBlockComments
  dsimp only
  split
  · rfl
  · rename_i hnone
    cases htaken : s.leading.filter Comment.isBlock with
    | nil => rfl
    | cons first rest =>
      have hlast := List.getLast?_cons (a := first) (l := rest)
      rw [← htaken] at hlast
      exact (hnone first rest _ htaken hlast).elim

/-- The comments of the first statement for a field are held. -/
theorem lookup_takeFieldComments (hstatement : statement.assignedField? = some key)
    (hknown : key ∉ known) (hfirst : ∀ m ∈ before, m.assignedField? ≠ some key) :
    (takeFieldComments known (before ++ statement :: after)).2.lookup key =
      some (statement.leading.filter Comment.isBlock) := by
  induction before generalizing known with
  | nil =>
    rw [List.nil_append, takeFieldComments, hstatement]
    simp [hknown, snd_takeBlockComments]
  | cons m rest ih =>
    obtain ⟨hm, hrest⟩ := List.forall_mem_cons.mp hfirst
    rw [List.cons_append, takeFieldComments]
    cases hfield : m.assignedField? with
    | none => exact ih hknown hrest
    | some other =>
      have hne : key ≠ other := fun heq => hm (heq ▸ hfield)
      dsimp only
      split
      · exact ih hknown hrest
      · have hother : key ∉ other :: known := by simp [hne, hknown]
        rw [List.lookup_cons, beq_false_of_ne hne]
        exact ih hother hrest

/-- The body of a constructor sets what it sets with the comments. -/
theorem SetsField.withoutFieldComments {n : Node} {body : Part n} (h : body.node.SetsField key)
    (hkind : body.node.kind = .statementBlock) (known : List String) :
    (body.withoutFieldComments known).1.node.SetsField key := by
  have hsubstatements (m : Node) (hm : m.kind = .statementBlock) : m.substatements = m.children := by
    rw [substatements, hm]
  cases h with
  | assignment h => simp [(exists_assignment h).1] at hkind
  | inside hc h =>
    rw [hsubstatements _ hkind] at hc
    have hunled := List.mem_map_of_mem (f := unled) hc
    rw [← map_unled_takeFieldComments known] at hunled
    obtain ⟨m, hm, heq⟩ := List.mem_map.mp hunled
    have hmem : m ∈ (body.withoutFieldComments known).1.node.substatements := by
      rw [hsubstatements (body.withoutFieldComments known).1.node hkind]
      exact hm
    exact .inside hmem (h.of_unled heq)

end Node

section FieldLines

variable {env : EmitEnv} {s t : EmitState} {xs : List Step} {key : String} {scope : Scope}
  {known keys : List String} {held : List (String × List Comment)}

/-- The indentation is all that the text of a field takes from the output. -/
theorem fieldText_eq {o o' : Output} (h : o'.indent = o.indent) (cs : List Comment) (key : String) :
    fieldText o' cs key = fieldText o cs key := by
  have hindentation : o'.indentation = o.indentation := by rw [indentation, indentation, h]
  have hcomment : o'.commentText = o.commentText := by
    funext c
    rw [commentText, commentText, hindentation]
  rw [fieldText, fieldText, hcomment]

/-- The fields of a scope that are not known yet. -/
def promotedFields (scope : Scope) (known : List String) : List String :=
  (scope.definitions.map (·.1)).filter fun key => Node.isThisKey key && !known.contains key

theorem mem_promotedFields : key ∈ promotedFields scope known ↔
    scope.defines key = true ∧ Node.isThisKey key = true ∧ key ∉ known := by
  rw [promotedFields, List.mem_filter, Scope.defines_eq_true_iff]
  simp

/-- The declarations of fields, each on a line of its own, with the comments that are held. -/
def fieldLines (o : Output) (held : List (String × List Comment)) (keys : List String) :
    List Char :=
  keys.flatMap fun key =>
    let field := fieldText o ((held.lookup key).getD []) key
    if o.pointAtLineStart 0 then field ++ '\n' :: o.indentation else '\n' :: o.indentation ++ field

theorem fieldText_infix_fieldLines (o : Output) (held : List (String × List Comment))
    (hkey : key ∈ keys) :
    fieldText o ((held.lookup key).getD []) key <:+: fieldLines o held keys := by
  rw [fieldLines, List.flatMap_def]
  apply List.IsInfix.trans ?_ (List.infix_of_mem_flatten (List.mem_map_of_mem hkey))
  dsimp only
  split
  · exact (List.prefix_append _ _).isInfix
  · exact (List.suffix_append _ _).isInfix

/-- A constructor has the fields declared that its scope has, once what is held for them counts as
written. -/
theorem exists_marks (hr : Runs env (promoteFields scope held) s () t xs)
    (hkeys : keys = promotedFields scope (s.declared.head?.getD [])) :
    ∃ (marks : EmitM Unit) (v : EmitState) (ys : List Step), Runs env marks s () v ys ∧
      xs = ys ++ [.action (.edit (.insert (fieldLines s.output held keys))) v] ∧
      (∀ key ∈ keys, ∃ u, .action (.edit (.mark ((held.lookup key).getD []))) u ∈ ys) ∧
      ∀ x ∈ ys, ∀ depth key, ¬ x.Declares depth key := by
  subst hkeys
  obtain ⟨_, v, ys, zs, hmarks, hinsert, rfl⟩ := hr.of_ask_bind.of_ask_bind.of_bind
  obtain ⟨-, rfl⟩ := hinsert.of_act
  refine ⟨_, v, ys, hmarks, rfl, ?_, ?_⟩
  · intro key hkey
    obtain ⟨before, after, hsplit⟩ := List.append_of_mem hkey
    have hmarks : Runs env ((promotedFields scope (s.declared.head?.getD [])).forM _) s () v ys :=
      hmarks
    rw [hsplit] at hmarks
    obtain ⟨u, _, _, _, _, -, hstep, -, rfl⟩ := hmarks.of_forM
    obtain ⟨_, -, rfl⟩ := hstep.of_act_bind
    exact ⟨u, by simp⟩
  · intro x hx depth key
    obtain ⟨_, -, _, _, _, hstep, hmem⟩ := hmarks.exists_of_mem_forM hx
    obtain ⟨_, hlearn, rfl⟩ := hstep.of_act_bind
    obtain ⟨_, hnote, rfl⟩ := hlearn.of_act_bind
    obtain ⟨-, rfl⟩ := hnote.of_act
    simp only [List.mem_cons, List.not_mem_nil, or_false] at hmem
    rcases hmem with rfl | rfl | rfl <;> exact id

end FieldLines

/-- Something solid stands behind the newest insertion point. -/
def Output.Guarded (o : Output) : Prop := ∃ p ps, o.points = p :: ps ∧ HardBehind p o

namespace Script

variable {env : EmitEnv} {α : Type} {m : EmitM α} {a : α} {s t : EmitState} {xs : List Step}

/-- What stands behind the newest point stays behind it. -/
theorem Runs.guarded (hr : Runs env m s a t xs) (hs : Stacked s.output) (hg : Guarded s.output) :
    Stacked t.output ∧ Guarded t.output := by
  obtain ⟨p, ps, hps, hhard⟩ := hg
  obtain ⟨ht, c, hc, hsolid⟩ := hr.invariant (invariant_output (invariant_hardBehind p)) ⟨hs, hhard⟩
  have hretreat := hr.points.1
  rw [hps] at hretreat
  obtain ⟨p', ps', ⟨hle, -⟩, -, hps'⟩ := List.forall₂_cons_left_iff.mp hretreat
  have hmem : c ∈ t.output.text.drop p' := List.drop_subset_drop_left _ hle hc
  exact ⟨ht, p', ps', hps', c, hmem, hsolid⟩

/-- From where it is inserted to the end of a run, nothing cuts a text. -/
theorem Runs.infix_of_insert {u : EmitState} {inserted : List Char} (hr : Runs env m s a t xs)
    (hmem : .action (.edit (.insert inserted)) u ∈ xs) (hs : Stacked u.output)
    (hg : Guarded u.output) : inserted <:+: t.output.text := by
  by_cases hne : inserted = []
  · exact hne ▸ List.nil_infix
  · obtain ⟨p, ps, hps, hhard⟩ := hg
    have hinserted := invariant_stacked.act hs (.edit (.insert inserted))
    have hfixed := hr.invariant_of_mem_action (invariant_output (invariant_fixed hne)) hmem
      ⟨hinserted, fixed_insertAt hs hps hne hhard⟩
    exact hfixed.2.isInfix

end Script

theorem Output.guarded_emitChars {o : Output} {cs : List Char} (hs : Stacked o)
    (hpoints : o.points ≠ []) (hcs : ∃ c ∈ cs, isSoft c = false) : Guarded (o.emitChars cs) := by
  obtain ⟨p, ps, hps⟩ := List.exists_cons_of_ne_nil hpoints
  obtain ⟨c, hc, hsolid⟩ := hcs
  have hle : p ≤ o.text.length := hs.bounded p (by simp [hps])
  refine ⟨p, ps, by simpa using hps, c, ?_, hsolid⟩
  rw [text_emitChars, List.drop_append_of_le_length hle]
  exact List.mem_append_right _ hc

/-- The comments that a constructor holds back from the statements of its body. -/
def EmitState.heldComments (s : EmitState) (body : Node) : List (String × List Comment) :=
  (Node.takeFieldComments (s.declared.head?.getD []) body.children).2

/-- Fields that a constructor with a body has declared before it in a run: those that it declares in
its scope and that are not known yet. -/
structure Promotion (body : Node) (s : EmitState) (xs : List Step) (keys : List String)
    (inserted : List Char) : Prop where
  mem_iff (key : String) : key ∈ keys ↔ Node.isThisKey key = true ∧
    key ∉ s.declared.head?.getD [] ∧ ∃ x ∈ xs, x.Declares (s.scopes.length + 1) key
  sets (key : String) : body.kind = .statementBlock → body.SetsField key →
    ∃ x ∈ xs, x.Declares (s.scopes.length + 1) key
  marked (key : String) : key ∈ keys →
    ∃ u, .action (.edit (.mark (((s.heldComments body).lookup key).getD []))) u ∈ xs
  insert : ∃ v, .action (.edit (.insert inserted)) v ∈ xs ∧ Stacked v.output ∧ Guarded v.output
  text : ∃ o, o.indent = s.output.indent ∧ inserted = fieldLines o (s.heldComments body) keys

section Constructors

variable {env : EmitEnv} {s t : EmitState} {xs : List Step} {n body : Node}

theorem kind_of_isConstructor (h : isConstructor n = true) : n.kind = .methodDefinition := by
  simp only [isConstructor, Bool.and_eq_true, decide_eq_true_eq] at h
  exact h.1.1

theorem steps_of_modifiers (hn : isConstructor n = true)
    (hr : Runs env (modifiers n) s () t xs) :
    t = Action.apply (.edit (.text "public ".toList)) s ∧
      xs = [.action (.edit (.text "public ".toList)) s] := by
  have hstatic : n.hasToken "static" = false := by
    simp only [isConstructor, Bool.and_eq_true, Bool.not_eq_true'] at hn
    exact hn.2
  obtain ⟨_, hrest, rfl⟩ := hr.of_act_bind
  simp only [hstatic, Bool.false_eq_true, if_false] at hrest
  obtain ⟨-, rfl, rfl⟩ := hrest.of_pure
  exact ⟨rfl, rfl⟩

/-- The fields are declared once the function of the constructor is there. -/
theorem exists_promotion_of_constructorMethod
    (hr : Runs env (constructorMethod n fun p c => emitNode p.node c) s () t xs)
    (horderly : n.Orderly) (hkind : n.kind = .methodDefinition) (hbody : n.child? .body = some body)
    (hdistinct : s.Distinct) (hstacked : Stacked s.output) (hguarded : Guarded s.output) :
    ∃ keys inserted, Promotion body s xs keys inserted := by
  obtain ⟨part, hpart, hr⟩ := hr.of_need
  obtain rfl : part.node = body := by
    rw [Node.child?_of_part? hpart] at hbody
    exact Option.some.inj hbody
  obtain ⟨scope, u, ys, zs, hfunction, hpromote, rfl⟩ := hr.of_ask_bind.of_bind
  have hdeclared : u.declared = s.declared :=
    declared_constructorFunction horderly hkind hpart hfunction hdistinct
  obtain ⟨marks, v, ws, hmarks, hzs, hmarked, hsilent⟩ := exists_marks hpromote rfl
  have hdefines (key : String) : scope.defines key = true ↔
      ∃ x ∈ ys ++ zs, x.Declares (s.scopes.length + 1) key := by
    rw [Runs.defines_iff hfunction]
    constructor
    · rintro ⟨x, hx, hdeclares⟩
      exact ⟨x, List.mem_append_left _ hx, hdeclares⟩
    · rintro ⟨x, hx, hdeclares⟩
      simp only [hzs, List.mem_append, List.mem_singleton] at hx
      rcases hx with hx | hx | rfl
      · exact ⟨x, hx, hdeclares⟩
      · exact (hsilent x hx _ _ hdeclares).elim
      · cases hdeclares
  obtain ⟨hstacked, hguarded⟩ := hfunction.guarded hstacked hguarded
  obtain ⟨hstacked, hguarded⟩ := hmarks.guarded hstacked hguarded
  have hinsert : .action (.edit (.insert (fieldLines u.output (s.heldComments part.node)
      (promotedFields scope (u.declared.head?.getD []))))) v ∈ ys ++ zs := by
    rw [hzs]
    exact List.mem_append_right ys (List.mem_append_right ws List.mem_cons_self)
  refine ⟨_, _, ?_, ?_, ?_, ⟨v, hinsert, hstacked, hguarded⟩,
    ⟨u.output, hfunction.restored.indent, rfl⟩⟩
  · intro key
    rw [mem_promotedFields, hdefines, hdeclared]
    tauto
  · intro key hblock hsets
    rw [← hdefines]
    exact defines_function hfunction (hsets.withoutFieldComments hblock _)
  · intro key hkey
    obtain ⟨w, hw⟩ := hmarked key hkey
    rw [hzs]
    exact ⟨w, List.mem_append_right ys (List.mem_append_left _ hw)⟩

/-- The start of a method is solid text behind the newest point. -/
theorem guarded_beginMethod {o : Output} (hstacked : Stacked o) (hpoints : o.points ≠ [])
    (wrapped : Bool) (n : Node) :
    Stacked ((o.beginNode wrapped n).emitChars "public ".toList) ∧
      Guarded ((o.beginNode wrapped n).emitChars "public ".toList) ∧
      ((o.beginNode wrapped n).emitChars "public ".toList).indent = o.indent := by
  have hgrows := grows_beginNode o wrapped n
  have hnode := hstacked.grows hgrows
  refine ⟨hnode.grows (.emitChars _ _), ?_, ?_⟩
  · apply guarded_emitChars hnode
    · rw [← List.length_pos_iff, hgrows.revises.retreat.length_eq]
      exact List.length_pos_iff.mpr hpoints
    · exact ⟨'p', by decide, by decide⟩
  · have hshifts := (Shifts.of_writes (writes_beginNode o wrapped n)).trans
      (.of_writes (writes_emitChars _ "public ".toList))
    simpa using hshifts.indent

/-- A constructor has fields declared before it. -/
theorem exists_promotion (hr : Runs env (emitNode n {}) s () t xs) (hn : isConstructor n = true)
    (hmethod : n.accessor? = none) (horderly : n.Orderly) (hbody : n.child? .body = some body)
    (hdistinct : s.Distinct) (hstacked : Stacked s.output) (hpoints : s.output.points ≠ []) :
    ∃ keys inserted, Promotion body s xs keys inserted := by
  have hkind := kind_of_isConstructor hn
  obtain ⟨wrapped, u, ys, hrule, -, hxs⟩ := hr.eq_of_emitNode (by rw [hkind]; rfl)
  obtain ⟨name, -, hrule⟩ := hrule.of_need
  simp only [hmethod, Option.isSome_none, Bool.false_eq_true, if_false] at hrule
  split at hrule
  · cases hrule
  · simp only [reduceCtorEq, if_false] at hrule
    obtain ⟨_, hrest, rfl⟩ := hrule.of_act_bind
    obtain ⟨_, w, _, zs, hmodifiers, hconstructor, rfl⟩ := hrest.of_bind
    obtain ⟨rfl, rfl⟩ := steps_of_modifiers hn hmodifiers
    obtain ⟨hstart, hguarded, hindent⟩ := guarded_beginMethod hstacked hpoints wrapped n
    obtain ⟨keys, inserted, hpromotion⟩ := exists_promotion_of_constructorMethod hconstructor
      horderly hkind hbody (((hdistinct.enter _).act _).act _) hstart hguarded
    -- Before the function, nothing is declared but the method, and that outside.
    have hdeclares (key : String) :
        (∃ x ∈ zs, x.Declares ((s.scopes.register n).length + 1) key) ↔
          ∃ x ∈ xs, x.Declares (s.scopes.length + 1) key := by
      rw [(Scopes.Evolves.register s.scopes n).length_eq]
      simp [hxs, Step.Declares, Frame.enter, EmitState.onOutput]
    have hsub : zs ⊆ xs := by
      intro x hx
      simp [hxs, hx]
    obtain ⟨v, hinsert, hv⟩ := hpromotion.insert
    obtain ⟨o, ho, htext⟩ := hpromotion.text
    refine ⟨keys, inserted, ?_, ?_, ?_, ⟨v, hsub hinsert, hv⟩, ⟨o, ho.trans hindent, htext⟩⟩
    · intro key
      rw [← hdeclares]
      exact hpromotion.mem_iff key
    · intro key hblock hsets
      exact (hdeclares key).mp (hpromotion.sets key hblock hsets)
    · intro key hkey
      obtain ⟨w, hw⟩ := hpromotion.marked key hkey
      exact ⟨w, hsub hw⟩

end Constructors

/-- In the body of a constructor, a statement is the first that sets a field, and the field is not
known yet. -/
structure Node.Promotes (n statement : Node) (key : String) (known : List String) : Prop where
  isConstructor : Emit.isConstructor n = true
  isMethod : n.accessor? = none
  orderly : n.Orderly
  first : ∃ body before after, n.child? .body = some body ∧ body.kind = .statementBlock ∧
    body.children = before ++ statement :: after ∧ ∀ m ∈ before, m.assignedField? ≠ some key
  sets : statement.assignedField? = some key
  unknown : key ∉ known

/-- A constructor has the field that a statement sets declared before it, with the comments of the
statement. -/
theorem exists_declaration {env : EmitEnv} {s t : EmitState} {xs : List Step} {n statement : Node}
    {key : String} (hr : Runs env (emitNode n {}) s () t xs)
    (hn : n.Promotes statement key (s.declared.head?.getD [])) (hdistinct : s.Distinct)
    (hstacked : Stacked s.output) (hpoints : s.output.points ≠ []) :
    ∃ (u v : EmitState) (text : List Char),
      .action (.edit (.mark (statement.leading.filter Comment.isBlock))) u ∈ xs ∧
      .action (.edit (.insert text)) v ∈ xs ∧ Stacked v.output ∧ Guarded v.output ∧
      fieldText s.output (statement.leading.filter Comment.isBlock) key <:+: text := by
  obtain ⟨body, before, after, hbody, hkind, hchildren, hfirst⟩ := hn.first
  obtain ⟨keys, inserted, hpromotion⟩ := exists_promotion hr hn.isConstructor hn.isMethod hn.orderly
    hbody hdistinct hstacked hpoints
  have hheld : (s.heldComments body).lookup key =
      some (statement.leading.filter Comment.isBlock) := by
    rw [EmitState.heldComments, hchildren]
    exact Node.lookup_takeFieldComments hn.sets hn.unknown hfirst
  have hsets : body.SetsField key := by
    apply Node.SetsField.inside _ (.assignment hn.sets)
    rw [Node.substatements, hkind, hchildren]
    exact List.mem_append_right before List.mem_cons_self
  have hkey : key ∈ keys := (hpromotion.mem_iff key).mpr
    ⟨(Node.exists_assignment hn.sets).2.1, hn.unknown, hpromotion.sets key hkind hsets⟩
  obtain ⟨u, hmark⟩ := hpromotion.marked key hkey
  obtain ⟨v, hinsert, hv, hv'⟩ := hpromotion.insert
  obtain ⟨o, hindent, rfl⟩ := hpromotion.text
  have hfield := fieldText_infix_fieldLines o (s.heldComments body) hkey
  rw [hheld] at hmark hfield
  exact ⟨u, v, _, hmark, hinsert, hv, hv', fieldText_eq hindent _ key ▸ hfield⟩

namespace Node

/-- The field that a member of a class declares, as `this.x`. -/
def declaredField? (member : Node) : Option String :=
  (member.child? .property).map fun property => "this." ++ property.publicName

/-- The fields that the body of a class declares. -/
def declaredFields (body : Node) : List String :=
  (body.childrenOf .fieldDefinition).filterMap declaredField?

end Node

section Classes

variable {env : EmitEnv} {s t : EmitState} {xs : List Step}

theorem declaredField?_of_fieldKey {field : Node} {key : String}
    (hr : Runs env (fieldKey field) s key t xs) : field.declaredField? = some key := by
  unfold fieldKey at hr
  unfold Node.declaredField?
  cases hproperty : field.child? .property with
  | none =>
    rw [hproperty] at hr
    cases hr
  | some property =>
    rw [hproperty] at hr
    rw [← hr.of_pure.1]
    rfl

theorem append_of_fieldKeys {fields : List Node} {acc keys : List String}
    (hr : Runs env (List.mapM.loop fieldKey fields acc) s keys t xs) :
    keys = acc.reverse ++ fields.filterMap Node.declaredField? := by
  induction fields generalizing acc s xs with
  | nil => simpa using hr.of_pure.1.symm
  | cons field rest ih =>
    rw [List.mapM.loop] at hr
    obtain ⟨key, _, _, _, hkey, hrest, rfl⟩ := hr.of_bind
    rw [ih hrest]
    simp [declaredField?_of_fieldKey hkey]

/-- The body of a class is emitted when the fields are known that it declares. -/
theorem exists_classBody {d body : Node}
    (hr : Runs env (classDeclaration d fun p c => emitNode p.node c) s () t xs)
    (hdistinct : s.Distinct) (hbody : d.child? .body = some body) :
    ∃ u v ys, Runs env (emitNode body {}) u () v ys ∧ ys ⊆ xs ∧ u.Distinct ∧
      u.declared.head? = some body.declaredFields := by
  obtain ⟨name, -, hr⟩ := hr.of_need
  obtain ⟨part, hpart, hr⟩ := hr.of_need
  obtain rfl : part.node = body := by
    rw [Node.child?_of_part? hpart] at hbody
    exact Option.some.inj hbody
  obtain ⟨_, hemit, rfl⟩ := hr.of_act_bind
  obtain ⟨_, hrest, rfl⟩ := hemit.of_act_bind
  obtain ⟨_, v, _, _, hsuper, hrest', rfl⟩ := hrest.of_bind
  obtain ⟨keys, w, _, _, hfields, hclass, rfl⟩ := hrest'.of_bind
  obtain ⟨_, _, hscope, -, rfl⟩ := hclass.of_within
  obtain ⟨_, _, hblock, -, rfl⟩ := hscope.of_within
  obtain ⟨_, ys, hvisit, -, rfl⟩ := hblock.of_within
  have hdistinct : w.Distinct := hfields.distinct (hsuper.distinct ((hdistinct.act _).act _))
  refine ⟨_, _, ys, hvisit, ?_, (hdistinct.enter (.fields keys)).enterScope .classBody, ?_⟩
  · intro x hx
    simp [hx]
  · exact congrArg some (append_of_fieldKeys hfields)

/-- The constructor of a class is emitted at a point of its own. If it is the first, only the fields
that the class declares are known then. -/
theorem exists_point {d body n : Node} {earlier later : List Node}
    (hr : Runs env (classDeclaration d fun p c => emitNode p.node c) s () t xs)
    (hdistinct : s.Distinct) (hbody : d.child? .body = some body) (hkind : body.kind = .classBody)
    (horderly : body.Orderly) (hchildren : body.children = earlier ++ n :: later)
    (hn : isConstructor n = true) :
    ∃ u, .frame .point (emitNode n {}) u ∈ xs ∧
      ((∀ m ∈ earlier, isConstructor m = false) → u.declared.head? = some body.declaredFields) := by
  obtain ⟨v, _, ys, hvisit, hsub, hdistinct, hdeclared⟩ := exists_classBody hr hdistinct hbody
  obtain ⟨wrapped, _, zs, hrule, -, hsub'⟩ := hvisit.of_emitNode (by rw [hkind]; rfl)
  obtain ⟨_, _, ws, _, hmembers, -, rfl⟩ := hrule.of_bind
  -- The members are the parts of the body, the constructor among them.
  have hparts := body.map_node_parts
  rw [hchildren] at hparts
  obtain ⟨before, rest, hsplit, rfl, hrest⟩ := List.map_eq_append_iff.mp hparts
  obtain ⟨p, after, rfl, rfl, -⟩ := List.map_eq_cons_iff.mp hrest
  rw [hsplit] at hmembers
  obtain ⟨u, _, _, _, _, hbefore, hmember, -, rfl⟩ := hmembers.of_forM
  rw [classMember, if_pos hn] at hmember
  obtain ⟨_, _, -, -, rfl⟩ := hmember.of_within
  refine ⟨u, hsub (hsub' (by simp)), ?_⟩
  intro hfirst
  have hordinary : ∀ m ∈ before, m.node ∈ body.children ∧ ¬ isConstructor m.node = true := by
    intro m hm
    have hmem := List.mem_map_of_mem (f := Part.node) hm
    constructor
    · rw [hchildren]
      exact List.mem_append_left _ hmem
    · exact ne_true_of_eq_false (hfirst m.node hmem)
  rw [declared_classMembers horderly hkind hordinary hbefore (hdistinct.enter (.node body wrapped))]
  exact hdeclared

/-- The head of a program passes over no class. -/
theorem mem_of_moduleHead {n : Node} {parts rest : List (Part n)} {p : Part n}
    (hr : Runs env (moduleHead parts) s rest t xs) (hp : p ∈ parts)
    (hkind : p.node.kind = .classDeclaration) : p ∈ rest := by
  induction parts generalizing s xs with
  | nil => cases hp
  | cons q others ih =>
    unfold moduleHead at hr
    dsimp only at hr
    split at hr
    · rename_i hskipped
      have hne : p ≠ q := by
        rintro rfl
        simp [Node.isStrictDirective, Node.expression?, hkind] at hskipped
      obtain ⟨_, hrest, -⟩ := hr.of_act_bind
      exact ih hrest (List.mem_of_ne_of_mem hne hp)
    · split at hr
      · rename_i hmodules
        have hne : p ≠ q := by
          rintro rfl
          simp [Node.declaresModules, hkind, Kind.isDeclaration] at hmodules
        obtain ⟨_, _, _, _, -, hrest, -⟩ := hr.of_bind
        exact ih hrest (List.mem_of_ne_of_mem hne hp)
      · exact hr.of_pure.1 ▸ hp

theorem exists_emitNode_of_emitProgram {root : Node} (hr : Runs env (emitProgram root) s () t xs) :
    ∃ u ys, Runs env (emitNode root {}) u () t ys ∧ ys ⊆ xs := by
  obtain ⟨ys, hrest, rfl⟩ := hr.of_act_bind
  replace hrest := hrest.of_ask_bind
  split at hrest
  · obtain ⟨zs, hnode, rfl⟩ := hrest.of_act_bind
    exact ⟨_, zs, hnode, by simp⟩
  · exact ⟨_, ys, hrest, by simp⟩

theorem exists_statements_of_program {root : Node} {visit : Visit root}
    (hr : Runs env (program root visit) s () t xs) :
    ∃ rest u v ys, Runs env (statements visit rest) u () v ys ∧ ys ⊆ xs ∧
      ∀ p ∈ root.parts, p.node.kind = .classDeclaration → p ∈ rest := by
  obtain ⟨v, ws, hbody, -, rfl⟩ := hr.of_within
  have hhead : ∃ u ys, Runs env (moduleHead (root.parts.filter (·.node.kind != .hashBangLine)) >>=
      statements visit) u () v ys ∧ ys ⊆ ws := by
    replace hbody := hbody.of_ask_bind
    split at hbody
    · obtain ⟨_, hbreak, rfl⟩ := hbody.of_act_bind
      obtain ⟨ys, hhead, rfl⟩ := hbreak.of_act_bind
      exact ⟨_, ys, hhead, by simp⟩
    · exact ⟨_, ws, hbody, List.Subset.refl ws⟩
  obtain ⟨_, _, hparts, hsub⟩ := hhead
  obtain ⟨rest, u, _, zs, hhead, hstatements, rfl⟩ := hparts.of_bind
  refine ⟨rest, u, v, zs, hstatements, ?_, ?_⟩
  · intro x hx
    exact List.mem_cons_of_mem _ (hsub (List.mem_append_right _ hx))
  · intro p hp hkind
    exact mem_of_moduleHead hhead (List.mem_filter.mpr ⟨hp, by simp [hkind]⟩) hkind

/-- A class that a program declares is emitted. -/
theorem exists_class {root d : Node} (hr : Runs env (emitProgram root) s () t xs)
    (hroot : root.kind = .program) (hd : d ∈ root.children) (hkind : d.kind = .classDeclaration) :
    ∃ wrapped u,
      .frame (.node d wrapped) (classDeclaration d fun p c => emitNode p.node c) u ∈ xs := by
  obtain ⟨u, ys, hnode, hsub⟩ := exists_emitNode_of_emitProgram hr
  obtain ⟨_, _, zs, hrule, -, hsub'⟩ := hnode.of_emitNode (by rw [hroot]; rfl)
  obtain ⟨rest, _, _, ws, hstatements, hsub'', hrest⟩ := exists_statements_of_program hrule
  obtain ⟨_, _, _, vs, -, hvisits, rfl⟩ := hstatements.of_bind
  rw [← root.map_node_parts] at hd
  obtain ⟨p, hp, rfl⟩ := List.mem_map.mp hd
  obtain ⟨before, after, rfl⟩ := List.append_of_mem (hrest p hp hkind)
  obtain ⟨v, _, _, us, _, -, hvisit, -, rfl⟩ := hvisits.of_forM
  have hvisit : Runs env (emitNode p.node {}) v () _ us := hvisit
  have hrule : rule? p.node.kind = some fun n visit _ => classDeclaration n visit := by
    rw [hkind]
    rfl
  rw [emitNode, hrule] at hvisit
  obtain ⟨wrapped, _, _, -, -, rfl⟩ := hvisit.of_around
  exact ⟨wrapped, v, hsub (hsub' (hsub'' (by simp)))⟩

end Classes

end EcmaPhp
