import EcmaPhp.Proofs.Builtin.Purity
import EcmaPhp.Proofs.Output.SourceLine
import EcmaPhp.Proofs.Soundness.Basic

/-! Properties that take their name and their value from a variable. Such a property is written like
the pair of the name and the value exactly if the name stands for a variable there. -/
namespace EcmaPhp
open Script EmitM Emit Output

/-- Whether a name stands for a variable where it is read: not for a constant, the arguments of the
function around it, a function or a class. -/
def Scopes.namesVariable (scopes : Scopes) (name : String) : Bool :=
  name ≠ "undefined" &&
    match scopes.lookup? name with
    | some d => !d.kind.isFunctionDeclaration && d.kind ≠ .classDeclaration
    | none => name ≠ "arguments" && (Builtin.globalConstants.lookup name).isNone

/-- What a name becomes where it is read. -/
def Scopes.reading (scopes : Scopes) (name : String) : String :=
  if name = "undefined" then "null"
  else
    match scopes.lookup? name with
    | some d =>
      if d.kind.isFunctionDeclaration then s!"'{name}'"
      else if d.kind = .classDeclaration then name ++ "::class"
      else "$" ++ name
    | none =>
      (Builtin.globalConstants.lookup name).getD
        (if name = "arguments" then "func_get_args()" else "$" ++ name)

/-- A node on one line of the source, outside parentheses, with no comments but those before it. -/
structure Node.StandsOn (n : Node) (tokens : TokenIndex) (line : Int) : Prop where
  known : n.isSynthetic = false
  first : n.location.first.line = line
  last : n.location.last.line = line
  unwrapped : tokens.isParenthesized n.location = false
  inner : n.inner = []
  trailing : n.trailing = []

namespace Output

variable {o : Output} {n : Node} {tokens : TokenIndex} {line : Int}

theorem sourceLine_emitChars (o : Output) (cs : List Char) :
    (o.emitChars cs).sourceLine = o.sourceLine := by
  unfold emitChars
  split <;> rfl

/-- A node that begins on the line that is reached, with no comments, writes nothing there. -/
theorem beginNode_of_le (h : n.StandsOn tokens line) (hleading : n.leading = [])
    (hskipped : n.skipped = none) (hline : line ≤ o.sourceLine) : o.beginNode false n = o := by
  unfold beginNode
  simp [hleading, hskipped, emitComments, h.first, syncTo_of_le o hline]

theorem endNode_of_le (h : n.StandsOn tokens line) (hline : line ≤ o.sourceLine) :
    o.endNode false n = o := by
  unfold endNode
  simp [h.inner, h.trailing, emitComments, h.last, syncTo_of_le o hline]

/-- Where a node begins, its line is reached. -/
theorem le_sourceLine_beginNode (h : n.StandsOn tokens line) (hkind : n.kind ≠ .program)
    (o : Output) : line ≤ (o.beginNode false n).sourceLine := by
  unfold beginNode
  simp only [h.known, hkind, h.first, decide_false, Bool.or_false, Bool.false_eq_true, if_false]
  rw [sourceLine_syncTo]
  exact le_max_right _ _

end Output

theorem Scopes.resolve?_of_isName {scopes : Scopes} {n : Node} (h : n.isName = true) :
    scopes.resolve? n = scopes.lookup? n.text := by
  rw [resolve?, Node.bindingKey?_of_isName h, Option.bind_some]

/-- A reference to a name that nothing binds changes nothing. -/
theorem EmitState.refer_of_resolve?_eq_none {s : EmitState} {n : Node}
    (h : s.scopes.resolve? n = none) : s.refer n = s := by
  have hcaptured : s.scopes.captured? n = none := by
    rw [Scopes.captured?, h]
    split <;> simp_all
  simp [refer, Scopes.refer, hcaptured]

namespace Script

variable {h : Bool} {α β : Type} {env : EmitEnv} {s : EmitState}

theorem run_bind (m : Script h α) (f : α → Script h β) :
    (m >>= f).run env s =
      match m.run env s with
      | .ok a t => (f a).run env t
      | .error failure t => .error failure t := by
  induction m generalizing s with
  | pure a => rfl
  | fail failure => rfl
  | ask q next ih => exact ih _ f
  | act x next ih => exact ih f
  | separate next ih => exact ih f
  | within frame body next _ ih =>
    change (Script.within frame body fun b => next b >>= f).run env s = _
    simp only [run]
    cases body.run env (frame.enter s) with
    | ok b t => exact ih b f
    | error failure t => rfl
  | head body next _ ih =>
    change (Script.head body fun b => next b >>= f).run env s = _
    simp only [run]
    cases body.run env (Frame.head.enter s) with
    | ok b t => exact ih b f
    | error failure t => rfl
  | function shape params body next _ _ ih =>
    change (Script.function shape params body fun b => next b >>= f).run env s = _
    simp only [run]
    cases params.run env (s.enterScope .function) with
    | error failure t => rfl
    | ok _ u =>
      dsimp only
      cases body.run env (shape.enter u) with
      | error failure t => rfl
      | ok _ t => exact ih _ f

theorem run_pure (a : α) : (Pure.pure a : Script h α).run env s = .ok a s := rfl

theorem run_emit (text : String) :
    (EmitM.emit text : Script h Unit).run env s = .ok () (s.onOutput (·.emit text)) := rfl

theorem run_getScopes : EmitM.getScopes.run env s = .ok s.scopes s := rfl

theorem run_resolve (n : Node) :
    (EmitM.resolve n).run env s = .ok (s.scopes.resolve? n) (s.refer n) := rfl

end Script

section Identifiers

variable {env : EmitEnv} {n : Node}

/-- An identifier refers to its name and becomes what the name is read as. -/
theorem run_identifier (hkind : n.kind = .identifier) (s : EmitState) :
    (identifier n {}).run env s =
      .ok () ((if n.text = "undefined" then s else s.refer n).onOutput
        (·.emit (s.scopes.reading n.text))) := by
  have hresolve : s.scopes.resolve? n = s.scopes.lookup? n.text :=
    Scopes.resolve?_of_isName (by simp [Node.isName, hkind])
  unfold identifier Scopes.reading
  by_cases hundefined : n.text = "undefined"
  · simp only [hundefined, if_true, Bool.or_self, Bool.false_eq_true, if_false]
    exact run_emit _
  simp only [hundefined, if_false, Bool.or_self, Bool.false_eq_true, run_bind, run_getScopes]
  cases hlookup : s.scopes.lookup? n.text with
  | some d =>
    have hconstant : Builtin.constant? s.scopes n = none := by
      simp [Builtin.constant?, Scopes.isUnbound, hresolve, hlookup]
    rw [hconstant]
    simp only [run_bind, run_resolve, hresolve, hlookup]
    split
    · exact run_emit _
    · split <;> exact run_emit _
  | none =>
    have hconstant : Builtin.constant? s.scopes n = Builtin.globalConstants.lookup n.text := by
      simp [Builtin.constant?, Scopes.isUnbound, hkind, hresolve, hlookup]
    have hrefer := EmitState.refer_of_resolve?_eq_none (hresolve.trans hlookup)
    rw [hconstant, hrefer]
    cases Builtin.globalConstants.lookup n.text with
    | some constant => exact run_emit _
    | none =>
      simp only [run_bind, run_resolve, hresolve, hlookup, hrefer]
      exact run_emit _

theorem Builtin.head?_of_globalConstants {name constant : String}
    (h : globalConstants.lookup name = some constant) : constant.toList.head? ≠ some '$' := by
  obtain ⟨before, after, hsplit, -⟩ := List.lookup_eq_some_iff.mp h
  have hmem : (name, constant) ∈ globalConstants := by simp [hsplit]
  have hall : ∀ p ∈ globalConstants, p.2.toList.head? ≠ some '$' := by decide
  exact hall _ hmem

/-- A name is read as a variable exactly if it names one. -/
theorem Scopes.reading_eq_iff (scopes : Scopes) (name : String) :
    scopes.reading name = "$" ++ name ↔ scopes.namesVariable name = true := by
  have hhead {text : String} (h : text.toList.head? ≠ some '$') : text ≠ "$" ++ name := by
    rintro rfl
    exact h (by simp)
  unfold reading namesVariable
  by_cases hundefined : name = "undefined"
  · simp [hundefined]
  cases scopes.lookup? name with
  | some d =>
    cases hfunction : d.kind.isFunctionDeclaration with
    | true =>
      have hquoted : s!"'{name}'" ≠ "$" ++ name := by
        change "'" ++ name ++ "'" ≠ "$" ++ name
        exact hhead (by simp)
      simpa [hundefined, hfunction] using hquoted
    | false =>
      by_cases hclass : d.kind = .classDeclaration
      · have hlonger : name ++ "::class" ≠ "$" ++ name := by
          intro heq
          have hlength := congrArg String.length heq
          simp only [String.length_append] at hlength
          have hsigil : "$".length = 1 := by decide
          have hmark : "::class".length = 7 := by decide
          omega
        have hkind : Kind.classDeclaration.isFunctionDeclaration = false := rfl
        simp [hundefined, hclass, hkind, hlonger]
      · simp [hundefined, hfunction, hclass]
  | none =>
    cases hconstant : Builtin.globalConstants.lookup name with
    | some constant =>
      have hne := hhead (Builtin.head?_of_globalConstants hconstant)
      simp [hundefined, hne]
    | none =>
      by_cases harguments : name = "arguments"
      · simp [harguments]
      · simp [hundefined, harguments]

end Identifiers

section Nodes

variable {env : EmitEnv} {n : Node} {line : Int} {s t : EmitState}

theorem run_around {body : EmitM Unit} (hn : n.StandsOn env.tokens line)
    (hbody : body.run env (s.onOutput (·.beginNode false n)) = .ok () t)
    (hline : line ≤ t.output.sourceLine) :
    (around n .asSource body : EmitM Unit).run env s = .ok () t := by
  have hwraps : Parens.asSource.wraps env.tokens n = false := hn.unwrapped
  have hend : t.onOutput (·.endNode false n) = t := by
    rw [EmitState.onOutput, endNode_of_le hn hline]
  change (EmitM.within (.node n (Parens.asSource.wraps env.tokens n)) body).run env s = _
  rw [hwraps]
  have hentered : body.run env (Frame.enter (.node n false) s) = .ok () t := hbody
  simp only [EmitM.within, Script.run, hentered]
  exact congrArg (EStateM.Result.ok ()) hend

theorem run_emitNode {rule : Rule} {context : Context} (hrule : rule? n.kind = some rule)
    (hparens : context.parens = .asSource) (hn : n.StandsOn env.tokens line)
    (hbody : (rule n (fun p c => emitNode p.node c) context).run env
      (s.onOutput (·.beginNode false n)) = .ok () t)
    (hline : line ≤ t.output.sourceLine) : (emitNode n context).run env s = .ok () t := by
  rw [emitNode, hrule]
  dsimp only
  rw [hparens]
  exact run_around hn hbody hline

/-- A name that has no mark is public. -/
theorem Node.publicName_eq_text (h : n.text.toList.head? ≠ some '#') : n.publicName = n.text := by
  have hkept : n.text.toList.dropWhile (· = '#') = n.text.toList := by
    cases htext : n.text.toList with
    | nil => rfl
    | cons c rest =>
      rw [htext] at h
      rw [List.dropWhile_cons_of_neg]
      simpa using h
  rw [publicName, hkept, String.ofList_toList]

end Nodes

/-- A name of some kind on one line of the source. -/
structure Node.NameOn (n : Node) (kind : Kind) (name : String) (tokens : TokenIndex) (line : Int) :
    Prop extends n.StandsOn tokens line where
  kind : n.kind = kind
  text : n.text = name

/-- A property of an object given by a name alone, `m`, and the same property given by its name `k`
and its value `v` in `n`, on the same line of two sources. -/
structure SameProperty (env env' : EmitEnv) (line : Int) (name : String) (m n k v : Node) :
    Prop where
  unmarked : name.toList.head? ≠ some '#'
  short : m.NameOn .shorthandProperty name env.tokens line
  long : n.StandsOn env'.tokens line
  kind : n.kind = .pair
  leading : n.leading = m.leading
  skipped : n.skipped = m.skipped
  children : n.children = [k, v]
  key : k.NameOn .propertyIdentifier name env'.tokens line
  keyField : k.field = some .key
  value : v.NameOn .identifier name env'.tokens line
  valueField : v.field = some .value
  plain : ∀ c ∈ n.children, c.leading = [] ∧ c.skipped = none

namespace SameProperty

variable {env env' : EmitEnv} {line : Int} {name : String} {m n k v : Node}

theorem run_short (h : SameProperty env env' line name m n k v) (s : EmitState) :
    (emitNode m { place := .objectMember }).run env s =
      .ok () (((s.onOutput (·.beginNode false m)).refer m).onOutput
        (·.emit ("\"" ++ name ++ "\" => $" ++ name))) := by
  have hrule : rule? m.kind = some fun n _ _ => shorthandProperty n := by rw [h.short.kind, rule?]
  refine run_emitNode hrule rfl h.short.toStandsOn ?_ ?_
  · simp only [shorthandProperty, run_bind, run_resolve, h.short.text]
    exact run_emit _
  · have hreached := le_sourceLine_beginNode h.short.toStandsOn (by simp [h.short.kind]) s.output
    exact hreached.trans_eq (sourceLine_emitChars _ _).symm

/-- Both properties begin alike. -/
theorem beginNode_eq (h : SameProperty env env' line name m n k v) (o : Output) :
    o.beginNode false n = o.beginNode false m := by
  unfold beginNode
  simp [h.leading, h.skipped, h.kind, h.short.kind, h.short.known, h.long.known, h.short.first,
    h.long.first]

theorem run_key (h : SameProperty env env' line name m n k v) {p : Part n} (hp : p.node = k)
    {s : EmitState} (hline : line ≤ s.output.sourceLine) :
    (Emit.key (fun p c => emitNode p.node c) p).run env' s =
      .ok () (s.onOutput (·.emit ("\"" ++ name ++ "\""))) := by
  obtain ⟨hleading, hskipped⟩ := h.plain k (by simp [h.children])
  have hbegin : s.onOutput (·.beginNode false k) = s := by
    rw [EmitState.onOutput, beginNode_of_le h.key.toStandsOn hleading hskipped hline]
  have hpublic : k.publicName = name := by
    rw [Node.publicName_eq_text (by rw [h.key.text]; exact h.unmarked), h.key.text]
  simp only [Emit.key, hp, h.key.kind, decide_true, Bool.true_or, if_true]
  refine run_around h.key.toStandsOn ?_ ?_
  · rw [hbegin, hpublic]
    exact run_emit _
  · exact hline.trans_eq (sourceLine_emitChars _ _).symm

theorem run_value (h : SameProperty env env' line name m n k v) {s : EmitState}
    (hline : line ≤ s.output.sourceLine) :
    (emitNode v {}).run env' s = .ok () ((if name = "undefined" then s else s.refer v).onOutput
      (·.emit (s.scopes.reading name))) := by
  obtain ⟨hleading, hskipped⟩ := h.plain v (by simp [h.children])
  have hrule : rule? v.kind = some fun n _ context => identifier n context := by
    rw [h.value.kind, rule?]
  have hbegin : s.onOutput (·.beginNode false v) = s := by
    rw [EmitState.onOutput, beginNode_of_le h.value.toStandsOn hleading hskipped hline]
  refine run_emitNode hrule rfl h.value.toStandsOn ?_ ?_
  · rw [hbegin, run_identifier h.value.kind, h.value.text]
  · refine hline.trans_eq ?_
    split <;> exact (sourceLine_emitChars _ _).symm

theorem run_long (h : SameProperty env env' line name m n k v) (s : EmitState) :
    ∃ u, (emitNode n { place := .objectMember }).run env' s = .ok () u ∧
      u.scopes = (if name = "undefined" then s.scopes else s.scopes.refer m) ∧
      u.output.text = (s.output.beginNode false m).text ++
        ("\"" ++ name ++ "\" => " ++ s.scopes.reading name).toList := by
  have hrule : rule? n.kind = some fun n visit _ => pair n visit := by rw [h.kind, rule?]
  have hkey : n.child? .key = some k := by simp [Node.child?, h.children, h.keyField]
  have hvalue : n.child? .value = some v := by
    simp [Node.child?, h.children, h.keyField, h.valueField]
  obtain ⟨p, hp, hpk⟩ := Option.map_eq_some_iff.mp ((Node.map_node_part? n .key).trans hkey)
  obtain ⟨q, hq, hqv⟩ := Option.map_eq_some_iff.mp ((Node.map_node_part? n .value).trans hvalue)
  let begun := s.onOutput (·.beginNode false n)
  let keyed := (begun.onOutput (·.emit ("\"" ++ name ++ "\""))).onOutput (·.emit " => ")
  let stop := (if name = "undefined" then keyed else keyed.refer v).onOutput
    (·.emit (s.scopes.reading name))
  have hbegun : line ≤ begun.output.sourceLine :=
    le_sourceLine_beginNode h.long (by simp [h.kind]) s.output
  have hkeyed : line ≤ keyed.output.sourceLine :=
    hbegun.trans_eq ((sourceLine_emitChars _ _).trans (sourceLine_emitChars _ _)).symm
  have hrefer : s.scopes.refer v = s.scopes.refer m := by
    have hbinding : v.bindingKey? = m.bindingKey? := by
      simp [Node.bindingKey?, h.value.kind, h.value.text, h.short.kind, h.short.text]
    simp [Scopes.refer, Scopes.captured?, Scopes.resolve?, hbinding]
  refine ⟨stop, run_emitNode hrule rfl h.long ?_ ?_, ?_, ?_⟩
  · have hfirst := run_key h hpk hbegun
    change (pair n fun p c => emitNode p.node c).run env' begun = _
    simp only [pair, need_eq hp, need_eq hq, run_bind, run_pure, hfirst, run_emit, hqv]
    exact run_value h hkeyed
  · refine hkeyed.trans_eq ?_
    dsimp only [stop]
    split <;> exact (sourceLine_emitChars _ _).symm
  · rw [← hrefer]
    dsimp only [stop]
    split <;> rfl
  · have houtput : (if name = "undefined" then keyed else keyed.refer v).output = keyed.output := by
      split <;> rfl
    have htext : stop.output.text = keyed.output.text ++ (s.scopes.reading name).toList := by
      simp [stop, EmitState.onOutput, houtput]
    rw [htext, ← h.beginNode_eq]
    simp [keyed, begun, EmitState.onOutput]

end SameProperty

/-- A property that is given by a name alone and the pair of that name with itself, on the same line
and in the same state: both are always written, with the same text exactly if the name stands for a
variable there, and with the same captures unless the name is that of the undefined value and an
outer scope binds it. -/
theorem shorthand_agrees_iff {env env' : EmitEnv} {line : Int} {name : String} {m n k v : Node}
    (h : SameProperty env env' line name m n k v) (s : EmitState) :
    ∃ t u, (emitNode m { place := .objectMember }).run env s = .ok () t ∧
      (emitNode n { place := .objectMember }).run env' s = .ok () u ∧
      (t.output.text = u.output.text ↔ s.scopes.namesVariable name = true) ∧
      (t.scopes = u.scopes ↔ (name = "undefined" → s.scopes.refer m = s.scopes)) := by
  obtain ⟨u, hu, hscopes, htext⟩ := h.run_long s
  refine ⟨_, u, h.run_short s, hu, ?_, ?_⟩
  · rw [htext, ← Scopes.reading_eq_iff, ← String.toList_inj, eq_comm]
    simp [EmitState.onOutput, EmitState.refer]
  · have hrefer : (((s.onOutput (·.beginNode false m)).refer m).onOutput
        (·.emit ("\"" ++ name ++ "\" => $" ++ name))).scopes = s.scopes.refer m := rfl
    rw [hrefer, hscopes]
    split
    · rename_i hundefined
      simp [hundefined]
    · rename_i hdefined
      simp [hdefined]

/-- A name of some kind on the first line. -/
def Node.nameOf (kind : Kind) (name : String) : Node :=
  { kind, location := ⟨⟨1, 2⟩, ⟨1, 3⟩⟩, text := name }

def Node.pairOf (name : String) : Node :=
  { kind := .pair, location := ⟨⟨1, 2⟩, ⟨1, 5⟩⟩
    children := [{ nameOf .propertyIdentifier name with field := some .key },
      { nameOf .identifier name with field := some .value }] }

theorem sameProperty_pairOf (name : String) (h : name.toList.head? ≠ some '#') :
    SameProperty ⟨{}, ⟨[], []⟩⟩ ⟨{}, ⟨[], []⟩⟩ 1 name (.nameOf .shorthandProperty name) (.pairOf name)
      { Node.nameOf .propertyIdentifier name with field := some .key }
      { Node.nameOf .identifier name with field := some .value } where
  unmarked := h
  short := ⟨⟨rfl, rfl, rfl, rfl, rfl, rfl⟩, rfl, rfl⟩
  long := ⟨rfl, rfl, rfl, rfl, rfl, rfl⟩
  kind := rfl
  leading := rfl
  skipped := rfl
  children := rfl
  key := ⟨⟨rfl, rfl, rfl, rfl, rfl, rfl⟩, rfl, rfl⟩
  keyField := rfl
  value := ⟨⟨rfl, rfl, rfl, rfl, rfl, rfl⟩, rfl, rfl⟩
  valueField := rfl
  plain := by simp [Node.pairOf, Node.nameOf]

/-- Inside a function of a program with a variable and a function. -/
def functionPlace : EmitState :=
  { scopes := [{ kind := .function },
      { kind := .program
        definitions := [("a", { kind := .variableDeclarator }), ("f", { kind := .functionDeclaration })] }] }

/-- The variable is written and captured alike, the function is not written alike. -/
theorem shorthand_agrees_iff_place :
    (∃ t u, (emitNode (.nameOf .shorthandProperty "a") { place := .objectMember }).run
        ⟨{}, ⟨[], []⟩⟩ functionPlace = .ok () t ∧
      (emitNode (.pairOf "a") { place := .objectMember }).run ⟨{}, ⟨[], []⟩⟩ functionPlace =
        .ok () u ∧ t.output.text = u.output.text ∧ t.scopes = u.scopes) ∧
    ∃ t u, (emitNode (.nameOf .shorthandProperty "f") { place := .objectMember }).run
        ⟨{}, ⟨[], []⟩⟩ functionPlace = .ok () t ∧
      (emitNode (.pairOf "f") { place := .objectMember }).run ⟨{}, ⟨[], []⟩⟩ functionPlace =
        .ok () u ∧ t.output.text ≠ u.output.text := by
  constructor
  · obtain ⟨t, u, ht, hu, htext, hscopes⟩ :=
      shorthand_agrees_iff (sameProperty_pairOf "a" (by decide)) functionPlace
    exact ⟨t, u, ht, hu, htext.mpr (by decide), hscopes.mpr fun hname => absurd hname (by decide)⟩
  · obtain ⟨t, u, ht, hu, htext, -⟩ :=
      shorthand_agrees_iff (sameProperty_pairOf "f" (by decide)) functionPlace
    exact ⟨t, u, ht, hu, htext.not.mpr (by decide)⟩

end EcmaPhp
