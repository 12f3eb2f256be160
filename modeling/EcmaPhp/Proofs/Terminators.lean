import EcmaPhp.Proofs.Interpolation
import EcmaPhp.Proofs.LastWords

/-! Simple statements end in a terminator, unless the check for one takes a line comment for it: the
check reads the text that is written already, and there a semicolon at the end of a comment looks
like one of the code. -/
namespace EcmaPhp
open Script EmitM Emit Output Ink

/-- A statement that is emitted with a terminator at its end: an expression that is no directive, a
`return`, a `throw`, a loop with its condition last, and a variable outside the head of a loop. -/
def Node.isSimple (n : Node) (place : Place) : Bool :=
  match n.kind with
  | .expressionStatement => !n.children.isEmpty && !n.isStrictDirective
  | .returnStatement | .throwStatement | .doStatement => true
  | .variableDeclarator => place ≠ .declarator true
  | _ => false

/-- Once comments and blanks are removed, a semicolon is last. -/
def Ink.Terminated (xs : List Ink) : Prop := (shownCode xs).getLast? = some ';'

instance (xs : List Ink) : Decidable (Terminated xs) :=
  inferInstanceAs (Decidable (_ = _))

/-- The text looks terminated, but not by the code among the pieces. -/
def Output.Misjudges (o : Output) (xs : List Ink) : Prop :=
  isTerminated o.tail = true ∧ ¬ Terminated xs

theorem Output.EndsIn.remark_of_misjudges {o : Output} {xs : List Ink} (h : o.EndsIn xs)
    (hmisjudges : o.Misjudges xs) : ∃ c, last? xs = some (.remark c) ∧ c.LooksTerminated :=
  (h.terminated_or_remark hmisjudges.1).resolve_left hmisjudges.2

namespace Script

variable {h : Bool} {α β γ : Type}

theorem bind_assoc (m : Script h α) (f : α → Script h β) (g : β → Script h γ) :
    m >>= f >>= g = m >>= fun a => f a >>= g := by
  change (m.bind f).bind g = m.bind fun a => (f a).bind g
  induction m with
  | pure a => rfl
  | fail failure => rfl
  | ask q next ih => simp only [Script.bind, ih]
  | act x next ih => simp only [Script.bind, ih]
  | separate next ih => simp only [Script.bind, ih]
  | within fr body next _ ih => simp only [Script.bind, ih]
  | head body next _ ih => simp only [Script.bind, ih]
  | function shape params body next _ _ ih => simp only [Script.bind, ih]

end Script

section Bodies

variable {env : EmitEnv} {n : Node} {visit : Visit n}

/-- A script is another one with the terminator after it; the other one ends in code if it does for
the operands. -/
def EndsStatement (env : EmitEnv) (n : Node) (visit : Visit n) (m : EmitM Unit) : Prop :=
  ∃ body : EmitM Unit, m = (body >>= fun _ => ensureTerminator) ∧
    (n.LastWords → (∀ p c, n.Holds p.node → p.node.kind.isExpression = true →
      (visit p c).Settles env) → body.Settles env)

theorem endsStatement_expressionStatement (hkind : n.kind = .expressionStatement)
    (hchildren : n.children ≠ []) (hdirective : n.isStrictDirective = false) :
    EndsStatement env n visit (expressionStatement n visit) := by
  cases hparts : n.parts with
  | nil =>
    rw [← Node.map_node_parts, hparts] at hchildren
    exact absurd rfl hchildren
  | cons e rest =>
    refine ⟨visit e { place := .statement }, ?_, fun hn hv => ?_⟩
    · simp [expressionStatement, hparts, hdirective]
    · have hself := hn.self
      simp only [Node.hasLastWord, hkind] at hself
      have hfirst : n.parts.head? = some e := by simp [hparts]
      exact hv e _ (.of_head? hfirst) (Node.isExpression_of_head? hself hfirst)

theorem endsStatement_returnStatement (hkind : n.kind = .returnStatement) :
    EndsStatement env n visit (returnStatement n visit) := by
  unfold returnStatement
  cases hparts : n.parts with
  | nil => exact ⟨emit "return", rfl, fun _ _ => settles_emit (by decide)⟩
  | cons value rest =>
    refine ⟨emit "return" >>= fun _ => emit " " >>= fun _ => visit value {}, ?_, fun hn hv => ?_⟩
    · simp only [bind_assoc]
    · have hself := hn.self
      simp only [Node.hasLastWord, hkind] at hself
      have hfirst : n.parts.head? = some value := by simp [hparts]
      exact .right fun _ => .right fun _ =>
        hv value _ (.of_head? hfirst) (Node.isExpression_of_head? hself hfirst)

theorem endsStatement_throwStatement (hkind : n.kind = .throwStatement) :
    EndsStatement env n visit (throwStatement n visit) := by
  refine ⟨emit "throw " >>= fun _ => needFirst n >>= fun p => visit p {}, ?_, fun hn hv => ?_⟩
  · simp only [throwStatement, bind_assoc]
  · have hself := hn.self
    simp only [Node.hasLastWord, hkind] at hself
    exact .right fun _ => settles_first hv hself

theorem endsStatement_doStatement : EndsStatement env n visit (doStatement n visit) := by
  refine ⟨emit "do " >>= fun _ => need n .body >>= fun body => bracedBody visit body >>= fun _ =>
    emit " while " >>= fun _ => need n .condition >>= fun test => condition visit test,
    ?_, fun _ _ => ?_⟩
  · simp only [doStatement, bind_assoc]
  · exact .right fun _ => .right fun _ => .right fun _ => .right fun _ => .right fun _ =>
      settles_block (by decide) (by decide)

theorem endsStatement_declarator (hkind : n.kind = .variableDeclarator) {context : Context}
    (hplace : context.place ≠ .declarator true) :
    EndsStatement env n visit (declarator n visit context) := by
  unfold declarator
  cases hvalue : n.part? .value with
  | none =>
    refine ⟨register n >>= fun _ => need n .name >>= fun name => visit name {} >>= fun _ =>
      emit " = null", ?_, fun _ _ => ?_⟩
    · simp only [hplace, if_false, bind_assoc]
    · exact .right fun _ => .right fun _ => .right fun _ => settles_emit (by decide)
  | some value =>
    refine ⟨register n >>= fun _ => need n .name >>= fun name => visit name {} >>= fun _ =>
      emit " = " >>= fun _ => visit value { place := .boundTo (variableName? name.node) },
      ?_, fun hn hv => ?_⟩
    · simp only [bind_assoc]
    · have hself := hn.self
      simp only [Node.hasLastWord, hkind] at hself
      exact .right fun _ => .right fun _ => .right fun _ => .right fun _ =>
        hv value _ (.of_part? hvalue) (Node.isExpression_of_part? hself hvalue)

theorem endsStatement_rule {rule : Rule} {context : Context}
    (hn : n.isSimple context.place = true) (hrule : rule? n.kind = some rule) :
    EndsStatement env n visit (rule n visit context) := by
  cases hkind : n.kind
  all_goals simp only [Node.isSimple, hkind, Bool.false_eq_true] at hn
  all_goals rw [hkind] at hrule; cases hrule
  case expressionStatement =>
    simp only [Bool.and_eq_true, Bool.not_eq_true', List.isEmpty_eq_false_iff] at hn
    exact endsStatement_expressionStatement hkind hn.1 hn.2
  case returnStatement => exact endsStatement_returnStatement hkind
  case throwStatement => exact endsStatement_throwStatement hkind
  case doStatement => exact endsStatement_doStatement
  case variableDeclarator => exact endsStatement_declarator hkind (of_decide_eq_true hn)

end Bodies

section Frames

variable {n : Node} {wrapped : Bool} {o : Output}

theorem shownCode_nodeOpening (h : (wrapped && !n.isSynthetic) = false) :
    shownCode (o.nodeOpening wrapped n) = [] := by
  rw [nodeOpening, h]
  simp

theorem shownCode_nodeClosing :
    shownCode (o.nodeClosing wrapped n) = if wrapped && !n.isSynthetic then [')'] else [] := by
  rw [nodeClosing]
  split
  · simp [visibleCode, hard_cons_of_hard (show isSoft ')' = false by decide)]
  · simp

/-- A frame with a terminator at its end is terminated, unless parentheses follow or the check for
the terminator is misled. -/
theorem terminated_around_iff {parens : Parens} {body : EmitM Unit} {env : EmitEnv}
    {s v : EmitState}
    (hrun : body.run env ((Frame.node n (parens.wraps env.tokens n)).enter s) = .ok () v) :
    Terminated ((around n parens (body >>= fun _ => ensureTerminator)).inks env s) ↔
      (parens.wraps env.tokens n && !n.isSynthetic) = false ∧ ¬ v.output.Misjudges
        (body.inks env ((Frame.node n (parens.wraps env.tokens n)).enter s)) := by
  have hbody := runs_of_run hrun
  have hboth := hbody.bind (f := fun _ => ensureTerminator) (.act (.pure () _))
  set wrapped := parens.wraps env.tokens n
  set ys := body.inks env ((Frame.node n wrapped).enter s)
  have hinks : (around n parens (body >>= fun _ => ensureTerminator)).inks env s =
      s.output.nodeOpening wrapped n ++ ((ys ++ Edit.inks v.output .terminator) ++
        v.output.ensureTerminator.nodeClosing wrapped n) := by
    change (EmitM.within (.node n wrapped) _).inks env s = _
    rw [hboth.inks_within, hbody.inks_bind]
    have hterminator : (ensureTerminator : EmitM Unit).inks env v =
        Edit.inks v.output .terminator := List.append_nil _
    rw [hterminator]
    rfl
  rw [hinks, Terminated]
  simp only [shownCode_append, shownCode_nodeClosing]
  by_cases hwrapped : (wrapped && !n.isSynthetic) = true
  · simp [hwrapped]
  · rw [Bool.not_eq_true] at hwrapped
    rw [shownCode_nodeOpening hwrapped, hwrapped, Misjudges, Terminated, Edit.inks]
    by_cases hterminated : isTerminated v.output.tail = true
    · simp [hterminated]
    · simp [hterminated, visibleCode, hard_cons_of_hard (show isSoft ';' = false by decide)]

end Frames

/-- The code of a simple statement ends in a terminator exactly if the statement stands in no
parentheses and the check for the terminator, made when all else of the statement is written, is not
misled. In a tree of the grammar, only a line comment with a semicolon last can mislead it, and the
end of the output shows what was written for the statement. -/
theorem simple_statements_terminated {n : Node} {context : Context}
    (hn : n.isSimple context.place = true) {env : EmitEnv} {s t : EmitState}
    (hrun : (emitNode n context).run env s = .ok () t) :
    ∃ (body : EmitM Unit) (v : EmitState),
      let wrapped := context.parens.wraps env.tokens n
      let written := body.inks env ((Frame.node n wrapped).enter s)
      emitNode n context = around n context.parens (body >>= fun _ => ensureTerminator) ∧
      body.run env ((Frame.node n wrapped).enter s) = .ok () v ∧
      (Terminated ((emitNode n context).inks env s) ↔
        (wrapped && !n.isSynthetic) = false ∧ ¬ v.output.Misjudges written) ∧
      (n.LastWords →
        t.output.EndsIn ((emitNode n context).inks env s) ∧
        (v.output.Misjudges written →
          ∃ c, last? written = some (.remark c) ∧ c.LooksTerminated)) := by
  obtain ⟨rule, hrule⟩ : ∃ rule, rule? n.kind = some rule := by
    cases hrule : rule? n.kind with
    | none =>
      rw [emitNode, hrule] at hrun
      cases hrun
    | some rule => exact ⟨rule, rfl⟩
  obtain ⟨body, hbody, hsettles⟩ :=
    @endsStatement_rule env n (fun p c => emitNode p.node c) rule context hn hrule
  have hemit : emitNode n context =
      around n context.parens (body >>= fun _ => ensureTerminator) := by
    rw [emitNode, hrule, ← hbody]
  have hr := runs_of_run hrun
  rw [hemit] at hr
  obtain ⟨u, _, hboth, ht, -⟩ := hr.of_ask_bind.of_within
  obtain ⟨_, v, _, _, hparts, -, -⟩ := hboth.of_bind
  have hparts := hparts.run_eq.1
  refine ⟨body, v, hemit, hparts, ?_, fun hwords => ?_⟩
  · rw [hemit]
    exact terminated_around_iff hparts
  · have hbodySettles := hsettles hwords fun p c hp hkind =>
      settles_emitNode (hwords.held hp) hkind c
    refine ⟨?_, fun hmisjudges => ?_⟩
    · have hframe : (emitNode n context).Settles env := by
        rw [hemit]
        exact settles_around (hbodySettles.left fun _ => retains_ensureTerminator)
      exact hframe _ _ _ _ (runs_of_run hrun)
    · exact (hbodySettles _ _ _ _ (runs_of_run hparts)).remark_of_misjudges hmisjudges

namespace Script.Result

def succeeds {α : Type} : Result α → Bool
  | .ok _ _ => true
  | .error _ _ => false

theorem exists_of_succeeds {r : Result Unit} (h : r.succeeds = true) : ∃ t, r = .ok () t := by
  cases r with
  | ok _ t => exact ⟨t, rfl⟩
  | error _ _ => cases h

end Script.Result

/-- A variable as a statement, with a comment before the terminator, which is on the next line. -/
def Node.commentedStatement : Node :=
  { kind := .expressionStatement
    location := ⟨⟨1, 0⟩, ⟨2, 1⟩⟩
    children := [{
      kind := .identifier
      location := ⟨⟨1, 0⟩, ⟨1, 1⟩⟩
      text := "x"
      trailing := [⟨0, .line, " foo;", ⟨⟨1, 2⟩, ⟨1, 9⟩⟩⟩] }] }

open Node EmitEnv EmitState in
/-- Nothing is written after the comment, which looks like the end of the statement. -/
theorem simple_statements_terminated_commented :
    commentedStatement.LastWords ∧ ∃ t,
      (emitNode commentedStatement {}).run blank initial = .ok () t ∧
      t.output.EndsIn ((emitNode commentedStatement {}).inks blank initial) ∧
      ¬ Terminated ((emitNode commentedStatement {}).inks blank initial) ∧
      ∃ (body : EmitM Unit) (v : EmitState) (c : Comment),
        body.run blank ((Frame.node commentedStatement false).enter initial) = .ok () v ∧
        isTerminated v.output.tail = true ∧
        last? (body.inks blank ((Frame.node commentedStatement false).enter initial)) =
          some (.remark c) ∧ c.LooksTerminated := by
  have hwords : commentedStatement.LastWords := by decide +kernel
  have hopen : ¬ Terminated ((emitNode commentedStatement {}).inks blank initial) := by
    decide +kernel
  have hwraps : Parens.wraps .asSource blank.tokens commentedStatement = false := by
    decide +kernel
  obtain ⟨t, ht⟩ : ∃ t, (emitNode commentedStatement {}).run blank initial = .ok () t := by
    have hsucceeds : ((emitNode commentedStatement {}).run blank initial).succeeds = true := by
      decide +kernel
    exact Result.exists_of_succeeds hsucceeds
  obtain ⟨body, v, -, hbody, hiff, hgrammar⟩ :=
    @simple_statements_terminated commentedStatement {} rfl blank initial t ht
  obtain ⟨hends, hremark⟩ := hgrammar hwords
  simp only [hwraps] at hbody hiff hremark
  have hmisjudges := by_contra fun h => hopen (hiff.mpr ⟨rfl, h⟩)
  obtain ⟨c, hlast, hlooks⟩ := hremark hmisjudges
  exact ⟨hwords, t, ht, hends, hopen, body, v, c, hbody, hmisjudges.1, hlast, hlooks⟩

end EcmaPhp
