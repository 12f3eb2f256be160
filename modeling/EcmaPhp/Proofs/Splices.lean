import EcmaPhp.Program
import EcmaPhp.Proofs.Script.Written
import EcmaPhp.Proofs.Source.Leaves

/-! How the text of a program begins, and where the captures of its functions stand in it. -/
namespace EcmaPhp
open Output Script EmitM

/-- What the text of every program begins with. -/
def Options.header (options : Options) : String :=
  "<?php\n" ++
    (match options.watermark? with
      | some text => "/* " ++ text ++ " */\n"
      | none => "") ++
    match options.namespace? with
    | some name => "namespace " ++ name ++ ";\n"
    | none => ""

/-- What the emission of a program knows. -/
def emissionEnv (options : Options) (source : String) (tree : Concrete) : EmitEnv :=
  { options, tokens := .ofTree (Text.Utf8.encode source.toList) tree }

/-- The steps of the emission of a program. -/
def emissionSteps (options : Options) (source : String) (tree : Concrete) : List Step :=
  (emitProgram (.ofConcrete (Text.Utf8.encode source.toList) tree)).steps
    (emissionEnv options source tree) {}

theorem runs_of_toPhp {options : Options} {source text : String} {tree : Concrete}
    (h : (toPhp options source tree).result = .ok text) :
    ∃ t, Runs (emissionEnv options source tree)
        (emitProgram (.ofConcrete (Text.Utf8.encode source.toList) tree)) {} () t
        (emissionSteps options source tree) ∧
      text.toList = t.output.text := by
  cases hfault : tree.failure? (Text.Utf8.encode source.toList) with
  | some failure => simp [toPhp, parse, hfault] at h
  | none =>
    have hparse : parse sourceLanguage source tree =
        .ok (.ofConcrete (Text.Utf8.encode source.toList) tree) := by simp [parse, hfault]
    simp only [toPhp, hparse, emitTree] at h
    split at h
    · rename_i t hrun
      exact ⟨t, runs_of_run hrun, by simp [← Except.ok.inj h]⟩
    · cases h

/-- The root of a program has no comments before it. -/
theorem ofConcrete_program (bytes : List UInt8) {tree : Concrete} (h : tree.kind = "program") :
    (Node.ofConcrete bytes tree).kind = .program ∧ (Node.ofConcrete bytes tree).leading = [] := by
  cases tree
  subst h
  exact ⟨rfl, rfl⟩

/-- A start of the text that is there before a script stays, if there are no points yet. -/
theorem prefix_of_runs {env : EmitEnv} {α : Type} {m : EmitM α} {s t : EmitState} {a : α}
    {xs : List Step} {pre : List Char} (hr : Runs env m s a t xs) (hs : EndsSolid false pre)
    (hpre : pre <+: s.output.text) (hpoints : s.output.points = [])
    (hplace : ∀ x ∈ xs, x.InPlace env) : pre <+: t.output.text := by
  have hready : Ready pre xs s.output := .inl fun x _ => hpoints ▸ x.not_puts_zero
  exact (hr.held (.of_isPrefix hs hpre) hplace hready).anchored.isPrefix

theorem namespaceLine_output (o : Output) (name : String) (hindent : o.indent = 0) :
    (o.emit s!"namespace {name};").breakLine.text =
      o.text ++ ("namespace " ++ name ++ ";\n").toList := by
  let line := o.emit ("namespace " ++ name ++ ";")
  have hline : line.text = o.text ++ ("namespace " ++ name).toList ++ [';'] := by simp [line]
  have hindent : line.indentation = [] := by
    have : line.indent = o.indent := by
      simp only [line, Output.emit, Output.emitChars]
      split <;> rfl
    simp [indentation, this, hindent]
  have hs : EndsSolid false line.text := ⟨_, ';', hline, by decide, by simp⟩
  change line.newline.text = _
  rw [hs.text_newline, hindent, hline]
  simp

/-- A program begins with its namespace. -/
theorem prefix_of_emitNode {env : EmitEnv} {root : Node} {s t : EmitState} {xs : List Step}
    (hr : Runs env (emitNode root {}) s () t xs) (hkind : root.kind = .program)
    (hleading : root.leading = []) (hs : EndsSolid false s.output.text)
    (hpoints : s.output.points = []) (hindent : s.output.indent = 0)
    (hplace : ∀ x ∈ xs, x.InPlace env) :
    s.output.text ++ (match env.options.namespace? with
      | some name => "namespace " ++ name ++ ";\n"
      | none => "").toList <+: t.output.text := by
  rw [emitNode, hkind] at hr
  simp only [rule?] at hr
  obtain ⟨_, s₁, xs₁, ys₁, htokens, hframe, rfl⟩ := hr.of_bind
  obtain ⟨rfl, rfl, rfl⟩ := htokens.of_ask
  obtain ⟨u, ys, hprogram, rfl, rfl⟩ := hframe.of_within
  obtain ⟨v, zs, hbody, rfl, rfl⟩ := hprogram.of_within
  obtain ⟨_, s₂, xs₂, ys₂, hoptions, hrest, rfl⟩ := hbody.of_bind
  obtain ⟨rfl, rfl, rfl⟩ := hoptions.of_ask
  have henter : ((Frame.scope .program).enter
      ((Frame.node root (Parens.asSource.wraps env.tokens root)).enter s)).output = s.output := by
    change s.output.beginNode _ root = s.output
    simp [beginNode, hleading, hkind, emitComments]
  -- What is there once the namespace is written stays until the end.
  have hexit {pre : List Char} (hs : EndsSolid false pre) (hpre : pre <+: v.output.text) :
      pre <+: (Frame.exit (.node root (Parens.asSource.wraps env.tokens root)) s
        (Frame.exit (.scope .program) s v)).output.text :=
    ((grows_endNode v.output _ root).revises.prefix_stays hs hpre).1
  have hplace : ∀ x ∈ ys₂, x.InPlace env := fun x hx => hplace x (by simp [hx])
  cases hname : env.options.namespace? with
  | none =>
    simp only [Query.answer, hname] at hrest
    refine hexit (by simpa using hs) (prefix_of_runs hrest ?_ ?_ ?_ hplace)
    · simpa using hs
    · simp [henter]
    · rw [henter]
      exact hpoints
  | some name =>
    simp only [Query.answer, hname] at hrest
    obtain ⟨_, s₃, xs₃, ys₃, hemit, hrest₃, rfl⟩ := hrest.of_bind
    obtain ⟨rfl, rfl⟩ := hemit.of_act
    obtain ⟨_, s₄, xs₄, ys₄, hbreak, hrest₄, rfl⟩ := hrest₃.of_bind
    obtain ⟨rfl, rfl⟩ := hbreak.of_act
    have hstart := namespaceLine_output s.output name hindent
    have hsolid : EndsSolid false (s.output.text ++ ("namespace " ++ name ++ ";\n").toList) :=
      ⟨s.output.text ++ ("namespace " ++ name ++ ";").toList, '\n', by simp, by decide, by simp⟩
    refine hexit hsolid (prefix_of_runs hrest₄ hsolid ?_ ?_ fun x hx => hplace x (by simp [hx]))
    · rw [← hstart, ← henter]
      exact List.prefix_refl _
    · exact ((Grows.emitChars _ _).trans (grows_breakLine _)).revises.points_eq_nil (henter ▸ hpoints)

/-- The text of a program begins with its header. -/
theorem prefix_of_emitProgram {env : EmitEnv} {root : Node} {t : EmitState} {xs : List Step}
    (hr : Runs env (emitProgram root) {} () t xs) (hkind : root.kind = .program)
    (hleading : root.leading = []) (hplace : ∀ x ∈ xs, x.InPlace env) :
    env.options.header.toList <+: t.output.text := by
  rw [emitProgram] at hr
  obtain ⟨_, s₁, xs₁, ys₁, htag, hrest₁, rfl⟩ := hr.of_bind
  obtain ⟨rfl, rfl⟩ := htag.of_act
  obtain ⟨_, s₂, xs₂, ys₂, hoptions, hrest₂, rfl⟩ := hrest₁.of_bind
  obtain ⟨rfl, rfl, rfl⟩ := hoptions.of_ask
  have hplace : ∀ x ∈ ys₂, x.InPlace env := fun x hx => hplace x (by simp [hx])
  rw [Options.header, String.toList_append]
  cases hmark : env.options.watermark? with
  | none =>
    simp only [Query.answer, hmark] at hrest₂
    exact prefix_of_emitNode hrest₂ hkind hleading
      ⟨"<?php".toList, '\n', rfl, by decide, by simp⟩ rfl rfl
      hplace
  | some text =>
    simp only [Query.answer, hmark] at hrest₂
    obtain ⟨_, s₃, xs₃, ys₃, hemit, hrest₃, rfl⟩ := hrest₂.of_bind
    obtain ⟨rfl, rfl⟩ := hemit.of_act
    let start := (({} : Output).emit "<?php\n").emit ("/* " ++ text ++ " */\n")
    have hstart : start.text = ("<?php\n" ++ ("/* " ++ text ++ " */\n")).toList := by
      have hempty : ({} : Output).text = [] := rfl
      simp [start, hempty]
    have hpoints : start.points = [] := by simp [start]
    have hindent : start.indent = 0 := by
      simp only [start, Output.emit, Output.emitChars]
      split <;> rfl
    have hsolid : EndsSolid false start.text :=
      ⟨("<?php\n" ++ ("/* " ++ text ++ " */")).toList, '\n', by simp [hstart], by decide, by simp⟩
    have hprefix := prefix_of_emitNode hrest₃ hkind hleading hsolid hpoints hindent
      fun x hx => hplace x (List.mem_append_right _ hx)
    exact hstart ▸ hprefix

/-- The text of a program begins with its header, and each of its functions stands in it in one
piece: the end of its signature, its `use` clause, its brace and its `global` statements, with
nothing between them. This needs that no text is put at a point that a separation has moved. -/
theorem captures_at_brace (options : Options) (source text : String) (tree : Concrete)
    (hroot : tree.kind = "program") (htext : (toPhp options source tree).result = .ok text)
    (hplace : ∀ x ∈ emissionSteps options source tree,
      x.InPlace (emissionEnv options source tree)) :
    options.header.toList <+: text.toList ∧
      ∀ r, .function r ∈ emissionSteps options source tree → ∃ inside front back,
        (r.shape.exit r.brace r.stop).output.text = r.brace.output.text ++ r.written inside ∧
          r.brace.output.text.Sublist front ∧ text.toList = front ++ r.written inside ++ back := by
  obtain ⟨t, hr, htext⟩ := runs_of_toPhp htext
  obtain ⟨hkind, hleading⟩ := ofConcrete_program (Text.Utf8.encode source.toList) hroot
  rw [htext]
  have hheader := prefix_of_emitProgram hr hkind hleading hplace
  refine ⟨hheader, fun r hmem => ?_⟩
  obtain ⟨inside, front, hexit, hsub, hc⟩ := hr.stands hplace (by simp [Bounded]) hmem
  obtain ⟨back, hback⟩ := hc.text
  exact ⟨inside, front, back, hexit, hsub, hback.symm⟩

instance (result : Except Failure String) (text : String) : Decidable (result = .ok text) :=
  match result with
  | .ok other => decidable_of_iff (other = text) (by simp)
  | .error _ => isFalse (by simp)

open Concrete in
/-- A variable and a function that reads it. -/
def readerTree : Concrete :=
  branch "program" 0 37 none
    [branch "variable_declaration" 0 10 none
      [token "var" 0 3,
        branch "variable_declarator" 4 9 none
          [branch "identifier" 4 5 (some "name") [], token "=" 6 7,
            branch "number" 8 9 (some "value") []],
        token ";" 9 10],
      branch "function_declaration" 11 37 none
        [token "function" 11 19, branch "identifier" 20 21 (some "name") [],
          branch "formal_parameters" 21 23 (some "parameters") [token "(" 21 22, token ")" 22 23],
          branch "statement_block" 24 37 (some "body")
            [token "\x7b" 24 25,
              branch "return_statement" 26 35 none
                [token "return" 26 32, branch "identifier" 33 34 none [], token ";" 34 35],
              token "\x7d" 36 37]]]

def readerSource : String := "var x = 1;\nfunction f() \x7b return x; \x7d"

def readerText : String := "<?php\n$x = 1;\nfunction f() \x7b global $x; return $x; \x7d"

theorem captures_at_brace_reader :
    (toPhp {} readerSource readerTree).result = .ok readerText ∧
      "<?php\n".toList <+: readerText.toList ∧
      ∀ r, .function r ∈ emissionSteps {} readerSource readerTree → ∃ inside front back,
        (r.shape.exit r.brace r.stop).output.text = r.brace.output.text ++ r.written inside ∧
          r.brace.output.text.Sublist front ∧
          readerText.toList = front ++ r.written inside ++ back := by
  have htext : (toPhp {} readerSource readerTree).result = .ok readerText := by decide +kernel
  exact ⟨htext,
    captures_at_brace {} readerSource readerText readerTree rfl htext (by decide +kernel)⟩

end EcmaPhp
