import EcmaPhp.Emit.Rules
import EcmaPhp.Proofs.Output.Insertion
import EcmaPhp.Proofs.Output.Writing
import EcmaPhp.Proofs.Script.Scopes

/-! Whatever a run opens, it closes again: indentation, insertion points, scopes and the fields of
classes. -/
namespace EcmaPhp
open Output Script

namespace Output

/-- The indentation and the number of points change by this much, and no line is taken back. -/
structure Shifts (indent height : Int) (o o' : Output) : Prop where
  indent : o'.indent = o.indent + indent
  height : (o'.points.length : Int) = o.points.length + height
  line : o.line ≤ o'.line

namespace Shifts

variable {i j k l : Int} {o o' o'' : Output}

theorem refl (o : Output) : Shifts 0 0 o o := ⟨by omega, by omega, by omega⟩

theorem trans (h : Shifts i k o o') (h' : Shifts j l o' o'') : Shifts (i + j) (k + l) o o'' := by
  have hindent := h.indent
  have hindent' := h'.indent
  have hheight := h.height
  have hheight' := h'.height
  have hline := h.line
  have hline' := h'.line
  constructor <;> omega

theorem of_writes {w : Writing} (h : Writes w i o o') : Shifts i 0 o o' := by
  have hheight := h.length_points
  exact ⟨h.indent, by omega, h.line_le⟩

theorem pushPoint (o : Output) : Shifts 0 1 o o.pushPoint := by
  constructor <;> simp [Output.pushPoint]

theorem popPoint (h : 0 < o.points.length) : Shifts 0 (-1) o o.popPoint := by
  constructor
  · simp [Output.popPoint]
  · simp only [points_popPoint, List.length_drop]
    omega
  · simp [Output.popPoint]

theorem insertAt (o : Output) (depth : Nat) (cs : List Char) :
    Shifts 0 0 o (o.insertAt depth cs) := by
  have hmoved (size : Nat) : (o.movedPoints depth size).length = o.points.length := by
    unfold movedPoints
    dsimp only
    split
    · simp only [List.length_append, List.length_map, List.length_take, List.length_drop]
      omega
    · simp only [List.length_append, List.length_map, List.length_take, List.length_drop]
      omega
  unfold Output.insertAt
  split
  · exact .refl o
  · exact .refl o
  · constructor
    · simp
    · simp [hmoved]
    · dsimp only
      omega

/-- A separation writes the end of the text anew. -/
theorem separation (o : Output) : Shifts 0 0 o o.terminatorToSeparator := by
  unfold terminatorToSeparator
  split
  · have hdropped : Shifts 0 0 o (o.dropTail o.tail.length) := by
      constructor <;> simp [dropTail, clampPoints]
    exact hdropped.trans (of_writes (writes_emitChars _ _))
  · exact .refl o

theorem openBraces (o : Output) (shape : FunctionShape) : Shifts 1 2 o (o.openBraces shape) := by
  have hsigned := of_writes (writes_emit o shape.signature.text)
  have hbrace := (hsigned.trans (pushPoint _)).trans (of_writes (writes_openBlock _ "\x7b"))
  have hopened := hbrace.trans (pushPoint _)
  unfold Output.openBraces
  dsimp only
  split
  · exact hopened.trans (of_writes (writes_emit _ " "))
  · exact hopened

theorem closeBraces (shape : FunctionShape) (names : List String) (firstLine : Int)
    (h : 2 ≤ o.points.length) : Shifts (-1) (-2) o (o.closeBraces shape names firstLine) := by
  have hput (multiline : Bool) :
      Shifts 0 0 o (o.insertCaptures shape.form names multiline) :=
    (insertAt o 1 _).trans (insertAt _ 0 _)
  have hheight := (hput (o.line != firstLine)).height
  have hpopped := (hput (o.line != firstLine)).trans (popPoint (by omega))
  have hpopped' := hpopped.trans (popPoint (by have := hpopped.height; omega))
  exact hpopped'.trans (of_writes (writes_closeInline _ _ _ _))

end Shifts
end Output

namespace Edit

/-- An edit leaves the indentation and the number of points alone. -/
theorem shifts_apply (e : Edit) (o : Output) : Shifts 0 0 o (e.apply o) := by
  cases e with
  | text cs => exact .of_writes (writes_emitChars o cs)
  | verbatim cs => exact .of_writes (writes_emitVerbatim o cs)
  | newline => exact .of_writes (writes_newline o)
  | ensureNewline => exact .of_writes (writes_ensureNewline o)
  | breakLine => exact .of_writes (writes_breakLine o)
  | realign sourceLine => exact .of_writes (writes_realign o sourceLine)
  | terminator => exact .of_writes (writes_ensureTerminator o)
  | comments cs => exact .of_writes (writes_emitComments o cs)
  | mark cs => exact .of_writes (writes_markWritten o cs)
  | insert cs => exact .insertAt o 0 cs

end Edit

/-- All that was opened since `s` is closed in `t`, the scopes are those that were there, each with
its kind and its names, and no line is taken back. -/
structure EmitState.Restored (s t : EmitState) : Prop where
  indent : t.output.indent = s.output.indent
  points : t.output.points.length = s.output.points.length
  scopes : s.scopes.Evolves t.scopes
  declared : t.declared.length = s.declared.length
  line : s.output.line ≤ t.output.line

namespace Action

theorem shifts_apply (x : Action) (s : EmitState) : Shifts 0 0 s.output (x.apply s).output := by
  cases x with
  | edit e => exact e.shifts_apply s.output
  | register n => exact .refl _
  | refer n => exact .refl _
  | learnField key =>
    unfold Action.apply EmitState.learnField
    dsimp only
    split <;> exact .refl _
  | note e => exact .refl _

theorem length_declared (x : Action) (s : EmitState) :
    (x.apply s).declared.length = s.declared.length := by
  cases x with
  | learnField key =>
    unfold Action.apply EmitState.learnField
    dsimp only
    split
    · rfl
    · rename_i h
      simp [h]
  | _ => rfl

end Action

namespace Frame

variable {s t : EmitState}

/-- What a frame opens in the output, it closes. -/
theorem shifts_exit (f : Frame) (h : Shifts 0 0 (f.enter s).output t.output) :
    Shifts 0 0 s.output (f.exit s t).output := by
  cases f with
  | node n wrapped =>
    have hbegun := Shifts.of_writes (writes_beginNode s.output wrapped n)
    exact (hbegun.trans h).trans (.of_writes (writes_endNode t.output wrapped n))
  | indent =>
    have hdeeper := Shifts.of_writes (writes_increaseIndent s.output)
    exact (hdeeper.trans h).trans (.of_writes (writes_decreaseIndent t.output))
  | block opening inline closing =>
    have hopened := Shifts.of_writes (writes_openBlock s.output opening)
    exact (hopened.trans h).trans
      (.of_writes (writes_closeInline t.output s.output.line inline closing))
  | point =>
    have hpushed := (Shifts.pushPoint s.output).trans h
    have hheight := hpushed.height
    exact hpushed.trans (.popPoint (by omega))
  | scope kind => exact h
  | fields keys => exact h
  | unsourced => exact h.trans (.of_writes (writes_endUnsourced t.output s.output))

theorem length_declared_exit (f : Frame)
    (h : t.declared.length = (f.enter s).declared.length) :
    (f.exit s t).declared.length = s.declared.length := by
  cases f with
  | fields keys =>
    unfold Frame.enter at h
    unfold Frame.exit
    simp only [List.length_cons] at h
    simp only [List.length_drop]
    omega
  | _ => exact h

end Frame

namespace Script

variable {env : EmitEnv} {h : Bool} {α : Type} {m : Script h α} {s t : EmitState} {a : α}
  {xs : List Step}

/-- A run leaves the indentation and the number of points as they were. -/
theorem Runs.shifts (hr : Runs env m s a t xs) : Shifts 0 0 s.output t.output := by
  induction hr with
  | pure a s => exact .refl _
  | ask _ ih => exact ih
  | @act _ _ x _ s _ _ _ _ ih => exact (x.shifts_apply s).trans ih
  | @separate _ _ s _ _ _ _ ih => exact (Shifts.separation s.output).trans ih
  | @within _ _ _ f _ _ _ _ _ _ _ _ _ _ _ ihInner ihRest =>
    exact (f.shifts_exit ihInner).trans ihRest
  | head _ _ ihInner ihRest => exact (Frame.head.shifts_exit ihInner).trans ihRest
  | @function _ _ shape _ _ _ s _ u v _ _ _ _ _ _ _ ihFirst ihInner ihRest =>
    have hbody := (ihFirst.trans (Shifts.openBraces u.output shape)).trans ihInner
    have hheight := hbody.height
    have hclosed := hbody.trans
      (.closeBraces shape v.captures u.output.line (by omega))
    exact hclosed.trans ihRest

/-- A run leaves as many classes open as it found. -/
theorem Runs.length_declared (hr : Runs env m s a t xs) :
    t.declared.length = s.declared.length := by
  induction hr with
  | pure a s => rfl
  | ask _ ih => exact ih
  | @act _ _ x _ s _ _ _ _ ih => exact ih.trans (x.length_declared s)
  | separate _ ih => exact ih
  | @within _ _ _ f _ _ _ _ _ _ _ _ _ _ _ ihInner ihRest =>
    exact ihRest.trans (f.length_declared_exit ihInner)
  | head _ _ ihInner ihRest => exact ihRest.trans ihInner
  | function _ _ _ ihFirst ihInner ihRest => exact (ihRest.trans ihInner).trans ihFirst

theorem Runs.restored (hr : Runs env m s a t xs) : s.Restored t := by
  have hshifts := hr.shifts
  have hindent := hshifts.indent
  have hheight := hshifts.height
  exact ⟨by omega, by omega, hr.evolves, hr.length_declared, hshifts.line⟩

end Script

/-- A class whose constructor sets a field to a function, with a function that reads it. -/
def boxClass : Node :=
  let name (k : Kind) (f : Field) (text : String) : Node := { kind := k, field := some f, text }
  let returned (n : Node) : Node :=
    { kind := .statementBlock, field := some .body
      children := [{ kind := .returnStatement, children := [n] }] }
  let field : Node :=
    { kind := .memberExpression, field := some .left
      children := [name .thisValue .object "", name .propertyIdentifier .property "x"] }
  let reader : Node :=
    { kind := .functionExpression, field := some .right
      children := [returned { kind := .identifier, text := "y" }] }
  let constructor : Node :=
    { kind := .methodDefinition
      children := [name .propertyIdentifier .name "constructor",
        { kind := .statementBlock, field := some .body
          children := [{ kind := .expressionStatement
                         children := [{ kind := .assignmentExpression
                                        children := [field, reader] }] }] }] }
  let getter : Node :=
    { kind := .methodDefinition, tokens := ["get"]
      children := [name .propertyIdentifier .name "z", returned field] }
  { kind := .classDeclaration
    children := [name .identifier .name "Box",
      { kind := .classBody, field := some .body, children := [constructor, getter] }] }

def boxText : String :=
  "class Box \x7b\n\t\t\tpublic $x;public function __construct() \x7b global $y; " ++
    "$this->x = function () use (&$y) \x7b return $y; \x7d; \x7d\n\t\t\t" ++
    "public function __get($_property) \x7b\n\t\t\t\tif ($_property === 'z') \x7b\n" ++
    "\t\t\t\t\treturn $this->x;\n\t\t\t\t\x7d\n\t\t\t\x7d\n\t\t\x7d"

/-- Two variables for the head of a loop. -/
def pairDeclaration : Node :=
  let declarator (text : String) : Node :=
    { kind := .variableDeclarator
      children := [{ kind := .identifier, field := some .name, text },
        { kind := .number, field := some .value, text := "0" }] }
  { kind := .variableDeclaration, field := some .initializer
    children := [declarator "i", declarator "j"] }

def pairInitializer : Part { kind := .forStatement, children := [pairDeclaration] } :=
  ⟨pairDeclaration, Node.weight_lt_of_mem (List.mem_singleton_self _)⟩

/-- A place inside a class, in a program that has a variable. -/
def boxPlace : EmitState :=
  { output := { points := [0], indent := 2, line := 7 }
    scopes := [{ kind := .program, definitions := [("y", { kind := .identifier, text := "y" })] }]
    declared := [["this.a"]] }

/-- A run that gives a text, found by evaluating it. -/
theorem exists_ok_of_text {r : Script.Result Unit} {text : List Char}
    (h : (match r with
      | .ok _ t => decide (t.output.text = text)
      | .error _ _ => false) = true) :
    ∃ t, r = .ok () t ∧ t.output.text = text := by
  cases r with
  | ok a t => exact ⟨t, rfl, of_decide_eq_true h⟩
  | error failure t => cases h

end EcmaPhp
