import EcmaPhp.Proofs.Script.Written
import EcmaPhp.Proofs.Terminators
import EcmaPhp.Proofs.Tree.Positions
import Mathlib.Data.List.DropRight

/-! Arrays keep their positions: in the tree an element is the child that the commas before it count,
and in the output every child has a seat of its own, in order, with a comma between two seats. -/
namespace EcmaPhp
open Script EmitM Emit Output Ink

namespace Node

/-- The children that have a seat in the output: all children of an array, and those of a pattern up
to the last that is no hole. -/
def seats (n : Node) : List Node :=
  if n.kind = .arrayPattern then n.children.rdropWhile (·.kind = .elision) else n.children

/-- The delimiters of an array in the output. -/
def opener (n : Node) (options : Options) : String :=
  if n.kind = .arrayPattern then "[" else options.arrayOpen

@[inherit_doc opener]
def closer (n : Node) (options : Options) : String :=
  if n.kind = .arrayPattern then "]" else options.arrayClose

def seatContext (n : Node) : Context :=
  if n.kind = .arrayPattern then { place := .arrayPattern } else {}

/-- The script that emits an array between its delimiters. -/
def seatBlock (n : Node) (options : Options) (visit : Visit n) (parts : List (Part n)) :
    EmitM Unit :=
  block (n.opener options) (Emit.commaSeparated visit n.seatContext parts) (n.closer options)

theorem map_node_patternElements (n : Node) :
    (patternElements n).map (·.node) = n.children.rdropWhile (·.kind = .elision) := by
  rw [patternElements, List.rdropWhile, ← n.map_node_parts, ← List.map_reverse, List.dropWhile_map,
    List.map_reverse]
  rfl

/-- The rule for an array does what the block with its seats does. -/
theorem exists_seatBlock {n : Node} (hkind : n.kind.isArray = true) (visit : Visit n)
    (context : Context) :
    ∃ rule parts, rule? n.kind = some rule ∧ parts.map (·.node) = n.seats ∧ ∀ env s,
      (rule n visit context).run env s = (n.seatBlock env.options visit parts).run env s ∧
        (rule n visit context).steps env s = (n.seatBlock env.options visit parts).steps env s ∧
        (rule n visit context).inks env s = (n.seatBlock env.options visit parts).inks env s := by
  rw [seats]
  unfold seatBlock opener closer seatContext
  cases hn : n.kind with
  | array => exact ⟨_, n.parts, rfl, by simp, fun _ _ => ⟨rfl, rfl, rfl⟩⟩
  | arrayPattern =>
    exact ⟨_, patternElements n, rfl, n.map_node_patternElements, fun _ _ => ⟨rfl, rfl, rfl⟩⟩
  | _ => simp [hn, Kind.isArray] at hkind

end Node

/-- An element of a list, with the states before and after its emission. -/
structure Seat where
  node : Node
  start : EmitState
  stop : EmitState

/-- What the emission of an element writes. -/
def Seat.inks (env : EmitEnv) (context : Context) (x : Seat) : List Ink :=
  (emitNode x.node context).inks env x.start

/-- The elements are emitted one after another, with a comma between two. -/
inductive Seated (env : EmitEnv) (context : Context) : EmitState → List Seat → EmitState → Prop where
  | nil (s : EmitState) : Seated env context s [] s
  | last {x : Seat} (hx : (emitNode x.node context).run env x.start = .ok () x.stop) :
      Seated env context x.start [x] x.stop
  | cons {x y : Seat} {xs : List Seat} {t : EmitState}
      (hx : (emitNode x.node context).run env x.start = .ok () x.stop)
      (rest : Seated env context (x.stop.onOutput (·.emit ", ")) (y :: xs) t) :
      Seated env context x.start (x :: y :: xs) t

section Emission

variable {n : Node} {env : EmitEnv} {context : Context} {s t : EmitState} {xs : List Step}

/-- What is written for a list is what is written for its elements, with commas between. -/
theorem exists_seats {parts : List (Part n)}
    (hr : Runs env (Emit.commaSeparated (fun p c => emitNode p.node c) context parts) s () t xs) :
    ∃ seats, Seated env context s seats t ∧ seats.map (·.node) = parts.map (·.node) ∧
      (∀ x ∈ seats, (emitNode x.node context).steps env x.start ⊆ xs) ∧
      (Emit.commaSeparated (fun p c => emitNode p.node c) context parts).inks env s =
        [Ink.code ", ".toList].intercalate (seats.map (·.inks env context)) := by
  induction parts generalizing s xs with
  | nil =>
    obtain ⟨-, rfl, rfl⟩ := hr.of_pure
    exact ⟨[], .nil s, rfl, by simp, rfl⟩
  | cons p rest ih =>
    cases rest with
    | nil =>
      have hr : Runs env (emitNode p.node context) s () t xs := hr
      obtain ⟨hrun, hsteps⟩ := hr.run_eq
      refine ⟨[⟨p.node, s, t⟩], Seated.last (x := ⟨p.node, s, t⟩) hrun, rfl, by simp [hsteps], ?_⟩
      simp [Seat.inks, Emit.commaSeparated, separated]
    | cons q rest =>
      have hr : Runs env (emitNode p.node context >>= fun _ => emit ", " >>= fun _ =>
        Emit.commaSeparated (fun p c => emitNode p.node c) context (q :: rest)) s () t xs := hr
      obtain ⟨_, u, ys, zs, hfirst, hrest, rfl⟩ := hr.of_bind
      obtain ⟨ws, hothers, rfl⟩ := hrest.of_act_bind
      obtain ⟨seats, hseats, hnodes, hsteps, hinks⟩ := ih hothers
      obtain ⟨y, seats, rfl, -, -⟩ := List.map_eq_cons_iff.mp (hnodes.trans List.map_cons)
      obtain ⟨hrun, hfirstSteps⟩ := hfirst.run_eq
      refine ⟨⟨p.node, s, u⟩ :: y :: seats, Seated.cons (x := ⟨p.node, s, u⟩) hrun hseats, ?_, ?_, ?_⟩
      · rw [List.map_cons, hnodes]
        rfl
      · rw [List.forall_mem_cons]
        refine ⟨?_, fun x hx => ?_⟩
        · rw [hfirstSteps]
          exact List.subset_append_left ..
        · exact List.Subset.trans (hsteps x hx) fun z hz => by simp [hz]
      · calc (Emit.commaSeparated (fun p c => emitNode p.node c) context (p :: q :: rest)).inks env s
            = (emitNode p.node context).inks env s ++ (.code ", ".toList ::
                (Emit.commaSeparated (fun p c => emitNode p.node c) context (q :: rest)).inks env
                  ((Action.edit (.text ", ".toList)).apply u)) := hfirst.inks_bind _
          _ = _ := by
            rw [hinks]
            simp [Seat.inks, List.intercalate_cons_cons]

/-- A node without source adds no code to that of its rule. -/
theorem shownCode_around {body : EmitM Unit} {parens : Parens} (hn : n.isSynthetic = true)
    (hr : Runs env body ((Frame.node n (parens.wraps env.tokens n)).enter s) () t xs) :
    shownCode ((around n parens body).inks env s) =
      shownCode (body.inks env ((Frame.node n (parens.wraps env.tokens n)).enter s)) := by
  have hframe : (around n parens body).inks env s =
      (EmitM.within (.node n (parens.wraps env.tokens n)) body).inks env s := rfl
  rw [hframe, hr.inks_within]
  simp [Frame.inksBefore, Frame.inksAfter, nodeOpening, nodeClosing, hn]

/-- A hole is null in an array and nothing in a pattern. -/
theorem shownCode_hole {x : Seat} (hx : x.node.uncommented = Siblings.hole) :
    shownCode (x.inks env context) =
      if context.place = .arrayPattern then [] else "null".toList := by
  have hkind : x.node.kind = .elision := congrArg Node.kind hx
  have hsynthetic : x.node.isSynthetic = true := by
    have hlocation : x.node.location = .unknown := congrArg Node.location hx
    rw [Node.isSynthetic, hlocation]
    rfl
  rw [Seat.inks, emitNode, hkind]
  change shownCode ((around x.node context.parens (Emit.hole context)).inks env x.start) = _
  unfold Emit.hole
  split
  · exact shownCode_around hsynthetic (.pure () _)
  · exact shownCode_around hsynthetic (.act (.pure () _))

/-- The emission of an array: its opening delimiter, its seats and its closing delimiter, with the
comments and parentheses of the node around them. -/
theorem exists_seats_of_array (hkind : n.kind.isArray = true)
    (hr : Runs env (emitNode n context) s () t xs) :
    ∃ seats u,
      let wrapped := context.parens.wraps env.tokens n
      let before := (Frame.node n wrapped).enter s
      let after := (Frame.block (n.opener env.options) (n.closer env.options)
        (n.closer env.options)).exit before u
      seats.map (·.node) = n.seats ∧
      Seated env n.seatContext (before.onOutput (·.openBlock (n.opener env.options))) seats u ∧
      t = after.onOutput (·.endNode wrapped n) ∧
      (∀ x ∈ seats, (emitNode x.node n.seatContext).steps env x.start ⊆ xs) ∧
      (emitNode n context).inks env s = s.output.nodeOpening wrapped n ++
        (.code (n.opener env.options).toList ::
          ([.code ", ".toList].intercalate (seats.map (·.inks env n.seatContext)) ++
          [.code (n.closer env.options).toList])) ++ after.output.nodeClosing wrapped n := by
  obtain ⟨rule, parts, hrule, hparts, hsame⟩ :=
    Node.exists_seatBlock hkind (fun p c => emitNode p.node c) context
  rw [emitNode, hrule] at hr ⊢
  obtain ⟨v, ys, hrule, rfl, rfl⟩ := hr.of_ask_bind.of_within
  let before := (Frame.node n (context.parens.wraps env.tokens n)).enter s
  have hrule : Runs env (rule n (fun p c => emitNode p.node c) context) before () v ys := hrule
  obtain ⟨hrun, hsteps, hinks⟩ := hsame env before
  have hblock := runs_of_run (hrun.symm.trans hrule.run_eq.1)
  rw [← hsteps, hrule.run_eq.2] at hblock
  obtain ⟨u, zs, hlist, rfl, rfl⟩ := hblock.of_within
  obtain ⟨seats, hseats, hnodes, hsub, hseatInks⟩ := exists_seats hlist
  refine ⟨seats, u, hnodes.trans hparts, hseats, rfl, ?_, ?_⟩
  · exact fun x hx => List.Subset.trans (hsub x hx) fun z hz => by simp [hz]
  · have hnode := hrule.inks_within
    rw [hinks, Node.seatBlock, block, hlist.inks_within, hseatInks] at hnode
    refine hnode.trans ?_
    simp [Frame.inksBefore, Frame.inksAfter, before]

end Emission

section Texts

variable {env : EmitEnv} {context : Context} {s t : EmitState} {seats : List Seat}
  {front block : List Char}

theorem intercalate_concat (texts : List (List Char)) (last : List Char) :
    [','].intercalate (texts ++ [last]) = texts.flatMap (· ++ [',']) ++ last := by
  induction texts with
  | nil => simp
  | cons text rest ih =>
    cases rest with
    | nil => simp
    | cons next rest =>
      rw [List.cons_append, List.cons_append, List.intercalate_cons_cons, ← List.cons_append, ih]
      simp

theorem endsSolid_commas (hs : EndsSolid true block) (texts : List (List Char)) :
    EndsSolid true (block ++ texts.flatMap (· ++ [','])) := by
  rcases List.eq_nil_or_concat texts with rfl | ⟨texts, text, rfl⟩
  · simpa using hs
  · exact ⟨block ++ texts.flatMap (· ++ [',']) ++ text, ',', by simp, by decide, fun _ => by decide⟩

/-- Every text is that of its seat: at the end of an element, the output ends with the delimiter,
the texts of the seats before with their commas, and the text of its own seat, but for blanks. -/
def Filled (front block : List Char) (seats : List Seat) (texts : List (List Char)) : Prop :=
  ∀ i x text, seats[i]? = some x → texts[i]? = some text →
    ∃ before now, before.Sublist front ∧ hard now = hard text ∧
      x.stop.output.text = before ++ (block ++ (texts.take i).flatMap (· ++ [',']) ++ now)

theorem filled_nil {texts : List (List Char)} : Filled front block [] texts := by
  intro i x text hx
  simp at hx

/-- A seat before others, which have its text and a comma before them. -/
theorem Filled.cons {x : Seat} {before first : List Char} {texts : List (List Char)}
    (h : Filled front (block ++ first ++ [',']) seats texts) (hsub : before.Sublist front)
    (hx : x.stop.output.text = before ++ (block ++ first)) :
    Filled front block (x :: seats) (first :: texts) := by
  intro i y text hy htext
  cases i with
  | zero =>
    obtain rfl : x = y := by simpa using hy
    obtain rfl : first = text := by simpa using htext
    exact ⟨before, first, hsub, rfl, by simpa using hx⟩
  | succ i =>
    obtain ⟨before, now, hbefore, hnow, hy⟩ := h i y text (by simpa using hy) (by simpa using htext)
    exact ⟨before, now, hbefore, hnow, by simp [hy]⟩

theorem Filled.congr_last {texts : List (List Char)} {last last' : List Char}
    (h : Filled front block seats (texts ++ [last])) (hlast : hard last' = hard last) :
    Filled front block seats (texts ++ [last']) := by
  intro i x text hx htext
  rcases Nat.lt_or_ge i texts.length with hi | hi
  · rw [List.getElem?_append_left hi] at htext
    have hold := h i x text hx (by rwa [List.getElem?_append_left hi])
    rwa [List.take_append_of_le_length hi.le] at hold ⊢
  · rw [List.getElem?_append_right hi] at htext
    obtain ⟨hzero, rfl⟩ := List.getElem?_eq_some_iff.mp htext
    have hi : i = texts.length := by
      simp only [List.length_singleton] at hzero
      omega
    subst hi
    obtain ⟨before, now, hsub, hnow, htext⟩ := h texts.length x last hx (by simp)
    refine ⟨before, now, hsub, ?_, by simpa using htext⟩
    simpa [hlast] using hnow

/-- Behind an open delimiter the seats stand in order, with a comma between two. -/
theorem Seated.exists_texts (h : Seated env context s seats t) (hne : seats ≠ [])
    (hplace : ∀ x ∈ seats, ∀ y ∈ (emitNode x.node context).steps env x.start, y.InPlace env)
    (hs : EndsSolid true block) (hc : Contains front block s.output) :
    ∃ front' texts last, front.Sublist front' ∧ texts.length + 1 = seats.length ∧
      t.output.text = front' ++ (block ++ texts.flatMap (· ++ [',']) ++ last) ∧
      (∀ p ∈ t.output.points, p ≤ front'.length) ∧
      Filled front' block seats (texts ++ [last]) := by
  induction h generalizing front block with
  | nil => exact absurd rfl hne
  | @last x hx =>
    obtain ⟨front', hsub, hc'⟩ := (runs_of_run hx).keeps hs (hplace x (by simp)) front hc
    obtain ⟨last, hlast⟩ := hc'.text
    have htext : x.stop.output.text = front' ++ (block ++ last) := by simp [← hlast]
    exact ⟨front', [], last, hsub, rfl, by simpa using htext, hc'.points,
      filled_nil.cons (List.Sublist.refl front') htext⟩
  | @cons x y xs t hx rest ih =>
    obtain ⟨front', hsub, hc'⟩ := (runs_of_run hx).keeps hs (hplace x (by simp)) front hc
    obtain ⟨first, hfirst⟩ := hc'.text
    have hcomma : Contains front' (block ++ first ++ [',']) (x.stop.output.emit ", ") := by
      refine ⟨?_, by simpa using hc'.points⟩
      rw [text_emit, ← hfirst]
      exact ⟨[' '], by simp⟩
    have hsolid : EndsSolid true (block ++ first ++ [',']) :=
      ⟨block ++ first, ',', rfl, by decide, fun _ => by decide⟩
    obtain ⟨front'', texts, last, hsub', hlength, htext, hpoints, hfilled⟩ :=
      ih (by simp) (fun z hz => hplace z (by simp [hz])) hsolid hcomma
    exact ⟨front'', first :: texts, last, hsub.trans hsub', by simp [hlength], by simp [htext],
      hpoints, hfilled.cons hsub' (by simp [← hfirst])⟩

/-- A delimiter closes behind the text, which it leaves alone but for blanks. -/
theorem closeInline_same (o : Output) (firstLine : Int) (closing : String) :
    ∃ o₁, Revises o o₁ ∧
      (o.closeInline firstLine closing closing).text = o₁.text ++ closing.toList ∧
      (o.closeInline firstLine closing closing).points = o₁.points := by
  rw [closeInline, closeBlock]
  split
  · exact ⟨o.decreaseIndent, (grows_decreaseIndent o).revises, by simp, by simp⟩
  · exact ⟨o.ensureNewline.decreaseIndent,
      ((grows_ensureNewline o).trans (grows_decreaseIndent _)).revises, by simp, by simp⟩

/-- Once a delimiter closes them, the seats stand in one piece. -/
theorem exists_closed {o : Output} {texts : List (List Char)} {last : List Char}
    (hs : EndsSolid true block)
    (htext : o.text = front ++ (block ++ texts.flatMap (· ++ [',']) ++ last))
    (hpoints : ∀ p ∈ o.points, p ≤ front.length) (firstLine : Int) (closing : String) :
    ∃ last', hard last' = hard last ∧
      Contains front (block ++ [','].intercalate (texts ++ [last']) ++ closing.toList)
        (o.closeInline firstLine closing closing) := by
  obtain ⟨o₁, hrev, htext₁, hpoints₁⟩ := closeInline_same o firstLine closing
  have hsolid := (endsSolid_commas hs texts).append front
  obtain ⟨⟨last', hlast'⟩, hretreat⟩ :=
    hrev.prefix_stays hsolid ⟨last, by rw [htext]; simp only [List.append_assoc]⟩
  rw [← hlast'] at htext₁
  refine ⟨last', ?_, ?_, ?_⟩
  · -- blanks apart, closing only adds the delimiter
    have hinked := inked_closeInline o firstLine closing closing
    rw [Inked, htext₁, htext] at hinked
    simpa [visible] using hinked
  · rw [htext₁, intercalate_concat]
    exact ⟨[], by simp⟩
  · rw [hpoints₁]
    exact (hretreat.mono (Nat.zero_le _)).le_of_forall_le hpoints

theorem Node.endsSolid_opener (n : Node) (options : Options) :
    EndsSolid true (n.opener options).toList := by
  unfold opener Options.arrayOpen
  split
  · exact ⟨[], '[', rfl, by decide, fun _ => by decide⟩
  · split
    · exact ⟨[], '[', rfl, by decide, fun _ => by decide⟩
    · exact ⟨"array".toList, '(', rfl, by decide, fun _ => by decide⟩

theorem Node.endsSolid_closer (n : Node) (options : Options) :
    EndsSolid true (n.closer options).toList := by
  unfold closer Options.arrayClose
  split
  · exact ⟨[], ']', rfl, by decide, fun _ => by decide⟩
  · split
    · exact ⟨[], ']', rfl, by decide, fun _ => by decide⟩
    · exact ⟨[], ')', rfl, by decide, fun _ => by decide⟩

/-- A delimiter opens behind all that is there. -/
theorem contains_openBlock {o : Output} {opening : String} (hb : Bounded o)
    (hs : EndsSolid true opening.toList) :
    Contains o.text opening.toList (o.openBlock opening) := by
  have hsolid := hs.append o.text
  obtain ⟨htext, hretreat⟩ := (grows_increaseIndent (o.emit opening)).revises.prefix_stays hsolid
    (by simp)
  refine ⟨htext, (hretreat.mono (Nat.zero_le _)).le_of_forall_le ?_⟩
  rw [points_emit]
  exact hb

/-- An array stands in one piece behind all that was there before: its delimiters, and between them
the texts of its seats with a comma between two. -/
def StandsInSeats (opening closing : String) (seats : List Seat) (start o : Output) : Prop :=
  ∃ front texts pad back, start.text.Sublist front ∧ texts.length = seats.length ∧
    hard pad = [] ∧ Filled front opening.toList seats texts ∧
    o.text = front ++ (opening.toList ++ [','].intercalate texts ++ pad ++ closing.toList) ++ back

/-- Between two delimiters the seats stand in one piece, if text is put in place. -/
theorem Seated.exists_contains {o : Output} {opening : String} (h : Seated env context s seats t)
    (hstart : s.output = o.openBlock opening) (hb : Bounded o)
    (hplace : ∀ x ∈ seats, ∀ y ∈ (emitNode x.node context).steps env x.start, y.InPlace env)
    (hopening : EndsSolid true opening.toList) (firstLine : Int) (closing : String) :
    ∃ front texts pad, o.text.Sublist front ∧ texts.length = seats.length ∧ hard pad = [] ∧
      Filled front opening.toList seats texts ∧
      Contains front (opening.toList ++ [','].intercalate texts ++ pad ++ closing.toList)
        (t.output.closeInline firstLine closing closing) := by
  have hc := contains_openBlock hb hopening
  rw [← hstart] at hc
  by_cases hne : seats = []
  · subst hne
    cases h
    obtain ⟨rest, hrest⟩ := hc.text
    have htext : s.output.text = o.text ++ (opening.toList ++ [].flatMap (· ++ [',']) ++ rest) := by
      simp [← hrest]
    obtain ⟨pad, hpad, hcontains⟩ := exists_closed hopening htext hc.points firstLine closing
    have hsoft : hard rest = [] := by
      have hinked : Inked [.code opening.toList] o (o.openBlock opening) :=
        (writes_openBlock o opening).inked (by simp [Writing.ofText, visible])
      rw [← hstart, Inked, ← hrest] at hinked
      simpa [visible] using hinked
    refine ⟨o.text, [], pad, List.Sublist.refl _, rfl, hpad.trans hsoft, filled_nil, ?_⟩
    simpa using hcontains
  · obtain ⟨front, texts, last, hsub, hlength, htext, hpoints, hfilled⟩ :=
      h.exists_texts hne hplace hopening hc
    obtain ⟨last', hlast', hcontains⟩ := exists_closed hopening htext hpoints firstLine closing
    refine ⟨front, texts ++ [last'], [], hsub, by simp [hlength], rfl, hfilled.congr_last hlast', ?_⟩
    simpa using hcontains

end Texts

/-- The emission of an array gives each child a seat of its own: between the delimiters, what is
written is what is written for the children, in order and with a comma between two. -/
structure WrittenInSeats (env : EmitEnv) (context : Context) (n : Node) (s : EmitState)
    (seats : List Seat) : Prop where
  nodes : seats.map (·.node) = n.seats
  seated : ∃ t, Seated env n.seatContext
    (s.onOutput fun o => (o.beginNode (context.parens.wraps env.tokens n) n).openBlock
      (n.opener env.options)) seats t
  inks : ∃ o : Output, (emitNode n context).inks env s =
    s.output.nodeOpening (context.parens.wraps env.tokens n) n ++
      (.code (n.opener env.options).toList ::
        ([.code ", ".toList].intercalate (seats.map (·.inks env n.seatContext)) ++
        [.code (n.closer env.options).toList])) ++
      o.nodeClosing (context.parens.wraps env.tokens n) n
  holes : ∀ x ∈ seats, x.node.uncommented = Siblings.hole →
    shownCode (x.inks env n.seatContext) = if n.kind = .arrayPattern then [] else "null".toList

open Concrete in
/-- What stands between the brackets of `[a, /*c*/, b,]`. -/
def commentedItems : List Concrete :=
  [branch "identifier" 1 2 none [], token "," 2 3, branch "comment" 4 9 none [], token "," 9 10,
    branch "identifier" 11 12 none [], token "," 12 13]

open Concrete in
def commentedArray : Concrete :=
  branch "array" 0 14 none (token "[" 0 1 :: (commentedItems ++ [token "]" 13 14]))

theorem isArrayOf_commentedItems : commentedArray.IsArrayOf commentedItems where
  kind := by decide
  grammar := .element (by decide) (.comma (by decide) (.comment (by decide) (.comma (by decide)
    (.element (by decide) (.comma (by decide) .nil)))))
  children := ⟨.token "[" 0 1, .token "]" 13 14, by decide, by decide, rfl⟩

end EcmaPhp
