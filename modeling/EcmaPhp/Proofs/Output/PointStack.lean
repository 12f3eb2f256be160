import EcmaPhp.Proofs.Output.Operation

/-! The insertion points as a stack. However the output is worked on, newer points do not lie before
older ones and no point lies behind the end, so what is inserted goes into the text. -/
namespace EcmaPhp
namespace Output

/-- The points, the newest first, do not rise, and none lies behind the end of the text. -/
structure Stacked (o : Output) : Prop where
  sorted : o.points.Pairwise (· ≥ ·)
  bounded : Bounded o

theorem pairwise_clamp {ps : List Nat} (h : ps.Pairwise (· ≥ ·)) (floor : Nat) :
    (ps.map (min · floor)).Pairwise (· ≥ ·) := by
  rw [List.pairwise_map]
  exact h.imp fun hle => by omega

namespace Stacked

variable {o o' : Output}

theorem empty : Stacked {} := ⟨.nil, by simp [Bounded]⟩

theorem of_replaces {kept cut added : List Char} (h : Stacked o)
    (hrep : Replaces kept cut added o o') : Stacked o' := by
  have hpoints : o'.points = o.points.map (min · kept.length) := hrep.points.eq_map h.bounded
  constructor
  · rw [hpoints]
    exact pairwise_clamp h.sorted _
  · intro p hp
    rw [hpoints] at hp
    obtain ⟨q, -, rfl⟩ := List.mem_map.mp hp
    rw [hrep.after, List.length_append]
    omega

theorem separate (h : Stacked o) : Stacked o.terminatorToSeparator := by
  refine ⟨?_, bounded_separation h.bounded⟩
  unfold terminatorToSeparator
  split
  · rw [points_emitChars, points_dropTail]
    exact pairwise_clamp h.sorted _
  · exact h.sorted

theorem push (h : Stacked o) : Stacked o.pushPoint := by
  constructor
  · rw [points_pushPoint, List.pairwise_cons]
    exact ⟨h.bounded, h.sorted⟩
  · intro p hp
    rw [points_pushPoint] at hp
    rw [text_pushPoint]
    rcases List.mem_cons.mp hp with rfl | hp
    · exact le_rfl
    · exact h.bounded p hp

theorem pop (h : Stacked o) : Stacked o.popPoint := by
  constructor
  · exact h.sorted.drop
  · intro p hp
    exact h.bounded p (List.mem_of_mem_drop hp)

/-- The points that move on are those above the one where the text goes. -/
theorem insertAt {depth p : Nat} (h : Stacked o) (hp : o.points[depth]? = some p)
    (cs : List Char) : Stacked (o.insertAt depth cs) := by
  refine ⟨?_, bounded_insertAt hp h.bounded cs⟩
  have hsplit : (o.points.take depth ++ o.points.drop depth).Pairwise (· ≥ ·) := by
    rw [List.take_append_drop]
    exact h.sorted
  obtain ⟨hnewer, holder, hacross⟩ := List.pairwise_append.mp hsplit
  rw [(insertAt_eq hp cs).2, List.pairwise_append]
  refine ⟨?_, holder, ?_⟩
  · rw [List.pairwise_map]
    exact hnewer.imp fun hle => by omega
  · intro moved hmoved older hold
    obtain ⟨newer, hnew, rfl⟩ := List.mem_map.mp hmoved
    have hle := hacross newer hnew older hold
    omega

end Stacked
end Output

open Output

theorem Operation.stacked_apply {o : Output} {op : Operation} (h : Stacked o)
    (hop : op.Admits o) : Stacked (op.apply o) := by
  cases hend : op.atEnd with
  | true =>
    obtain ⟨indent, hw⟩ := writes_apply o hend
    obtain ⟨kept, cut, added, hrep, -, -⟩ := hw.tail
    exact h.of_replaces hrep
  | false =>
    cases op with
    | separate => exact h.separate
    | pushPoint => exact h.push
    | popPoint => exact h.pop
    | insertAt depth cs => exact h.insertAt (List.getElem?_eq_getElem hop) cs
    | _ => cases hend

theorem Output.stacked_run {o : Output} {ops : List Operation} (h : Stacked o)
    (hops : o.Admits ops) : Stacked (o.run ops) := by
  induction ops generalizing o with
  | nil => exact h
  | cons op rest ih => exact ih (op.stacked_apply h hops.1) hops.2

/-- After every run the length that is kept is the length of the text, the points do not fall from
the oldest to the newest, and each lies within the text. Text for a point therefore comes between
what stands before and behind it, and lengthens the text by its own length. -/
theorem run_points_stacked (ops : List Operation) (hops : Output.Admits {} ops) :
    let o := Output.run {} ops
    o.chunks.length = o.text.length ∧
      o.points.reverse.Pairwise (· ≤ ·) ∧
      (∀ p ∈ o.points, p ≤ o.chunks.length) ∧
      ∀ depth p cs, o.points[depth]? = some p →
        (o.insertAt depth cs).text = o.text.take p ++ cs ++ o.text.drop p ∧
          (o.insertAt depth cs).chunks.length = o.chunks.length + cs.length := by
  intro o
  have hstacked : Stacked o := stacked_run .empty hops
  have hlength : ∀ o : Output, o.chunks.length = o.text.length := fun o => o.chunks.length_eq
  refine ⟨hlength o, List.pairwise_reverse.mpr hstacked.sorted, ?_, ?_⟩
  · intro p hp
    rw [hlength]
    exact hstacked.bounded p hp
  · intro depth p cs hp
    obtain ⟨htext, -⟩ := insertAt_eq hp cs
    refine ⟨htext, ?_⟩
    rw [hlength, hlength, htext]
    simp only [List.length_append, List.length_take, List.length_drop]
    omega

/-- The head of a loop whose terminator becomes a separator: the point behind it moves back to where
the separation began, and the point behind a blank moves back as the line ends. -/
def loopRun : List Operation :=
  [.pushPoint, .emit "for ($i = 0; ", .pushPoint, .separate, .emit "$n = 9; ", .pushPoint, .newline,
    .openBlock "\x7b", .breakLine, .emit "f($i)", .ensureTerminator, .insertAt 1 "// head\n".toList,
    .closeBlock 1 "\x7d"]

theorem run_points_stacked_loop :
    let o := Output.run {} loopRun
    o.points = [29, 0, 0] ∧
      o.chunks.length = o.text.length ∧
      o.points.reverse.Pairwise (· ≤ ·) ∧
      (∀ p ∈ o.points, p ≤ o.chunks.length) ∧
      ∀ depth p cs, o.points[depth]? = some p →
        (o.insertAt depth cs).text = o.text.take p ++ cs ++ o.text.drop p ∧
          (o.insertAt depth cs).chunks.length = o.chunks.length + cs.length :=
  ⟨by decide +kernel, run_points_stacked loopRun (by decide +kernel)⟩

end EcmaPhp
