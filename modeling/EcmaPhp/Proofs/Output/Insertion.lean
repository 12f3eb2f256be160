import EcmaPhp.Proofs.Output.Revision

/-! Where the text stays as it is: what trimming, separating and inserting leave alone. -/
namespace EcmaPhp.Output

/-- The end of a text that no trimming takes and, in the head of a loop, no separation changes. -/
def EndsSolid (inHead : Bool) (text : List Char) : Prop :=
  ∃ front c, text = front ++ [c] ∧ Text.isBlank c = false ∧ (inHead = true → c ≠ ';' ∧ c ≠ '\n')

theorem EndsSolid.append {h : Bool} {text : List Char} (hs : EndsSolid h text) (front : List Char) :
    EndsSolid h (front ++ text) := by
  obtain ⟨start, c, rfl, hc⟩ := hs
  exact ⟨front ++ start, c, (List.append_assoc ..).symm, hc⟩

theorem EndsSolid.outside {h : Bool} {text : List Char} (hs : EndsSolid true text) :
    EndsSolid h text := by
  obtain ⟨start, c, rfl, hblank, hc⟩ := hs
  exact ⟨start, c, rfl, hblank, fun _ => hc rfl⟩

/-- A start of the text with a solid end lies before a stretch of other characters. -/
theorem EndsSolid.prefix_of_prefix_append {h : Bool} {pre front rest : List Char}
    (hs : EndsSolid h pre) (hpre : pre <+: front ++ rest)
    (hrest : ∀ c ∈ rest, Text.isBlank c = true ∨ h = true ∧ (c = ';' ∨ c = '\n')) :
    pre <+: front := by
  rcases Nat.lt_or_ge front.length pre.length with hlt | hle
  · obtain ⟨more, rfl⟩ :=
      List.prefix_of_prefix_length_le (List.prefix_append front rest) hpre hlt.le
    obtain ⟨start, c, heq, hblank, hc⟩ := hs
    have hmore : more <+: rest := (List.prefix_append_right_inj front).mp hpre
    have hne : more ≠ [] := by
      rintro rfl
      simp at hlt
    -- The solid character would be one of the others.
    have hlast : c ∈ more := by
      have : (front ++ more).getLast? = some c := by simp [heq]
      rw [List.getLast?_append_of_ne_nil _ hne] at this
      exact List.mem_of_getLast? this
    rcases hrest c (hmore.subset hlast) with hb | ⟨hh, hc'⟩
    · simp [hb] at hblank
    · rcases hc' with rfl | rfl
      · exact absurd rfl (hc hh).1
      · exact absurd rfl (hc hh).2
  · exact List.prefix_of_prefix_length_le hpre (List.prefix_append front rest) hle

/-- A start of the text with a solid end at it or behind it. -/
def Anchored (inHead : Bool) (pre text : List Char) : Prop :=
  ∃ held, pre <+: held ∧ held <+: text ∧ EndsSolid inHead held

namespace Anchored

variable {h : Bool} {pre text : List Char}

theorem of_isPrefix (hs : EndsSolid h pre) (hpre : pre <+: text) : Anchored h pre text :=
  ⟨pre, List.prefix_refl pre, hpre, hs⟩

theorem isPrefix (ha : Anchored h pre text) : pre <+: text := by
  obtain ⟨held, hpre, hheld, -⟩ := ha
  exact hpre.trans hheld

theorem outside (ha : Anchored true pre text) : Anchored h pre text := by
  obtain ⟨held, hpre, hheld, hs⟩ := ha
  exact ⟨held, hpre, hheld, hs.outside⟩

/-- Text may be put anywhere behind the start. -/
theorem insert (ha : Anchored h pre text) {p : Nat} (hp : pre.length ≤ p) (cs : List Char) :
    Anchored h pre (text.take p ++ cs ++ text.drop p) := by
  obtain ⟨held, hpre, hheld, start, c, rfl, hc⟩ := ha
  rcases Nat.lt_or_ge p (start ++ [c]).length with hlt | hge
  · -- The solid character moves on with what stands behind the text put in.
    have hle : p ≤ start.length := by simpa using Nat.le_of_lt_succ (by simpa using hlt)
    obtain ⟨rest, rfl⟩ := hheld
    have hstart : pre <+: start.take p :=
      List.prefix_take_iff.mpr
        ⟨List.prefix_of_prefix_length_le hpre (List.prefix_append start [c]) (le_trans hp hle), hp⟩
    refine ⟨start.take p ++ cs ++ start.drop p ++ [c], ?_, ⟨rest, ?_⟩, _, c, rfl, hc⟩
    · simp only [List.append_assoc]
      exact hstart.trans (List.prefix_append _ _)
    · simp [List.take_append_of_le_length hle, List.drop_append_of_le_length hle]
  · refine ⟨start ++ [c], hpre, ?_, start, c, rfl, hc⟩
    rw [List.append_assoc]
    exact (List.prefix_take_iff.mpr ⟨hheld, hge⟩).trans (List.prefix_append _ _)

end Anchored

variable {o o' : Output}

/-- What stands before a solid end stays, and so do the points in it. -/
theorem Revises.prefix_stays {h : Bool} {pre : List Char} (hr : Revises o o') (hs : EndsSolid h pre)
    (hpre : pre <+: o.text) : pre <+: o'.text ∧ Retreat pre.length o.points o'.points := by
  obtain ⟨kept, blanks, added, ho, hblank, ho', hpoints, -⟩ := hr
  rw [ho] at hpre
  have hkept := hs.prefix_of_prefix_append hpre fun c hc => .inl (hblank c hc)
  refine ⟨?_, hpoints.mono hkept.length_le⟩
  rw [ho']
  exact hkept.trans (List.prefix_append kept added)

theorem EndsSolid.text_newline {h : Bool} (hs : EndsSolid h o.text) :
    o.newline.text = o.text ++ '\n' :: o.indentation := by
  obtain ⟨front, c, htext, hblank, -⟩ := hs
  have htrim : o.trimBlanks.text = o.text := by
    rw [text_trimBlanks, htext]
    simp [Text.trimEnd, hblank]
  change (o.trimBlanks.emitChars _).text = _
  rw [text_emitChars, htrim]

theorem Revises.anchored_stays {h : Bool} {pre : List Char} (hr : Revises o o')
    (ha : Anchored h pre o.text) :
    Anchored h pre o'.text ∧ Retreat pre.length o.points o'.points := by
  obtain ⟨held, hpre, hheld, hs⟩ := ha
  obtain ⟨hheld', hpoints⟩ := hr.prefix_stays hs hheld
  exact ⟨⟨held, hpre, hheld', hs⟩, hpoints.mono hpre.length_le⟩

theorem Revises.bounded (hr : Revises o o') (hb : Bounded o) : Bounded o' := by
  obtain ⟨_, _, _, _, _, _, _, hbound⟩ := hr
  exact hbound hb

theorem Revises.retreat (hr : Revises o o') : Retreat 0 o.points o'.points := by
  obtain ⟨_, _, _, _, _, _, hpoints, _⟩ := hr
  exact hpoints.mono (Nat.zero_le _)

theorem Revises.points_eq_nil (hr : Revises o o') (h : o.points = []) : o'.points = [] :=
  List.length_eq_zero_iff.mp (by rw [hr.retreat.length_eq, h]; rfl)

theorem separateReversed?_eq_some {reversed result : List Char}
    (h : separateReversed? reversed = some result) :
    ∃ blanks rest, reversed = blanks ++ ';' :: rest ∧ result = blanks ++ ' ' :: ',' :: rest ∧
      ∀ c ∈ blanks, Text.isBlank c = true := by
  rw [separateReversed?] at h
  split at h
  · rename_i rest hdrop
    refine ⟨reversed.takeWhile Text.isBlank, rest, ?_, (Option.some.inj h).symm,
      fun c hc => List.mem_takeWhile_imp hc⟩
    rw [← hdrop, List.takeWhile_append_dropWhile]
  · cases h

/-- A separation changes the last semicolon, behind which there are only blanks and line ends. -/
theorem separate?_eq_some {text result : List Char} (h : separate? text = some result) :
    ∃ front rest, text = front ++ ';' :: rest ∧ result = front ++ ',' :: ' ' :: rest ∧
      ∀ c ∈ rest, Text.isBlank c = true ∨ c = '\n' := by
  rw [separate?] at h
  split at h
  · rename_i reversed htext
    obtain ⟨r, hr, rfl⟩ := Option.map_eq_some_iff.mp h
    obtain ⟨blanks, rest, rfl, rfl, hblank⟩ := separateReversed?_eq_some hr
    refine ⟨rest.reverse, blanks.reverse ++ ['\n'], ?_, by simp, ?_⟩
    · rw [← List.reverse_reverse text, htext]
      simp
    · intro c hc
      rcases List.mem_append.mp hc with hc | hc
      · exact .inl (hblank c (List.mem_reverse.mp hc))
      · exact .inr (List.mem_singleton.mp hc)
  · obtain ⟨r, hr, rfl⟩ := Option.map_eq_some_iff.mp h
    obtain ⟨blanks, rest, htext, rfl, hblank⟩ := separateReversed?_eq_some hr
    refine ⟨rest.reverse, blanks.reverse, ?_, by simp,
      fun c hc => .inl (hblank c (List.mem_reverse.mp hc))⟩
    rw [← List.reverse_reverse text, htext]
    simp

/-- A separation writes anew some text before an offset. -/
def SeparationReaches (o : Output) (offset : Nat) : Prop :=
  (separate? o.tail).isSome ∧ o.text.length < offset + o.tail.length

instance (o : Output) (offset : Nat) : Decidable (o.SeparationReaches offset) :=
  inferInstanceAs (Decidable (_ ∧ _))

theorem not_separationReaches_zero (o : Output) : ¬ o.SeparationReaches 0 := by
  rintro ⟨-, hlt⟩
  have := o.tail_suffix.length_le
  omega

/-- A separation changes no text before a solid end, but points move back as far as it reaches. -/
theorem separation_prefix_stays {pre : List Char} (hs : EndsSolid true pre)
    (hpre : pre <+: o.text) : pre <+: o.terminatorToSeparator.text := by
  rw [terminatorToSeparator]
  split
  · rename_i result hresult
    obtain ⟨front, rest, htail, rfl, hrest⟩ := separate?_eq_some hresult
    obtain ⟨start, hstart⟩ := o.tail_suffix
    have hcut : (o.dropTail o.tail.length).text = start := by
      rw [text_dropTail, ← hstart]
      simp
    rw [text_emitChars, hcut, ← List.append_assoc]
    refine List.IsPrefix.trans ?_ (List.prefix_append _ _)
    have hpre : pre <+: start ++ front ++ ';' :: rest := by
      rw [List.append_assoc, ← htail, hstart]
      exact hpre
    refine hs.prefix_of_prefix_append hpre ?_
    · intro c hc
      rcases List.mem_cons.mp hc with rfl | hc
      · exact .inr ⟨rfl, .inl rfl⟩
      · exact (hrest c hc).imp_right fun hc => ⟨rfl, .inr hc⟩
  · exact hpre

theorem separation_retreat {floor : Nat} (h : ¬ o.SeparationReaches floor) :
    Retreat floor o.points o.terminatorToSeparator.points := by
  rw [terminatorToSeparator]
  split
  · rename_i result hresult
    have hfloor : floor + o.tail.length ≤ o.text.length :=
      Nat.not_lt.mp fun hlt => h ⟨by rw [hresult]; rfl, hlt⟩
    rw [points_emitChars, points_dropTail]
    exact Retreat.clamp (by omega) _
  · exact Retreat.refl _ _

/-- Where a separation reaches, no point remains behind. -/
theorem separation_points_lt {offset : Nat} (h : o.SeparationReaches offset) :
    ∀ p ∈ o.terminatorToSeparator.points, p < offset := by
  obtain ⟨hsome, hlt⟩ := h
  obtain ⟨result, hresult⟩ := Option.isSome_iff_exists.mp hsome
  have htail : o.tail.length ≤ o.text.length := o.tail_suffix.length_le
  intro p hp
  simp only [terminatorToSeparator, hresult, points_emitChars, points_dropTail] at hp
  obtain ⟨q, -, rfl⟩ := List.mem_map.mp hp
  omega

theorem bounded_separation (hb : Bounded o) : Bounded o.terminatorToSeparator := by
  rw [terminatorToSeparator]
  split
  · exact (revises_emitChars _ _).bounded (bounded_dropTail o _)
  · exact hb

/-- Text at a point goes between what stands before and behind it, and newer points move on. -/
theorem insertAt_eq {depth p : Nat} (h : o.points[depth]? = some p) (cs : List Char) :
    (o.insertAt depth cs).text = o.text.take p ++ cs ++ o.text.drop p ∧
      (o.insertAt depth cs).points =
        (o.points.take depth).map (· + cs.length) ++ o.points.drop depth := by
  obtain ⟨hlt, -⟩ := List.getElem?_eq_some_iff.mp h
  have hpoint : o.point? depth = some p := by rw [point?, if_pos hlt, h]
  cases cs with
  | nil => simp [insertAt]
  | cons c cs =>
    simp only [insertAt, hpoint, movedPoints, if_pos hlt]
    exact ⟨Chunks.text_insertAt .., trivial⟩

/-- Whatever the depth, text goes in at one place or not at all, and its line ends count as lines
without source. -/
theorem insertAt_splices (o : Output) (depth : Nat) (cs : List Char) :
    ∃ p added, (o.insertAt depth cs).text = o.text.take p ++ added ++ o.text.drop p ∧
      (o.insertAt depth cs).line = o.line + added.count '\n' ∧
      (o.insertAt depth cs).offset = o.offset + added.count '\n' := by
  cases cs with
  | nil => exact ⟨0, [], by simp [insertAt]⟩
  | cons c cs =>
    cases hp : o.point? depth with
    | none => exact ⟨0, [], by simp [insertAt, hp]⟩
    | some p =>
      refine ⟨p, c :: cs, ?_, ?_, ?_⟩ <;> simp only [insertAt, hp]
      exact Chunks.text_insertAt ..

theorem bounded_insertAt {depth p : Nat} (h : o.points[depth]? = some p) (hb : Bounded o)
    (cs : List Char) : Bounded (o.insertAt depth cs) := by
  obtain ⟨htext, hpoints⟩ := insertAt_eq h cs
  have hlength : (o.insertAt depth cs).text.length = o.text.length + cs.length := by
    rw [htext]
    simp only [List.length_append, List.length_take, List.length_drop]
    omega
  intro q hq
  rw [hlength]
  rw [hpoints] at hq
  rcases List.mem_append.mp hq with hq | hq
  · obtain ⟨q, hq', rfl⟩ := List.mem_map.mp hq
    exact Nat.add_le_add_right (hb q (List.mem_of_mem_take hq')) _
  · exact le_trans (hb q (List.mem_of_mem_drop hq)) (Nat.le_add_right _ _)

theorem insertAt_of_points_eq_nil (h : o.points = []) (cs : List Char) : o.insertAt 0 cs = o := by
  cases cs with
  | nil => rfl
  | cons c cs => simp [insertAt, point?, h]

end EcmaPhp.Output

namespace EcmaPhp
open Output

/-- An action works at the end of the output, or it puts text at the newest point. -/
theorem Action.output_cases (x : Action) (s : EmitState) :
    Grows s.output (x.apply s).output ∨
      ∃ cs p ps, x = .edit (.insert cs) ∧ cs ≠ [] ∧ s.output.points = p :: ps := by
  cases x with
  | edit e =>
    by_cases hinsert : ∃ cs, e = .insert cs
    · obtain ⟨cs, rfl⟩ := hinsert
      have hunchanged (heq : s.output.insertAt 0 cs = s.output) :
          Grows s.output ((Action.edit (.insert cs)).apply s).output := by
        change Grows s.output (s.output.insertAt 0 cs)
        exact heq.symm ▸ .refl _
      by_cases hcs : cs = []
      · exact .inl (hunchanged (by rw [hcs]; rfl))
      · cases hps : s.output.points with
        | nil => exact .inl (hunchanged (insertAt_of_points_eq_nil hps cs))
        | cons p ps => exact .inr ⟨cs, p, ps, rfl, hcs, rfl⟩
    · exact .inl (e.grows_apply _ fun cs hcs => hinsert ⟨cs, hcs⟩)
  | register n => exact .inl (.refl _)
  | refer n => exact .inl (.refl _)
  | learnField key =>
    have hsame : (s.learnField key).output = s.output := by
      rw [EmitState.learnField]
      split <;> rfl
    exact .inl (hsame.symm ▸ .refl _)
  | note e => exact .inl (.refl _)

end EcmaPhp
