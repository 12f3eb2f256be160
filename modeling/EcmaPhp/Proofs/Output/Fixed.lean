import EcmaPhp.Proofs.Output.Ending
import EcmaPhp.Proofs.Output.PointStack

/-! Pieces of the text that nothing cuts. A piece that lies in one chunk stays whole as long as
something solid stands behind it and no insertion point lies inside it: trimming and separating go no
further than what is solid, a separation moves points to the end of a chunk, and text goes in at
points only. -/
namespace EcmaPhp
open Output

theorem Text.trimEnd_append_of_hard {back : List Char} (front : List Char)
    (h : ∃ c ∈ back, isSoft c = false) :
    trimEnd isBlank (front ++ back) = front ++ trimEnd isBlank back ∧
      ∃ c ∈ trimEnd isBlank back, isSoft c = false := by
  obtain ⟨c, hc, hhard⟩ := h
  have hkept : c ∈ trimEnd isBlank back := by
    obtain ⟨cut, htext, hblank⟩ := trimEnd_append_blanks (p := isBlank) back
    rw [htext] at hc
    rcases List.mem_append.mp hc with hc | hc
    · exact hc
    · simp [isSoft, hblank c hc] at hhard
  constructor
  · rw [trimEnd_append, if_neg (List.ne_nil_of_mem hkept)]
  · exact ⟨c, hkept, hhard⟩

namespace Chunks

@[simp] theorem join_append (newer older : List (List Char)) :
    join (newer ++ older) = join older ++ join newer := by
  simp [join]

/-- The last characters that are looked at are whole chunks, and these are dropped as such. -/
theorem exists_dropEnd_joinLast (size : Nat) (held : List (List Char)) :
    ∃ newer older, held = newer ++ older ∧ joinLast size held = join newer ∧
      dropEnd (joinLast size held).length held = older := by
  induction held generalizing size with
  | nil => exact ⟨[], [], rfl, rfl, rfl⟩
  | cons c older ih =>
    rw [joinLast]
    split
    · cases c with
      | nil => exact ⟨[], [] :: older, rfl, rfl, rfl⟩
      | cons x c => exact ⟨[x :: c], older, rfl, by simp, by simp [dropEnd]⟩
    · obtain ⟨newer, oldest, hheld, hlast, hdrop⟩ := ih (size - c.length)
      cases hsum : (joinLast (size - c.length) older ++ c).length with
      | zero =>
        obtain ⟨hnil, rfl⟩ : joinLast (size - c.length) older = [] ∧ c = [] := by
          simpa using hsum
        exact ⟨[], [] :: older, rfl, by simpa using hnil, rfl⟩
      | succ count =>
        have hcount : count + 1 - c.length = (joinLast (size - c.length) older).length := by
          rw [← hsum, List.length_append]
          omega
        refine ⟨c :: newer, oldest, by rw [hheld, List.cons_append], by rw [hlast, join_cons], ?_⟩
        rw [dropEnd, if_pos (by rw [← hsum, List.length_append]; omega), hcount, hdrop]

theorem dropEnd_one (cs : List Char) (x : Char) (older : List (List Char)) :
    dropEnd 1 ((cs ++ [x]) :: older) = if cs = [] then older else cs :: older := by
  cases cs <;> simp [dropEnd]

theorem join_splice (cs : List Char) (p : Nat) (held : List (List Char)) :
    join (splice cs p held.reverse).reverse = (join held).take p ++ cs ++ (join held).drop p := by
  rw [join, List.reverse_reverse, flatten_splice, join]

theorem splice_append_of_lt (cs : List Char) {p : Nat} {older : List (List Char)}
    (newer : List (List Char)) (h : older = [] ∨ older.flatten.length < p) :
    splice cs p (older ++ newer) = older ++ splice cs (p - older.flatten.length) newer := by
  induction older generalizing p with
  | nil => simp
  | cons c older ih =>
    have h : c.length + older.flatten.length < p := by simpa using h
    rw [List.cons_append, splice, if_neg (by omega), ih (.inr (by omega)), List.flatten_cons,
      List.length_append, Nat.sub_add_eq, List.cons_append]

theorem splice_append_of_le (cs : List Char) {p : Nat} {older : List (List Char)}
    (newer : List (List Char)) (hne : older ≠ []) (h : p ≤ older.flatten.length) :
    splice cs p (older ++ newer) = splice cs p older ++ newer := by
  induction older generalizing p with
  | nil => exact absurd rfl hne
  | cons c older ih =>
    rw [List.flatten_cons, List.length_append] at h
    rw [List.cons_append, splice, splice]
    split
    · rfl
    · rename_i hlt
      have hne : older ≠ [] := by
        rintro rfl
        exact hlt h
      rw [ih hne (by omega), List.cons_append]

/-- The last semicolon, where only soft characters follow it, stands behind whatever is followed by
something hard. -/
theorem exists_append_of_hard {front back before behind : List Char}
    (htext : front ++ back = before ++ ';' :: behind)
    (hbehind : ∀ c ∈ behind, Text.isBlank c = true ∨ c = '\n')
    (hback : ∃ c ∈ back, isSoft c = false) : ∃ more, before = front ++ more := by
  rcases List.append_eq_append_iff.mp htext with ⟨more, hbefore, -⟩ | ⟨cut, hfront, hcut⟩
  · exact ⟨more, hbefore⟩
  · rcases List.cons_eq_append_iff.mp hcut with ⟨rfl, -⟩ | ⟨cut, rfl, hrest⟩
    · exact ⟨[], by simpa using hfront.symm⟩
    · obtain ⟨c, hc, hhard⟩ := hback
      have hsoft : isSoft c = true := by
        simpa [isSoft] using hbehind c (hrest ▸ List.mem_append_right cut hc)
      simp [hsoft] at hhard

/-- A text in one piece: it lies in one of the chunks, which are given with the newest first, `start`
characters stand before it and something hard behind it. -/
def Holds (piece : List Char) (start : Nat) (held : List (List Char)) : Prop :=
  ∃ newer front back older, held = newer ++ (front ++ piece ++ back) :: older ∧
    start = (join older ++ front).length ∧ ∃ c ∈ back ++ join newer, isSoft c = false

namespace Holds

variable {piece : List Char} {start : Nat} {held : List (List Char)}

theorem isInfix (h : Holds piece start held) : piece <:+: join held := by
  obtain ⟨newer, front, back, older, rfl, -, -⟩ := h
  exact ⟨join older ++ front, back ++ join newer, by simp⟩

theorem lt_length (h : Holds piece start held) : start + piece.length < (join held).length := by
  obtain ⟨newer, front, back, older, rfl, rfl, c, hc, -⟩ := h
  have := List.length_pos_of_mem hc
  simp only [join_append, join_cons, List.length_append] at this ⊢
  omega

theorem push (h : Holds piece start held) (cs : List Char) : Holds piece start (cs :: held) := by
  obtain ⟨newer, front, back, older, rfl, hstart, c, hc, hhard⟩ := h
  refine ⟨cs :: newer, front, back, older, rfl, hstart, c, ?_, hhard⟩
  rw [join_cons, ← List.append_assoc]
  exact List.mem_append_left cs hc

theorem trimEnd (h : Holds piece start held) : Holds piece start (trimEnd held).1 := by
  obtain ⟨newer, front, back, older, rfl, hstart, hback⟩ := h
  induction newer with
  | nil =>
    obtain ⟨htrim, c, hc, hhard⟩ :=
      Text.trimEnd_append_of_hard (front ++ piece) (by simpa using hback)
    rw [List.nil_append, Chunks.trimEnd, htrim]
    split
    · rename_i hnil
      simp [(List.append_eq_nil_iff.mp hnil).2] at hc
    · exact ⟨[], front, _, older, rfl, hstart, c, by simpa using hc, hhard⟩
  | cons d newer ih =>
    have hsplit : (∃ c ∈ back ++ join newer, isSoft c = false) ∨ ∃ c ∈ d, isSoft c = false := by
      obtain ⟨c, hc, hhard⟩ := hback
      rw [join_cons, ← List.append_assoc] at hc
      exact (List.mem_append.mp hc).imp (⟨c, ·, hhard⟩) (⟨c, ·, hhard⟩)
    rw [List.cons_append, Chunks.trimEnd]
    split
    · rename_i hnil
      rcases hsplit with hsplit | hd
      · exact ih hsplit
      · obtain ⟨-, c, hc, -⟩ := Text.trimEnd_append_of_hard [] hd
        simp [hnil] at hc
    · refine ⟨Text.trimEnd Text.isBlank d :: newer, front, back, older, rfl, hstart, ?_⟩
      rw [join_cons, ← List.append_assoc]
      rcases hsplit with ⟨c, hc, hhard⟩ | hd
      · exact ⟨c, List.mem_append_left _ hc, hhard⟩
      · obtain ⟨-, c, hc, hhard⟩ := Text.trimEnd_append_of_hard [] hd
        exact ⟨c, List.mem_append_right _ hc, hhard⟩

/-- A tab at the end may go. -/
theorem dropTab (h : Holds piece start held) (htab : ['\t'] <:+ join held) :
    Holds piece start (dropEnd 1 held) := by
  obtain ⟨newer, front, back, older, rfl, hstart, c, hc, hhard⟩ := h
  have hne : c ≠ '\t' := by
    rintro rfl
    simp [isSoft, Text.isBlank] at hhard
  induction newer with
  | nil =>
    have hc : c ∈ back := by simpa using hc
    obtain ⟨kept, rfl⟩ : ['\t'] <:+ back := by
      simp only [List.nil_append, join_cons] at htab
      apply List.suffix_of_suffix_length_le htab
      · exact ⟨join older ++ (front ++ piece), by simp⟩
      · exact List.length_pos_of_mem hc
    have hc : c ∈ kept := by simpa [hne] using hc
    refine ⟨[], front, kept, older, ?_, hstart, c, by simpa using hc, hhard⟩
    have hkept : front ++ piece ++ kept ≠ [] := List.ne_nil_of_mem (List.mem_append_right _ hc)
    rw [List.nil_append, ← List.append_assoc, dropEnd_one, if_neg hkept, List.nil_append]
  | cons d newer ih =>
    rw [join_cons, ← List.append_assoc] at hc
    rw [List.cons_append, join_cons] at htab
    rcases List.eq_nil_or_concat d with rfl | ⟨kept, x, rfl⟩
    · exact ih (by simpa using htab) (by simpa using hc)
    · obtain rfl : '\t' = x := by simpa [← List.append_assoc] using htab
      have hc : c ∈ back ++ join newer ++ kept := by simpa [hne, or_assoc] using hc
      rw [List.cons_append, List.concat_eq_append, dropEnd_one]
      split
      · rename_i hnil
        rw [hnil, List.append_nil] at hc
        exact ⟨newer, front, back, older, rfl, hstart, c, hc, hhard⟩
      · refine ⟨kept :: newer, front, back, older, rfl, hstart, c, ?_, hhard⟩
        rwa [join_cons, ← List.append_assoc]

/-- A separation rewrites the last chunks as one, and the piece goes along or stands before them. -/
theorem separate {size : Nat} {text : List Char} (h : Holds piece start held)
    (hs : separate? (joinLast size held) = some text) :
    let kept := dropEnd (joinLast size held).length held
    Holds piece start (text :: kept) ∧
      ((join kept).length ≤ start ∨ start + piece.length ≤ (join kept).length) := by
  intro kept
  obtain ⟨newer, front, back, older, hheld, rfl, hback⟩ := h
  obtain ⟨last, rest, hsplit, hlast, hkept⟩ := exists_dropEnd_joinLast size held
  obtain ⟨before, behind, htext, rfl, hbehind⟩ := separate?_eq_some hs
  have hcomma : isSoft ',' = false := by decide
  obtain rfl : kept = rest := hkept
  rw [hheld] at hsplit
  have hcases : (∃ mid, last = newer ++ (front ++ piece ++ back) :: mid ∧ older = mid ++ kept) ∨
      ∃ mid, kept = mid ++ (front ++ piece ++ back) :: older := by
    rcases List.append_eq_append_iff.mp hsplit with ⟨mid, hlast, hmid⟩ | ⟨mid, -, hkept⟩
    · rcases List.cons_eq_append_iff.mp hmid with ⟨-, hkept⟩ | ⟨mid, rfl, holder⟩
      · exact .inr ⟨[], hkept⟩
      · exact .inl ⟨mid, hlast, holder⟩
    · exact .inr ⟨mid, hkept⟩
  rcases hcases with ⟨mid, rfl, rfl⟩ | ⟨mid, hkept⟩
  · have hcut : (join mid ++ front ++ piece) ++ (back ++ join newer) = before ++ ';' :: behind := by
      rw [← htext, hlast]
      simp
    obtain ⟨more, rfl⟩ := exists_append_of_hard hcut hbehind hback
    constructor
    · exact ⟨[], join mid ++ front, more ++ ',' :: ' ' :: behind, kept, by simp, by simp, ',',
        by simp, hcomma⟩
    · left
      simp only [join_append, List.length_append]
      omega
  · constructor
    · exact ⟨(before ++ ',' :: ' ' :: behind) :: mid, front, back, older, by simp [hkept], rfl, ',',
        by simp, hcomma⟩
    · right
      rw [hkept]
      simp only [join_append, join_cons, List.length_append]
      omega

/-- Text that comes before the piece moves it on. -/
theorem splice_before (h : Holds piece start held) (cs : List Char) {p : Nat} (hp : p ≤ start) :
    Holds piece (start + cs.length) (splice cs p held.reverse).reverse := by
  obtain ⟨newer, front, back, older, rfl, rfl, hback⟩ := h
  rw [List.length_append] at hp
  rw [List.reverse_append, List.reverse_cons, List.append_assoc, List.singleton_append]
  by_cases holder : older ≠ [] ∧ p ≤ (join older).length
  · rw [splice_append_of_le cs _ (by simpa using holder.1) holder.2]
    refine ⟨newer, front, back, (splice cs p older.reverse).reverse, by simp, ?_, hback⟩
    simp only [join_splice, List.length_append, List.length_take, List.length_drop]
    omega
  · -- The text goes into the chunk that holds the piece.
    have hlt : older.reverse = [] ∨ (join older).length < p := by
      rw [List.reverse_eq_nil_iff]
      exact (not_and_or.mp holder).imp not_not.mp Nat.not_le.mp
    rw [splice_append_of_lt cs _ hlt]
    change Holds _ _ (older.reverse ++ splice cs (p - (join older).length) _).reverse
    generalize hdiff : p - (join older).length = q
    have hq : q ≤ front.length := by omega
    rw [splice, if_pos (by simp only [List.length_append]; omega)]
    refine ⟨newer, front.drop q, back, cs :: front.take q :: older, ?_, ?_, hback⟩
    · simp [List.take_append_of_le_length hq, List.drop_append_of_le_length hq]
    · simp only [join_cons, List.length_append, List.length_take, List.length_drop]
      omega

/-- Text that comes behind the piece leaves it where it is. -/
theorem splice_behind (h : Holds piece start held) (cs : List Char) {p : Nat} (hne : piece ≠ [])
    (hp : start + piece.length ≤ p) : Holds piece start (splice cs p held.reverse).reverse := by
  obtain ⟨newer, front, back, older, rfl, rfl, c, hc, hhard⟩ := h
  have hpos := List.length_pos_iff.mpr hne
  rw [List.length_append] at hp
  rw [List.reverse_append, List.reverse_cons, List.append_assoc, List.singleton_append,
    splice_append_of_lt cs _ (.inr (show (join older).length < p by omega))]
  change Holds _ _ (older.reverse ++ splice cs (p - (join older).length) _).reverse
  generalize hdiff : p - (join older).length = q
  have hq : (front ++ piece).length ≤ q := by
    rw [List.length_append]
    omega
  rw [splice]
  split
  · obtain ⟨r, rfl⟩ := Nat.exists_eq_add_of_le hq
    refine ⟨newer ++ [back.drop r, cs], front, back.take r, older, ?_, rfl, c, ?_, hhard⟩
    · rw [List.take_length_add_append, List.drop_length_add_append]
      simp
    · have hc : c ∈ back.take r ∨ c ∈ back.drop r ∨ c ∈ join newer := by
        rw [← or_assoc, ← List.mem_append, List.take_append_drop]
        exact List.mem_append.mp hc
      rcases hc with hc | hc | hc <;> simp [hc]
  · refine ⟨(splice cs (q - (front ++ piece ++ back).length) newer.reverse).reverse, front, back,
      older, by simp, rfl, c, ?_, hhard⟩
    generalize q - (front ++ piece ++ back).length = r
    have hc : c ∈ back ∨ c ∈ (join newer).take r ∨ c ∈ (join newer).drop r := by
      rw [← List.mem_append (s := (join newer).take r), List.take_append_drop]
      exact List.mem_append.mp hc
    rw [join_splice]
    rcases hc with hc | hc | hc <;> simp [hc]

end Holds

theorem exists_splice_eq (cs : List Char) {p : Nat} {chunks : List (List Char)}
    (hp : p ≤ chunks.flatten.length) :
    ∃ older newer, splice cs p chunks = older ++ cs :: newer ∧
      older.flatten = chunks.flatten.take p ∧ newer.flatten = chunks.flatten.drop p := by
  induction chunks generalizing p with
  | nil => exact ⟨[], [], rfl, by simp, by simp⟩
  | cons c rest ih =>
    rw [splice]
    split
    · rename_i hle
      refine ⟨[c.take p], c.drop p :: rest, rfl, ?_, ?_⟩
      · simp [List.take_append_of_le_length hle]
      · simp [List.drop_append_of_le_length hle]
    · rename_i hlt
      rw [List.flatten_cons, List.length_append] at hp
      obtain ⟨older, newer, hsplice, holder, hnewer⟩ := ih (p := p - c.length) (by omega)
      refine ⟨c :: older, newer, by rw [hsplice, List.cons_append], ?_, ?_⟩
      · rw [List.flatten_cons, holder, List.flatten_cons, List.take_append,
          List.take_of_length_le (l := c) (by omega)]
      · rw [hnewer, List.flatten_cons, List.drop_append, List.drop_of_length_le (l := c) (by omega),
          List.nil_append]

/-- Text that goes in before something hard is itself a piece. -/
theorem holds_splice (cs : List Char) {p : Nat} {held : List (List Char)}
    (hp : p ≤ (join held).length) (hhard : ∃ c ∈ (join held).drop p, isSoft c = false) :
    Holds cs p (splice cs p held.reverse).reverse := by
  obtain ⟨older, newer, hsplice, holder, hnewer⟩ := exists_splice_eq cs hp
  refine ⟨newer.reverse, [], [], older.reverse, by simp [hsplice], ?_, ?_⟩
  · rw [List.append_nil, join, List.reverse_reverse, holder, List.length_take]
    change p = min p (join held).length
    omega
  · rw [List.nil_append, join, List.reverse_reverse, hnewer]
    exact hhard

end Chunks

namespace Output

variable {o o' : Output} {piece : List Char}

/-- A piece of the text that nothing cuts from now on. -/
def Fixed (piece : List Char) (o : Output) : Prop :=
  ∃ start, Chunks.Holds piece start o.chunks.held ∧
    ∀ p ∈ o.points, p ≤ start ∨ start + piece.length ≤ p

/-- Something hard stands behind an offset. -/
def HardBehind (offset : Nat) (o : Output) : Prop := ∃ c ∈ o.text.drop offset, isSoft c = false

theorem chunks_insertAt {depth p : Nat} {cs : List Char} (hp : o.points[depth]? = some p)
    (hcs : cs ≠ []) : (o.insertAt depth cs).chunks = o.chunks.insertAt p cs := by
  obtain ⟨hlt, -⟩ := List.getElem?_eq_some_iff.mp hp
  have hpoint : o.point? depth = some p := by rw [point?, if_pos hlt, hp]
  cases cs with
  | nil => exact absurd rfl hcs
  | cons c cs => simp only [insertAt, hpoint]

/-- The points above one do not lie before it, and those from it on not behind it. -/
theorem Stacked.around {depth p : Nat} (hs : Stacked o) (hp : o.points[depth]? = some p) :
    (∀ q ∈ o.points.take depth, p ≤ q) ∧ ∀ q ∈ o.points.drop depth, q ≤ p := by
  obtain ⟨hlt, hget⟩ := List.getElem?_eq_some_iff.mp hp
  have hdrop : o.points.drop depth = p :: o.points.drop (depth + 1) := by
    rw [List.drop_eq_getElem_cons hlt, hget]
  have hsplit : (o.points.take depth ++ o.points.drop depth).Pairwise (· ≥ ·) := by
    rw [List.take_append_drop]
    exact hs.sorted
  rw [hdrop] at hsplit ⊢
  obtain ⟨-, holder, hacross⟩ := List.pairwise_append.mp hsplit
  constructor
  · intro q hq
    exact hacross q hq p List.mem_cons_self
  · intro q hq
    rcases List.mem_cons.mp hq with rfl | hq
    · exact le_rfl
    · exact (List.pairwise_cons.mp holder).1 q hq

theorem outside_clamp {start stop n : Nat} {ps : List Nat} (hps : ∀ p ∈ ps, p ≤ start ∨ stop ≤ p)
    (hn : n ≤ start ∨ stop ≤ n) : ∀ p ∈ ps.map (min · n), p ≤ start ∨ stop ≤ p := by
  intro p hp
  obtain ⟨q, hq, rfl⟩ := List.mem_map.mp hp
  have := hps q hq
  omega

namespace Fixed

theorem isInfix (h : Fixed piece o) : piece <:+: o.text := by
  obtain ⟨start, hheld, -⟩ := h
  exact hheld.isInfix

theorem grows (h : Fixed piece o) (hg : Grows o o') : Fixed piece o' := by
  induction hg with
  | of_eq hchunks hpoints =>
    obtain ⟨start, hheld, hps⟩ := h
    exact ⟨start, hchunks ▸ hheld, hpoints ▸ hps⟩
  | emitChars o cs =>
    cases cs with
    | nil => exact h
    | cons c cs =>
      obtain ⟨start, hheld, hps⟩ := h
      exact ⟨start, hheld.push (c :: cs), hps⟩
  | trimBlanks o =>
    obtain ⟨start, hheld, hps⟩ := h
    have hlt := hheld.trimEnd.lt_length
    refine ⟨start, hheld.trimEnd, outside_clamp hps (.inr ?_)⟩
    rw [Chunks.length_eq]
    exact hlt.le
  | @dropTab o htab =>
    obtain ⟨start, hheld, hps⟩ := h
    have hheld := hheld.dropTab
      ((List.isSuffixOf_iff_suffix.mp htab).trans (o.chunks.lastChunks_suffix _))
    have hlt := hheld.lt_length
    refine ⟨start, hheld, outside_clamp hps (.inr ?_)⟩
    rw [Chunks.length_eq]
    exact hlt.le
  | trans _ _ ihFirst ihRest => exact ihRest (ihFirst h)

theorem separate (h : Fixed piece o) : Fixed piece o.terminatorToSeparator := by
  obtain ⟨start, hheld, hps⟩ := h
  unfold terminatorToSeparator
  split
  · rename_i text htext
    obtain ⟨hnew, hcut⟩ := hheld.separate htext
    have hclamp := outside_clamp hps (n := (o.dropTail o.tail.length).chunks.length)
      (by rw [Chunks.length_eq]; exact hcut)
    cases text with
    | nil =>
      obtain ⟨_, _, -, hnil, -⟩ := separate?_eq_some htext
      simp at hnil
    | cons c cs => exact ⟨start, hnew, hclamp⟩
  · exact ⟨start, hheld, hps⟩

theorem push (h : Fixed piece o) : Fixed piece o.pushPoint := by
  obtain ⟨start, hheld, hps⟩ := h
  refine ⟨start, hheld, ?_⟩
  intro p hp
  rcases List.mem_cons.mp hp with rfl | hp
  · right
    rw [Chunks.length_eq]
    exact hheld.lt_length.le
  · exact hps p hp

theorem pop (h : Fixed piece o) : Fixed piece o.popPoint := by
  obtain ⟨start, hheld, hps⟩ := h
  exact ⟨start, hheld, fun p hp => hps p (List.mem_of_mem_drop hp)⟩

theorem insertAt {depth p : Nat} (h : Fixed piece o) (hne : piece ≠ []) (hs : Stacked o)
    (hp : o.points[depth]? = some p) (cs : List Char) : Fixed piece (o.insertAt depth cs) := by
  by_cases hcs : cs = []
  · rw [hcs]
    exact h
  · obtain ⟨start, hheld, hps⟩ := h
    obtain ⟨hnewer, holder⟩ := hs.around hp
    unfold Fixed
    rw [chunks_insertAt hp hcs, (insertAt_eq hp cs).2]
    rcases hps p (List.mem_of_getElem? hp) with hle | hge
    · refine ⟨start + cs.length, hheld.splice_before cs hle, ?_⟩
      intro q hq
      rcases List.mem_append.mp hq with hq | hq
      · obtain ⟨r, hr, rfl⟩ := List.mem_map.mp hq
        have := hps r (List.mem_of_mem_take hr)
        omega
      · have := holder q hq
        omega
    · refine ⟨start, hheld.splice_behind cs hne hge, ?_⟩
      intro q hq
      rcases List.mem_append.mp hq with hq | hq
      · obtain ⟨r, hr, rfl⟩ := List.mem_map.mp hq
        have := hnewer r hr
        omega
      · exact hps q (List.mem_of_mem_drop hq)

end Fixed

/-- Text that goes in before something hard is fixed. -/
theorem fixed_insertAt {p : Nat} {ps : List Nat} {cs : List Char} (hs : Stacked o)
    (hps : o.points = p :: ps) (hcs : cs ≠ []) (hhard : HardBehind p o) :
    Fixed cs (o.insertAt 0 cs) := by
  have hp : o.points[0]? = some p := by
    rw [hps]
    rfl
  have hle : p ≤ o.text.length := hs.bounded p (List.mem_of_getElem? hp)
  unfold Fixed
  rw [chunks_insertAt hp hcs, (insertAt_eq hp cs).2]
  exact ⟨p, Chunks.holds_splice cs hle hhard, fun q hq => .inl ((hs.around hp).2 q hq)⟩

namespace HardBehind

variable {offset : Nat}

theorem revises (h : HardBehind offset o) (hr : Revises o o') : HardBehind offset o' := by
  obtain ⟨c, hc, hhard⟩ := h
  obtain ⟨kept, blanks, added, ho, hblank, ho', -, -⟩ := hr
  refine ⟨c, ?_, hhard⟩
  rw [ho, List.drop_append] at hc
  rw [ho', List.drop_append]
  rcases List.mem_append.mp hc with hc | hc
  · exact List.mem_append_left _ hc
  · simp [isSoft, hblank c (List.mem_of_mem_drop hc)] at hhard

theorem separate (h : HardBehind offset o) : HardBehind offset o.terminatorToSeparator := by
  unfold terminatorToSeparator
  split
  · rename_i text htext
    obtain ⟨before, behind, htail, rfl, hbehind⟩ := separate?_eq_some htext
    obtain ⟨start, hstart⟩ := o.tail_suffix
    have hcut : (o.dropTail o.tail.length).text = start := by
      rw [text_dropTail, ← hstart]
      simp
    obtain ⟨c, hc, hhard⟩ := h
    -- The last hard character is the semicolon, whose place the comma takes.
    have hoffset : offset ≤ (start ++ before).length := by
      by_contra hlt
      obtain ⟨more, hmore⟩ := Nat.exists_eq_add_of_lt (Nat.not_le.mp hlt)
      rw [← hstart, htail, ← List.append_assoc, hmore, Nat.add_assoc, List.drop_length_add_append,
        List.drop_succ_cons] at hc
      have hsoft : isSoft c = true := by
        simpa [isSoft] using hbehind c (List.mem_of_mem_drop hc)
      simp [hsoft] at hhard
    refine ⟨',', ?_, by decide⟩
    rw [text_emitChars, hcut, ← List.append_assoc, List.drop_append_of_le_length hoffset]
    simp
  · exact h

theorem insertAt {depth p : Nat} (h : HardBehind offset o) (hp : o.points[depth]? = some p)
    (cs : List Char) : HardBehind offset (o.insertAt depth cs) := by
  obtain ⟨c, hc, hhard⟩ := h
  refine ⟨c, ?_, hhard⟩
  have hsub : o.text.Sublist (o.text.take p ++ cs ++ o.text.drop p) := by
    nth_rw 1 [← List.take_append_drop p o.text]
    exact (List.sublist_append_left _ cs).append (List.Sublist.refl _)
  rw [(insertAt_eq hp cs).1]
  exact (hsub.drop offset).subset hc

end HardBehind

theorem Stacked.grows (hs : Stacked o) (hg : Grows o o') : Stacked o' := by
  refine ⟨?_, hg.revises.bounded hs.bounded⟩
  have hsorted := hs.sorted
  clear hs
  induction hg with
  | of_eq _ hpoints => exact hpoints ▸ hsorted
  | emitChars o cs =>
    rw [points_emitChars]
    exact hsorted
  | trimBlanks o => exact pairwise_clamp hsorted _
  | dropTab _ => exact pairwise_clamp hsorted _
  | trans _ _ ihFirst ihRest => exact ihRest (ihFirst hsorted)

/-- What holds of an output, whatever is done to it. -/
structure Invariant (P : Output → Prop) : Prop where
  grows {o o' : Output} : P o → Grows o o' → P o'
  separate {o : Output} : P o → P o.terminatorToSeparator
  push {o : Output} : P o → P o.pushPoint
  pop {o : Output} : P o → P o.popPoint
  insertAt {o : Output} {depth p : Nat} :
    P o → Stacked o → o.points[depth]? = some p → ∀ cs, P (o.insertAt depth cs)

/-- All this goes along with the order of the points. -/
theorem Invariant.stacked {P : Output → Prop} (hP : Invariant P) :
    Invariant fun o => Stacked o ∧ P o where
  grows h hg := ⟨h.1.grows hg, hP.grows h.2 hg⟩
  separate h := ⟨h.1.separate, hP.separate h.2⟩
  push h := ⟨h.1.push, hP.push h.2⟩
  pop h := ⟨h.1.pop, hP.pop h.2⟩
  insertAt h hs hp cs := ⟨hs.insertAt hp cs, hP.insertAt h.2 hs hp cs⟩

theorem invariant_fixed (hne : piece ≠ []) : Invariant (Fixed piece) where
  grows := Fixed.grows
  separate := Fixed.separate
  push := Fixed.push
  pop := Fixed.pop
  insertAt h hs hp cs := h.insertAt hne hs hp cs

theorem invariant_hardBehind (offset : Nat) : Invariant (HardBehind offset) where
  grows h hg := h.revises hg.revises
  separate := HardBehind.separate
  push h := h
  pop h := h
  insertAt h _ hp cs := h.insertAt hp cs

end Output
end EcmaPhp
