import EcmaPhp.Proofs.Literal.Verbatim
import Mathlib.Algebra.Order.BigOperators.Group.List
import Mathlib.Algebra.Order.Group.Nat
import Mathlib.Data.List.TakeWhile

/-! Names as the source spells them, as variables of PHP and between its quotes. -/
namespace EcmaPhp
open Literal Php

namespace Php

/-- A character that may stand in the name of a variable. -/
def continuesName (c : Char) : Bool := beginsName c || c.isDigit

/-- Reads a variable: its name, and the text behind it. -/
def readVariable : List Char → Option (List Char × List Char)
  | '$' :: c :: rest =>
    if beginsName c then some (c :: rest.takeWhile continuesName, rest.dropWhile continuesName)
    else none
  | _ => none

/-- A text is one variable of a name, whatever follows that cannot go on with the name. -/
def IsVariable (text name : List Char) : Prop :=
  ∀ rest, (∀ c ∈ rest.head?, continuesName c = false) → readVariable (text ++ rest) = some (name, rest)

end Php

/-- A character that may stand in a name of the source. Beyond ASCII there are more than the grammar
has. -/
def isNameChar (c : Char) : Bool :=
  c.isAlphanum || c = '_' || c = '$' ||
    (0x80 ≤ c.toNat && !StringPiece.isLineTerminator c)

namespace StringPiece

/-- A piece that may stand in a name: a character, or the escape of one. -/
def InName : StringPiece → Prop
  | .plain c => isNameChar c = true
  | .unicode a b c d => Valid '"' (.unicode a b c d) ∧ IsScalar (.unicode a b c d)
  | .braced digits => Valid '"' (.braced digits) ∧ IsScalar (.braced digits)
  | _ => False

instance : (p : StringPiece) → Decidable p.InName
  | .plain _ => instDecidableEqBool _ _
  | .unicode _ _ _ _ | .braced _ => instDecidableAnd
  | .escape _ | .continuation | .hex _ _ => instDecidableFalse

/-- A name of the source, which does not begin with a digit. -/
structure IsName (ps : List StringPiece) : Prop where
  pieces : ∀ p ∈ ps, p.InName
  first : ∃ p ∈ ps.head?, ∀ c, p = .plain c → c.isDigit = false

def isChar : StringPiece → Bool
  | .plain _ => true
  | _ => false

def isUnicode : StringPiece → Bool
  | .unicode _ _ _ _ => true
  | _ => false

/-- A character that begins the name of a variable in PHP. -/
def beginsVariable : StringPiece → Bool
  | .plain c => beginsName c
  | _ => false

/-- Whether a dollar stands before a character that makes them a variable in PHP. -/
def holdVariable : List StringPiece → Bool
  | [] => false
  | p :: rest => (p = .plain '$' && rest.head?.any beginsVariable) || holdVariable rest

variable {ps : List StringPiece} {p : StringPiece}

theorem InName.isScalar (h : p.InName) : p.IsScalar := by
  cases p with
  | plain c => exact IsText.isScalar trivial
  | unicode a b c d => exact h.2
  | braced digits => exact h.2
  | _ => cases h

theorem ne_of_isNameChar {c d : Char} (h : isNameChar c = true) (hd : isNameChar d = false) :
    c ≠ d := by
  rintro rfl
  rw [h] at hd
  cases hd

theorem InName.valid {quote : Char} (h : p.InName) (hquote : isNameChar quote = false) :
    p.Valid quote := by
  cases p with
  | plain c =>
    have hname : isNameChar c = true := h
    refine ⟨ne_of_isNameChar hname (by decide), ne_of_isNameChar hname hquote, ?_⟩
    rw [Bool.eq_false_iff]
    intro hline
    have hcases : c = '\n' ∨ c = '\r' ∨ c = '\u2028' ∨ c = '\u2029' := by
      simpa [isLineTerminator] using hline
    rcases hcases with rfl | rfl | rfl | rfl
    all_goals exact absurd hname (by decide)
  | unicode a b c d => exact h.1
  | braced digits => exact h.1
  | _ => cases h

/-- Lists that are nowhere shorter, and somewhere longer, are together different. -/
theorem flatMap_ne_flatMap {α β : Type} {l : List α} {f g : α → List β} {a : α}
    (hle : ∀ b ∈ l, (f b).length ≤ (g b).length) (ha : a ∈ l)
    (hlt : (f a).length < (g a).length) : l.flatMap g ≠ l.flatMap f := by
  intro heq
  have hsum : (l.map fun b => (f b).length).sum < (l.map fun b => (g b).length).sum :=
    List.sum_lt_sum _ _ hle ⟨a, ha, hlt⟩
  have hlength := congrArg List.length heq
  rw [List.length_flatMap, List.length_flatMap] at hlength
  omega

section DoubleQuoted

/-- Between double quotes an expression begins just where a dollar makes a variable. -/
theorem beginsExpression_name (h : ∀ q ∈ p :: ps, q.InName) (rest : List Char) :
    beginsExpression (p.text ++ (ps.flatMap text ++ '"' :: rest)) =
      (p = .plain '$' && ps.head?.any beginsVariable) := by
  obtain ⟨hp, hps⟩ := List.forall_mem_cons.mp h
  cases p with
  | plain c =>
    have hbrace : c ≠ '\x7b' := ne_of_isNameChar hp (by decide)
    by_cases hdollar : c = '$'
    · subst hdollar
      cases ps with
      | nil => rfl
      | cons q more =>
        cases q with
        | plain d =>
          have hd : d ≠ '\x7b' := ne_of_isNameChar (List.forall_mem_cons.mp hps).1 (by decide)
          simp [text, beginsExpression, beginsVariable, hd]
        | unicode a b c d => rfl
        | braced digits => rfl
        | _ => exact absurd (List.forall_mem_cons.mp hps).1 (by simp [InName])
    · have hfalse : beginsExpression (c :: (ps.flatMap text ++ '"' :: rest)) = false := by
        unfold beginsExpression
        split
        · rename_i heq
          exact absurd (List.cons.inj heq).1 hdollar
        · rename_i heq
          exact absurd (List.cons.inj heq).1 hbrace
        · rfl
      simpa [text, hdollar] using hfalse
  | unicode a b c d => rfl
  | braced digits => rfl
  | _ => cases hp

/-- What PHP reads from a name between double quotes. -/
theorem readDouble_name (h : ∀ p ∈ ps, p.InName) (rest : List Char) :
    readDouble (ps.flatMap text ++ '"' :: rest) =
      if holdVariable ps then none else some (ps.flatMap doubleBytes, rest) := by
  induction ps with
  | nil => rw [List.flatMap_nil, List.nil_append, readDouble]; rfl
  | cons p more ih =>
    obtain ⟨hp, hmore⟩ := List.forall_mem_cons.mp h
    have hbegins := beginsExpression_name h rest
    rw [List.flatMap_cons, List.append_assoc, holdVariable]
    cases hvariable : (p = .plain '$' && more.head?.any beginsVariable : Bool) with
    | true =>
      rw [hvariable] at hbegins
      rw [readDouble_eq_none hbegins]
      rfl
    | false =>
      rw [hvariable] at hbegins
      have hquote : p ≠ .plain '"' := by
        rintro rfl
        exact absurd hp (by decide)
      rw [readDouble_text (hp.valid (by decide : isNameChar '"' = false)) hquote hbegins, ih hmore,
        Bool.false_or]
      split
      · rfl
      · simp [Reading.prepend]

theorem doubleBytes_eq (h : p.InName) (hunicode : p.isUnicode = false) :
    p.doubleBytes = Text.Utf8.encode p.chars := by
  rw [encode_chars h.isScalar]
  cases p with
  | plain c => simp [doubleBytes, points, Text.Utf8.encode, utf8_toNat]
  | unicode a b c d => cases hunicode
  | braced digits => simp [doubleBytes, points]
  | _ => cases h

theorem length_lt_doubleBytes (h : p.InName) (hunicode : p.isUnicode = true) :
    (Text.Utf8.encode p.chars).length < p.doubleBytes.length := by
  rw [encode_chars h.isScalar]
  cases p with
  | unicode a b c d =>
    have hle := length_utf8_le (numeral 16 [a, b, c, d])
    have hsix := length_le_encode ['\\', 'u', a, b, c, d]
    simp only [points, doubleBytes, List.flatMap_singleton, List.length_cons, List.length_nil]
      at hsix ⊢
    omega
  | _ => cases hunicode

/-- Between double quotes a name denotes itself exactly if no dollar in it makes a variable and none
of its characters is escaped by four digits. -/
theorem isString_double_iff (h : ∀ p ∈ ps, p.InName) :
    IsString ('"' :: ps.flatMap text ++ ['"']) (ps.flatMap chars) ↔
      holdVariable ps = false ∧ ∀ p ∈ ps, p.isUnicode = false := by
  have hread (rest : List Char) : readLiteral ('"' :: ps.flatMap text ++ ['"'] ++ rest) =
      if holdVariable ps then none else some (ps.flatMap doubleBytes, rest) := by
    rw [← readDouble_name h rest]
    simp [readLiteral]
  have hle (p : StringPiece) (hp : p ∈ ps) :
      (Text.Utf8.encode p.chars).length ≤ p.doubleBytes.length := by
    cases hunicode : p.isUnicode with
    | false => rw [doubleBytes_eq (h p hp) hunicode]
    | true => exact (length_lt_doubleBytes (h p hp) hunicode).le
  constructor
  · intro hstring
    have hnil := (hread []).symm.trans (hstring [])
    split at hnil
    · cases hnil
    · rename_i hvariable
      obtain ⟨hbytes, -⟩ := Prod.mk.inj (Option.some.inj hnil)
      rw [encode_flatMap_chars] at hbytes
      refine ⟨by simpa using hvariable, fun p hp => ?_⟩
      rw [Bool.eq_false_iff]
      intro hunicode
      exact flatMap_ne_flatMap hle hp (length_lt_doubleBytes (h p hp) hunicode) hbytes
  · rintro ⟨hvariable, hunicode⟩ rest
    rw [hread, hvariable, encode_flatMap_chars, List.flatMap_congr fun p hp =>
      doubleBytes_eq (h p hp) (hunicode p hp)]
    rfl

end DoubleQuoted

section SingleQuoted

/-- What PHP reads from a name between single quotes. -/
theorem readSingle_name (h : ∀ p ∈ ps, p.InName) (rest : List Char) :
    readSingle (ps.flatMap text ++ '\'' :: rest) = some (ps.flatMap singleBytes, rest) := by
  induction ps with
  | nil => rw [List.flatMap_nil, List.nil_append, readSingle]; rfl
  | cons p more ih =>
    obtain ⟨hp, hmore⟩ := List.forall_mem_cons.mp h
    have hquote : p ≠ .plain '\'' := by
      rintro rfl
      exact absurd hp (by decide)
    rw [List.flatMap_cons, List.append_assoc,
      readSingle_text (hp.valid (by decide : isNameChar '\'' = false)) hquote, ih hmore]
    rfl

theorem singleBytes_eq (h : p.InName) (hchar : p.isChar = true) :
    p.singleBytes = Text.Utf8.encode p.chars := by
  rw [encode_chars h.isScalar]
  cases p with
  | plain c => simp [singleBytes, text, points, Text.Utf8.encode, utf8_toNat]
  | _ => cases hchar

theorem length_lt_singleBytes (h : p.InName) (hchar : p.isChar = false) :
    (Text.Utf8.encode p.chars).length < p.singleBytes.length := by
  rw [encode_chars h.isScalar]
  have hlength := length_le_encode p.text
  cases p with
  | plain c => cases hchar
  | unicode a b c d =>
    have hle := length_utf8_le (numeral 16 [a, b, c, d])
    simp only [points, singleBytes, text, List.flatMap_singleton, List.length_cons,
      List.length_nil] at hlength ⊢
    omega
  | braced digits =>
    have hle := length_utf8_le (numeral 16 digits)
    have hdigits := List.length_pos_iff.mpr h.1.1
    simp only [points, singleBytes, text, List.flatMap_singleton, List.length_cons,
      List.length_append, List.length_nil] at hlength ⊢
    omega
  | _ => cases h

/-- Between single quotes a name denotes itself exactly if none of its characters is escaped. -/
theorem isString_single_iff (h : ∀ p ∈ ps, p.InName) :
    IsString ('\'' :: ps.flatMap text ++ ['\'']) (ps.flatMap chars) ↔
      ∀ p ∈ ps, p.isChar = true := by
  have hread (rest : List Char) : readLiteral ('\'' :: ps.flatMap text ++ ['\''] ++ rest) =
      some (ps.flatMap singleBytes, rest) := by
    rw [← readSingle_name h rest]
    simp [readLiteral]
  have hle (p : StringPiece) (hp : p ∈ ps) :
      (Text.Utf8.encode p.chars).length ≤ p.singleBytes.length := by
    cases hchar : p.isChar with
    | true => rw [singleBytes_eq (h p hp) hchar]
    | false => exact (length_lt_singleBytes (h p hp) hchar).le
  constructor
  · intro hstring p hp
    obtain ⟨hbytes, -⟩ := Prod.mk.inj (Option.some.inj ((hread []).symm.trans (hstring [])))
    rw [encode_flatMap_chars] at hbytes
    by_contra hchar
    exact flatMap_ne_flatMap hle hp (length_lt_singleBytes (h p hp) (by simpa using hchar)) hbytes
  · intro hchars rest
    rw [hread, encode_flatMap_chars, List.flatMap_congr fun p hp =>
      singleBytes_eq (h p hp) (hchars p hp)]

end SingleQuoted

section Variables

theorem continuesName_of_isNameChar {c : Char} (h : isNameChar c = true) (hdollar : c ≠ '$') :
    continuesName c = true := by
  simp only [isNameChar, Char.isAlphanum, Bool.or_eq_true, decide_eq_true_eq, hdollar, or_false]
    at h
  simp only [continuesName, beginsName, Bool.or_eq_true, decide_eq_true_eq]
  grind

/-- A variable that is read to its end has only characters that may stand in its name. -/
theorem continuesName_of_readVariable {text name : List Char}
    (h : readVariable ('$' :: text) = some (name, [])) : ∀ c ∈ text, continuesName c = true := by
  cases text with
  | nil => cases h
  | cons c rest =>
    rw [readVariable] at h
    split at h
    · rename_i hbegins
      obtain ⟨-, hrest⟩ := Prod.mk.inj (Option.some.inj h)
      refine List.forall_mem_cons.mpr ⟨by simp [continuesName, hbegins], ?_⟩
      exact List.dropWhile_eq_nil_iff.mp hrest
    · cases h

theorem readVariable_append {c : Char} {cs rest : List Char} (hc : beginsName c = true)
    (hcs : ∀ d ∈ cs, continuesName d = true) (hrest : ∀ d ∈ rest.head?, continuesName d = false) :
    readVariable ('$' :: c :: cs ++ rest) = some (c :: cs, rest) := by
  have hstop : rest.takeWhile continuesName = [] ∧ rest.dropWhile continuesName = rest := by
    cases rest with
    | nil => exact ⟨rfl, rfl⟩
    | cons d more => simp [hrest d rfl]
  rw [List.cons_append, List.cons_append, readVariable, if_pos hc,
    List.takeWhile_append_of_pos hcs, List.dropWhile_append_of_pos hcs, hstop.1, hstop.2,
    List.append_nil]

theorem text_eq_chars (h : p.isChar = true) : p.text = p.chars := by
  cases p with
  | plain c => simp [text, chars, points]
  | _ => cases h

/-- A name is one variable of PHP behind a dollar exactly if it has no dollar of its own and none of
its characters is escaped. -/
theorem isVariable_iff (h : IsName ps) :
    IsVariable ('$' :: ps.flatMap text) (ps.flatMap chars) ↔
      ∀ p ∈ ps, p.isChar = true ∧ p ≠ .plain '$' := by
  constructor
  · intro hvariable p hp
    have hread := hvariable [] (by simp)
    rw [List.append_nil] at hread
    have hall (c : Char) (hc : c ∈ p.text) : continuesName c = true :=
      continuesName_of_readVariable hread c (List.mem_flatMap.mpr ⟨p, hp, hc⟩)
    have hslash : '\\' ∉ p.text := fun hmem => absurd (hall _ hmem) (by decide)
    cases p with
    | plain c =>
      refine ⟨rfl, ?_⟩
      rintro heq
      cases heq
      exact absurd (hall '$' (by simp [text])) (by decide)
    | _ => simp [text] at hslash
  · intro hplain rest hrest
    have htext : ps.flatMap text = ps.flatMap chars :=
      List.flatMap_congr fun p hp => text_eq_chars (hplain p hp).1
    have hcontinues : ∀ c ∈ ps.flatMap chars, continuesName c = true := by
      rw [← htext]
      intro c hc
      obtain ⟨p, hp, hmem⟩ := List.mem_flatMap.mp hc
      obtain ⟨hchar, hdollar⟩ := hplain p hp
      cases p with
      | plain d =>
        obtain rfl : c = d := by simpa [text] using hmem
        exact continuesName_of_isNameChar (h.pieces _ hp) fun heq => hdollar (heq ▸ rfl)
      | _ => cases hchar
    obtain ⟨p, hp, hdigit⟩ := h.first
    obtain ⟨more, rfl⟩ := List.head?_eq_some_iff.mp hp
    obtain ⟨hchar, -⟩ := hplain p List.mem_cons_self
    cases p with
    | plain c =>
      have hchars : (.plain c :: more).flatMap chars = c :: more.flatMap chars := by
        simp [chars, points]
      rw [htext, hchars]
      rw [hchars] at hcontinues
      obtain ⟨hc, hcs⟩ := List.forall_mem_cons.mp hcontinues
      have hbegins : beginsName c = true := by simpa [continuesName, hdigit c rfl] using hc
      exact readVariable_append hbegins hcs hrest
    | _ => cases hchar

theorem text_append_inj {q : StringPiece} {a b : List Char} (hp : p.InName) (hq : q.InName)
    (heq : p.text ++ a = q.text ++ b) : p = q ∧ a = b := by
  have hslash {c : Char} (hc : (plain c).InName) : c ≠ '\\' := ne_of_isNameChar hc (by decide)
  have hbrace {c : Char} (hc : isHex c = true) : c ≠ '\x7b' := by
    rintro rfl
    exact absurd hc (by decide)
  have hclosed : isHex '\x7d' = false := by decide
  cases p with
  | plain c =>
    cases q with
    | plain d =>
      obtain ⟨rfl, rfl⟩ := List.cons.inj heq
      exact ⟨rfl, rfl⟩
    | unicode => exact absurd (List.cons.inj heq).1 (hslash hp)
    | braced => exact absurd (List.cons.inj heq).1 (hslash hp)
    | _ => cases hq
  | unicode a₁ a₂ a₃ a₄ =>
    cases q with
    | plain d => exact absurd (List.cons.inj heq).1.symm (hslash hq)
    | unicode b₁ b₂ b₃ b₄ => simpa [text, and_assoc] using heq
    | braced digits =>
      obtain ⟨hfirst, -⟩ : a₁ = '\x7b' ∧ _ := by simpa [text] using heq
      exact absurd hfirst (hbrace (hp.1 a₁ List.mem_cons_self))
    | _ => cases hq
  | braced digits =>
    cases q with
    | plain d => exact absurd (List.cons.inj heq).1.symm (hslash hq)
    | unicode b₁ b₂ b₃ b₄ =>
      obtain ⟨hfirst, -⟩ : '\x7b' = b₁ ∧ _ := by simpa [text] using heq
      exact absurd hfirst.symm (hbrace (hq.1 b₁ List.mem_cons_self))
    | braced digits' =>
      have hdigits : digits ++ '\x7d' :: a = digits' ++ '\x7d' :: b := by simpa [text] using heq
      have htake := congrArg (List.takeWhile isHex) hdigits
      rw [List.takeWhile_append_of_pos hp.1.2.1, List.takeWhile_append_of_pos hq.1.2.1] at htake
      obtain rfl : digits = digits' := by simpa [hclosed] using htake
      simpa using hdigits
    | _ => cases hq
  | _ => cases hp

/-- No two names are spelled alike. -/
theorem eq_of_flatMap_text_eq {qs : List StringPiece} (hps : ∀ p ∈ ps, p.InName)
    (hqs : ∀ q ∈ qs, q.InName) (heq : ps.flatMap text = qs.flatMap text) : ps = qs := by
  have hne (p : StringPiece) : p.text ≠ [] := by cases p <;> simp [text]
  induction ps generalizing qs with
  | nil =>
    cases qs with
    | nil => rfl
    | cons q others => simp [hne] at heq
  | cons p more ih =>
    cases qs with
    | nil => simp [hne] at heq
    | cons q others =>
      obtain ⟨hp, hmore⟩ := List.forall_mem_cons.mp hps
      obtain ⟨hq, hothers⟩ := List.forall_mem_cons.mp hqs
      rw [List.flatMap_cons, List.flatMap_cons] at heq
      obtain ⟨rfl, hrest⟩ := text_append_inj hp hq heq
      rw [ih hmore hothers hrest]

end Variables

section Strings

/-- A character beyond ASCII that is given by two digits. -/
def isByte : StringPiece → Bool
  | .hex a b => 0x80 ≤ numeral 16 [a, b]
  | _ => false

theorem IsScalar.isText (h : p.IsScalar) (hbyte : p.isByte = false) : p.IsText := by
  cases p with
  | hex a b =>
    have hlt : ¬ 0x80 ≤ numeral 16 [a, b] := by simpa [isByte] using hbyte
    exact Nat.lt_of_not_le hlt
  | unicode a b c d => exact h _ List.mem_cons_self
  | braced digits => exact h _ List.mem_cons_self
  | _ => trivial

theorem length_phpBytes_lt (h : p.IsScalar) (hbyte : p.isByte = true) :
    p.phpBytes.length < (Text.Utf8.encode p.chars).length := by
  rw [encode_chars h]
  cases p with
  | hex a b =>
    have hle : ¬ numeral 16 [a, b] ≤ 0x7F := Nat.not_le.mpr (of_decide_eq_true hbyte)
    simp only [phpBytes, points, List.flatMap_singleton, utf8, if_neg hle]
    split
    · simp
    · split <;> simp
  | _ => cases hbyte

/-- PHP reads what pieces denote exactly if none of them is read as a byte. -/
theorem flatMap_phpBytes_eq_iff (h : ∀ p ∈ ps, p.IsScalar) :
    ps.flatMap phpBytes = Text.Utf8.encode (ps.flatMap chars) ↔ ∀ p ∈ ps, p.isByte = false := by
  rw [encode_flatMap_chars]
  constructor
  · intro hbytes p hp
    have hle (q : StringPiece) (hq : q ∈ ps) :
        q.phpBytes.length ≤ (Text.Utf8.encode q.chars).length := by
      cases hbyte : q.isByte with
      | false => rw [phpBytes_eq ((h q hq).isText hbyte)]
      | true => exact (length_phpBytes_lt (h q hq) hbyte).le
    rw [Bool.eq_false_iff]
    intro hbyte
    exact flatMap_ne_flatMap hle hp (length_phpBytes_lt (h p hp) hbyte) hbytes.symm
  · intro hbytes
    exact List.flatMap_congr fun p hp => phpBytes_eq ((h p hp).isText (hbytes p hp))

/-- A body without escapes is spelled as what it denotes. -/
theorem text_eq_chars_of_not_mem (h : '\\' ∉ ps.flatMap text) :
    ps.flatMap text = ps.flatMap chars := by
  apply List.flatMap_congr
  intro p hp
  apply text_eq_chars
  have hslash : '\\' ∉ p.text := fun hmem => h (List.mem_flatMap.mpr ⟨p, hp, hmem⟩)
  cases p with
  | plain c => rfl
  | _ => simp [text] at hslash

/-- The literal that is emitted for a string denotes its text exactly if it is not the name of the
undefined value and no character beyond ASCII is given by two digits. -/
theorem isString_string_iff {quote : Char} (hquote : quote = '\'' ∨ quote = '"')
    (h : ∀ p ∈ ps, p.Valid quote ∧ p.IsScalar) :
    IsString (Literal.string quote (ps.flatMap text)) (ps.flatMap chars) ↔
      ps.flatMap text ≠ "undefined".toList ∧ ∀ p ∈ ps, p.isByte = false := by
  by_cases hdefined : ps.flatMap text = "undefined".toList
  · have hchars : ps.flatMap chars = "undefined".toList := by
      rw [← text_eq_chars_of_not_mem (by rw [hdefined]; decide), hdefined]
    rw [hdefined, hchars]
    simp only [ne_eq, not_true, false_and, iff_false]
    intro hstring
    rcases hquote with rfl | rfl
    · exact absurd (hstring []) (by decide +kernel)
    · exact absurd (hstring []) (by decide +kernel)
  have hread := readLiteral_pieces hquote (fun p hp => (h p hp).1) hdefined
  have hiff := flatMap_phpBytes_eq_iff fun p hp => (h p hp).2
  constructor
  · intro hstring
    obtain ⟨hbytes, -⟩ := Prod.mk.inj (Option.some.inj ((hread []).symm.trans (hstring [])))
    exact ⟨hdefined, hiff.mp hbytes⟩
  · rintro ⟨-, hbytes⟩ rest
    rw [hread, hiff.mpr hbytes]

end Strings

end StringPiece
end EcmaPhp
