import EcmaPhp.Emit.Literal
import EcmaPhp.Proofs.Php.StringLiteral
import Mathlib.Data.List.Basic

/-! The values of string literals. From what is emitted for a literal, PHP reads the text that the
literal denotes. -/
namespace EcmaPhp
open Literal Php

namespace Text.Utf16

/-- A code point in UTF-16. -/
def encodePoint (n : Nat) : List UInt16 :=
  if n < 0x10000 then [.ofNat n]
  else [.ofNat (0xD800 + (n - 0x10000) / 0x400), .ofNat (0xDC00 + (n - 0x10000) % 0x400)]

def encode (text : List Char) : List UInt16 := text.flatMap fun c => encodePoint c.toNat

end Text.Utf16

/-- A piece of a string literal between its quotes. -/
inductive StringPiece where
  | plain (c : Char)
  /-- A backslash and one character. -/
  | escape (c : Char)
  /-- A backslash at the end of a line. -/
  | continuation
  | hex (a b : Char)
  | unicode (a b c d : Char)
  /-- A code point in braces. -/
  | braced (digits : List Char)
  deriving DecidableEq, Repr

namespace StringPiece

def text : StringPiece → List Char
  | .plain c => [c]
  | .escape c => ['\\', c]
  | .continuation => ['\\', '\n']
  | .hex a b => ['\\', 'x', a, b]
  | .unicode a b c d => ['\\', 'u', a, b, c, d]
  | .braced digits => '\\' :: 'u' :: '\x7b' :: digits ++ ['\x7d']

/-- The character that a backslash and a character denote. -/
def escaped : Char → Char
  | 'n' => '\n'
  | 'r' => '\r'
  | 't' => '\t'
  | 'v' => '\x0b'
  | 'f' => '\x0c'
  | 'b' => '\x08'
  | c => c

/-- The code points that a piece denotes; a surrogate counts as one. -/
def points : StringPiece → List Nat
  | .plain c => [c.toNat]
  | .escape c => [(escaped c).toNat]
  | .continuation => []
  | .hex a b => [numeral 16 [a, b]]
  | .unicode a b c d => [numeral 16 [a, b, c, d]]
  | .braced digits => [numeral 16 digits]

/-- The value of a piece, in units of UTF-16. -/
def units (p : StringPiece) : List UInt16 := p.points.flatMap Text.Utf16.encodePoint

def isLineTerminator (c : Char) : Bool := ['\n', '\r', '\u2028', '\u2029'].contains c

/-- What can stand between the quotes of a literal. -/
def Valid (quote : Char) : StringPiece → Prop
  | .plain c => c ≠ '\\' ∧ c ≠ quote ∧ isLineTerminator c = false
  | .escape c => c.isDigit = false ∧ c ≠ 'x' ∧ c ≠ 'u' ∧ isLineTerminator c = false
  | .continuation => True
  | .hex a b => ∀ c ∈ [a, b], isHex c = true
  | .unicode a b c d => ∀ e ∈ [a, b, c, d], isHex e = true
  | .braced digits =>
    digits ≠ [] ∧ (∀ c ∈ digits, isHex c = true) ∧ numeral 16 digits ≤ 0x10FFFF

instance (quote : Char) : (p : StringPiece) → Decidable (p.Valid quote)
  | .plain _ => instDecidableAnd
  | .escape _ => instDecidableAnd
  | .continuation => instDecidableTrue
  | .hex _ _ => List.decidableBAll _ _
  | .unicode _ _ _ _ => List.decidableBAll _ _
  -- left to itself, `∀ c ∈ digits` may be decided by a search over all characters
  | .braced _ => @instDecidableAnd _ _ _ (@instDecidableAnd _ _ (List.decidableBAll _ _) _)

/-- A piece that denotes the same in bytes as in code points: what it gives by number is a byte of
its own in UTF-8, or a code point that is no surrogate. -/
def IsText : StringPiece → Prop
  | .hex a b => numeral 16 [a, b] < 0x80
  | .unicode a b c d => (numeral 16 [a, b, c, d]).isValidChar
  | .braced digits => (numeral 16 digits).isValidChar
  | _ => True

instance : (p : StringPiece) → Decidable p.IsText
  | .hex _ _ => Nat.decLt _ _
  | .unicode _ _ _ _ | .braced _ => instDecidableOr
  | .plain _ | .escape _ | .continuation => instDecidableTrue

/-- A piece that denotes characters: what it gives by number is no surrogate. -/
def IsScalar (p : StringPiece) : Prop := ∀ n ∈ p.points, n.isValidChar

instance (p : StringPiece) : Decidable p.IsScalar :=
  inferInstanceAs (Decidable (∀ n ∈ p.points, n.isValidChar))

def chars (p : StringPiece) : List Char := p.points.map Char.ofNat

/-- A piece as it is emitted between double quotes. -/
def php : StringPiece → List Char
  | .plain c => if c = '$' || c = '"' then ['\\', c] else [c]
  | .escape c => escapeOf c
  | .continuation => []
  | .hex a b => text (.hex a b)
  | .unicode a b c d => ['\\', 'u', '\x7b', a, b, c, d, '\x7d']
  | .braced digits => text (.braced digits)

variable {quote : Char} {p : StringPiece}

theorem IsText.isScalar (h : p.IsText) : p.IsScalar := by
  intro n hn
  cases p with
  | plain c =>
    obtain rfl := List.mem_singleton.mp hn
    exact c.valid
  | escape c =>
    obtain rfl := List.mem_singleton.mp hn
    exact (escaped c).valid
  | continuation => cases hn
  | hex a b =>
    obtain rfl := List.mem_singleton.mp hn
    exact Or.inl (Nat.lt_trans h (by decide))
  | unicode a b c d =>
    obtain rfl := List.mem_singleton.mp hn
    exact h
  | braced digits =>
    obtain rfl := List.mem_singleton.mp hn
    exact h

theorem toNat_ofNat (h : p.IsScalar) {n : Nat} (hn : n ∈ p.points) : (Char.ofNat n).toNat = n := by
  rw [Char.ofNat, dif_pos (h n hn)]
  rfl

/-- In UTF-16, the value of a piece is the text that it denotes. -/
theorem IsScalar.units_eq (h : p.IsScalar) : p.units = Text.Utf16.encode p.chars := by
  rw [units, Text.Utf16.encode, chars, List.flatMap_map]
  apply List.flatMap_congr
  intro n hn
  rw [toNat_ofNat h hn]

theorem units_eq_encode (h : p.IsText) : p.units = Text.Utf16.encode p.chars := h.isScalar.units_eq

theorem encode_chars (h : p.IsScalar) : Text.Utf8.encode p.chars = p.points.flatMap utf8 := by
  rw [Text.Utf8.encode, chars, List.flatMap_map]
  apply List.flatMap_congr
  intro n hn
  rw [← utf8_toNat, toNat_ofNat h hn]

/-- The bytes that PHP reads from a piece as it is emitted. Two digits give one byte. -/
def phpBytes : StringPiece → List UInt8
  | .hex a b => [.ofNat (numeral 16 [a, b])]
  | p => p.points.flatMap utf8

theorem phpBytes_eq (h : p.IsText) : p.phpBytes = Text.Utf8.encode p.chars := by
  rw [encode_chars h.isScalar]
  cases p with
  | hex a b =>
    have hbyte : numeral 16 [a, b] ≤ 0x7F := Nat.le_of_lt_succ h
    simp [phpBytes, points, utf8, hbyte]
  | _ => rfl

theorem encode_flatMap_chars (ps : List StringPiece) :
    Text.Utf8.encode (ps.flatMap chars) = ps.flatMap fun p => Text.Utf8.encode p.chars := by
  simp [Text.Utf8.encode, List.flatMap_assoc]

section DoubleQuoted

/-- Characters that mean nothing special between double quotes stay as they are. -/
theorem doubleQuotedBody_append {cs : List Char} (h : ∀ c ∈ cs, c ≠ '\\' ∧ c ≠ '$' ∧ c ≠ '"')
    (more : List Char) : doubleQuotedBody (cs ++ more) = cs ++ doubleQuotedBody more := by
  induction cs with
  | nil => rfl
  | cons c rest ih =>
    obtain ⟨⟨hslash, hdollar, hquote⟩, hrest⟩ := List.forall_mem_cons.mp h
    rw [List.cons_append, doubleQuotedBody]
    · simp [hdollar, hquote, ih hrest]
    · exact fun heq => absurd heq hslash
    · exact fun _ _ heq => absurd heq hslash

theorem ne_special_of_isHex {c : Char} (h : isHex c = true) : c ≠ '\\' ∧ c ≠ '$' ∧ c ≠ '"' := by
  refine ⟨?_, ?_, ?_⟩ <;>
  · rintro rfl
    exact absurd h (by decide)

theorem doubleQuotedBody_escape {c : Char} (hx : c ≠ 'x') (hu : c ≠ 'u') (more : List Char) :
    doubleQuotedBody ('\\' :: c :: more) = escapeOf c ++ doubleQuotedBody more := by
  rw [doubleQuotedBody.eq_def]
  simp only [hx, hu, decide_false, Bool.false_and, Bool.false_eq_true, if_false]
  split <;> rfl

theorem doubleQuotedBody_text (h : p.Valid quote) (more : List Char) :
    doubleQuotedBody (p.text ++ more) = p.php ++ doubleQuotedBody more := by
  cases p with
  | plain c =>
    rw [text, php, List.singleton_append, doubleQuotedBody]
    · split <;> rfl
    · exact fun heq => absurd heq h.1
    · exact fun _ _ heq => absurd heq h.1
  | escape c => exact doubleQuotedBody_escape h.2.1 h.2.2.1 more
  | continuation => exact doubleQuotedBody_escape (by decide) (by decide) more
  | hex a b =>
    have hdigits : doubleQuotedBody (a :: b :: more) = a :: b :: doubleQuotedBody more :=
      doubleQuotedBody_append (fun c hc => ne_special_of_isHex (h c hc)) more
    obtain ⟨ha, hb⟩ : isHex a = true ∧ isHex b = true := by simpa [Valid] using h
    rw [doubleQuotedBody.eq_def]
    simp [text, php, ha, hb, hdigits]
  | unicode a b c d =>
    have hbraced : startsBraced (a :: b :: c :: d :: more) = false := by
      rw [startsBraced]
      intro rest heq
      obtain ⟨rfl, -⟩ := List.cons.inj heq
      exact absurd (h '\x7b' List.mem_cons_self) (by decide)
    obtain ⟨ha, hb, hc, hd⟩ :
        isHex a = true ∧ isHex b = true ∧ isHex c = true ∧ isHex d = true := by
      simpa [Valid] using h
    rw [doubleQuotedBody.eq_def]
    simp [text, php, hbraced, ha, hb, hc, hd]
  | braced digits =>
    obtain ⟨hne, hhex, -⟩ := h
    have hclosed : isHex '\x7d' = false := by decide
    have hbraced : startsBraced ('\x7b' :: (digits ++ '\x7d' :: more)) = true := by
      rw [startsBraced, List.takeWhile_append_of_pos hhex, List.dropWhile_append_of_pos hhex]
      simp [hclosed, hne]
    have hdigits : doubleQuotedBody ('\x7b' :: (digits ++ '\x7d' :: more)) =
        '\x7b' :: (digits ++ '\x7d' :: doubleQuotedBody more) := by
      have hplain : ∀ c ∈ '\x7b' :: (digits ++ ['\x7d']), c ≠ '\\' ∧ c ≠ '$' ∧ c ≠ '"' := by
        intro c hc
        simp only [List.mem_cons, List.mem_append, List.not_mem_nil, or_false] at hc
        rcases hc with rfl | hc | rfl
        · decide
        · exact ne_special_of_isHex (hhex c hc)
        · decide
      simpa using doubleQuotedBody_append hplain more
    rw [doubleQuotedBody.eq_def]
    simp [text, php, hbraced, hdigits]

/-- No piece is emitted as a dollar that begins an expression. -/
theorem head?_php (p : StringPiece) : p.php.head? ≠ some '$' := by
  cases p with
  | plain c =>
    rw [php]
    split
    · simp
    · rename_i hc
      rintro heq
      simp_all
  | escape c =>
    rw [php, escapeOf]
    split
    · simp
    · split
      · simp
      · split
        · simp
        · rename_i hspecial _ _
          rintro heq
          obtain rfl : c = '$' := by simpa using heq
          exact absurd hspecial (by decide)
  | continuation => simp [php]
  | hex a b => simp [php, text]
  | unicode a b c d => simp [php]
  | braced digits => simp [php, text]

theorem denotes_plain {c : Char} (h : (plain c).Valid quote) :
    Denotes (plain c).php (utf8 c.toNat) := by
  rw [php]
  split
  · rename_i hspecial
    obtain rfl | rfl : c = '$' ∨ c = '"' := by simpa using hspecial
    · exact .simple rfl
    · exact .simple rfl
  · rename_i hplain
    obtain ⟨hdollar, hquote⟩ : c ≠ '$' ∧ c ≠ '"' := by simpa using hplain
    exact .char hquote h.1 hdollar

theorem escaped_eq_self {c : Char} (hkept : ¬ "nrtvf\\0\"$".toList.contains c = true)
    (hb : c ≠ 'b') :
    escaped c = c := by
  unfold escaped
  split
  case h_6 => exact absurd rfl hb
  case h_7 => rfl
  all_goals exact absurd hkept (by decide)

theorem denotes_escape {c : Char} (h : (escape c).Valid quote) :
    Denotes (escape c).php (utf8 (escaped c).toNat) := by
  obtain ⟨hdigit, -, -, hline⟩ := h
  rw [php, escapeOf]
  split
  · rename_i hkept
    have hc : c = 'n' ∨ c = 'r' ∨ c = 't' ∨ c = 'v' ∨ c = 'f' ∨ c = '\\' ∨ c = '0' ∨ c = '"' ∨
        c = '$' := by simpa using hkept
    rcases hc with rfl | rfl | rfl | rfl | rfl | rfl | rfl | rfl | rfl
    case inr.inr.inr.inr.inr.inr.inl => exact absurd hdigit (by decide)
    all_goals exact .simple rfl
  · rename_i hkept
    split
    · rename_i hb
      subst hb
      exact .hex (a := '0') (b := '8') rfl rfl
    · rename_i hb
      have hnewline : c ≠ '\n' := by
        rintro rfl
        exact absurd hline (by decide)
      rw [if_neg hnewline, escaped_eq_self hkept hb]
      apply Denotes.char
      all_goals
        rintro rfl
        exact absurd hkept (by decide)

theorem digitValue_lt {c : Char} (h : isHex c = true) : digitValue c < 16 := by
  simp only [isHex, Bool.or_eq_true, Bool.and_eq_true, decide_eq_true_eq, Char.le_def,
    UInt32.le_iff_toNat_le] at h
  simp only [digitValue, Char.le_def, UInt32.le_iff_toNat_le, Char.toNat]
  simp only [Char.reduceVal, UInt32.reduceToNat] at h ⊢
  grind

theorem numeral_four_lt {a b c d : Char} (h : ∀ e ∈ [a, b, c, d], isHex e = true) :
    numeral 16 [a, b, c, d] < 0x10000 := by
  have hlt (e : Char) (he : e ∈ [a, b, c, d]) : digitValue e < 16 := digitValue_lt (h e he)
  have ha := hlt a (by simp)
  have hb := hlt b (by simp)
  have hc := hlt c (by simp)
  have hd := hlt d (by simp)
  simp only [numeral, List.foldl_cons, List.foldl_nil]
  omega

theorem denotes_php (h : p.Valid quote) : Denotes p.php p.phpBytes := by
  cases p with
  | plain c => simpa [phpBytes, points] using denotes_plain h
  | escape c => simpa [phpBytes, points] using denotes_escape h
  | continuation => exact .nil
  | hex a b =>
    obtain ⟨ha, hb⟩ : isHex a = true ∧ isHex b = true := by simpa [Valid] using h
    exact .hex ha hb
  | unicode a b c d =>
    have hlt := numeral_four_lt h
    have hdenotes : Denotes _ (utf8 (numeral 16 [a, b, c, d])) :=
      .codePoint (List.cons_ne_nil a _) h (by omega)
    simpa [php, phpBytes, points] using hdenotes
  | braced digits => simpa [php, text, phpBytes, points] using Denotes.codePoint h.1 h.2.1 h.2.2

/-- What PHP reads from what is emitted for the pieces of a literal between double quotes. -/
theorem denotes_pieces {ps : List StringPiece} (h : ∀ p ∈ ps, p.Valid quote) :
    Denotes (doubleQuotedBody (ps.flatMap text)) (ps.flatMap phpBytes) ∧
      (doubleQuotedBody (ps.flatMap text)).head? ≠ some '$' := by
  induction ps with
  | nil => exact ⟨.nil, by simp [doubleQuotedBody]⟩
  | cons p rest ih =>
    obtain ⟨hvalid, hrest⟩ := List.forall_mem_cons.mp h
    obtain ⟨hdenotes, hhead⟩ := ih hrest
    rw [List.flatMap_cons, List.flatMap_cons, doubleQuotedBody_text hvalid]
    constructor
    · exact (denotes_php hvalid).append hdenotes hhead
    · rw [List.head?_append]
      cases hp : p.php with
      | nil => exact hhead
      | cons c cs => simpa [hp] using p.head?_php

theorem readLiteral_doubleQuoted {ps : List StringPiece} (h : ∀ p ∈ ps, p.Valid quote)
    (rest : List Char) :
    readLiteral (doubleQuoted (ps.flatMap text) ++ rest) = some (ps.flatMap phpBytes, rest) := by
  obtain ⟨hdenotes, -⟩ := denotes_pieces h
  have hread := hdenotes ('"' :: rest) (by simp)
  simpa [doubleQuoted, readLiteral, readDouble, Reading.prepend] using hread

end DoubleQuoted

section SingleQuoted

theorem isPlain_escape {c : Char} {more : List Char} (h : isPlain ('\\' :: c :: more) = true) :
    (c = '\\' ∨ c = '\'') ∧ isPlain more = true := by
  by_cases hslash : c = '\\'
  · subst hslash
    exact ⟨.inl rfl, h⟩
  · by_cases hquote : c = '\''
    · subst hquote
      exact ⟨.inr rfl, h⟩
    · rw [isPlain] at h
      · cases h
      · intro rest heq
        exact hslash (List.cons.inj heq).1
      · intro rest heq
        exact hquote (List.cons.inj heq).1

/-- A literal that is kept in its single quotes means the same there. -/
theorem readSingle_pieces {ps : List StringPiece} (h : ∀ p ∈ ps, p.Valid '\'')
    (hplain : isPlain (ps.flatMap text) = true) (rest : List Char) :
    readSingle (ps.flatMap text ++ '\'' :: rest) =
      some (ps.flatMap phpBytes, rest) := by
  induction ps with
  | nil => rfl
  | cons p more ih =>
    obtain ⟨hvalid, hmore⟩ := List.forall_mem_cons.mp h
    cases p with
    | plain c =>
      obtain ⟨hslash, hquote, -⟩ := hvalid
      have hplain : isPlain (c :: more.flatMap text) = true := hplain
      rw [isPlain] at hplain
      · change readSingle (c :: (more.flatMap text ++ '\'' :: rest)) = _
        rw [readSingle, ih hmore hplain]
        · simp [Reading.prepend, phpBytes, points, utf8_toNat]
        · exact hquote
        · exact fun _ heq => absurd heq hslash
        · exact fun _ heq => absurd heq hslash
      · exact fun _ heq => absurd heq hslash
      · exact fun _ heq => absurd heq hslash
      · exact hslash
    | escape c =>
      obtain ⟨rfl | rfl, hplain⟩ := isPlain_escape hplain
      · change readSingle ('\\' :: '\\' :: (more.flatMap text ++ '\'' :: rest)) = _
        rw [readSingle, ih hmore hplain]
        rfl
      · change readSingle ('\\' :: '\'' :: (more.flatMap text ++ '\'' :: rest)) = _
        rw [readSingle, ih hmore hplain]
        rfl
    -- No other escape is left between single quotes.
    | continuation => exact absurd (isPlain_escape hplain).1 (by decide)
    | hex a b => exact absurd (isPlain_escape hplain).1 (by decide)
    | unicode a b c d => exact absurd (isPlain_escape hplain).1 (by decide)
    | braced digits => exact absurd (isPlain_escape hplain).1 (by decide)

end SingleQuoted

/-- What PHP reads from what is emitted for a literal. -/
theorem readLiteral_pieces {ps : List StringPiece} (hquote : quote = '\'' ∨ quote = '"')
    (h : ∀ p ∈ ps, p.Valid quote) (hdefined : ps.flatMap text ≠ "undefined".toList)
    (rest : List Char) :
    readLiteral (Literal.string quote (ps.flatMap text) ++ rest) =
      some (ps.flatMap phpBytes, rest) := by
  rw [Literal.string, if_neg hdefined]
  split
  · rename_i hkept
    obtain ⟨hsingle, hplain⟩ : quote = '\'' ∧ isPlain (ps.flatMap text) = true := by
      simpa using hkept
    subst hsingle
    simpa [readLiteral] using readSingle_pieces h hplain rest
  · exact readLiteral_doubleQuoted h rest

theorem readLiteral_string {ps : List StringPiece} (hquote : quote = '\'' ∨ quote = '"')
    (h : ∀ p ∈ ps, p.Valid quote ∧ p.IsText) (hdefined : ps.flatMap text ≠ "undefined".toList)
    (rest : List Char) :
    readLiteral (Literal.string quote (ps.flatMap text) ++ rest) =
      some (Text.Utf8.encode (ps.flatMap chars), rest) := by
  rw [readLiteral_pieces hquote (fun p hp => (h p hp).1) hdefined, encode_flatMap_chars,
    List.flatMap_congr fun p hp => phpBytes_eq (h p hp).2]

end StringPiece

/-- String literals keep their value. For a literal of valid pieces that each denote text, one literal
without expressions is emitted, which ends at its last character, and PHP reads from it the text that
the pieces denote. -/
theorem string_value_kept {n : Node} {quote : Char} {ps : List StringPiece}
    (hquote : quote = '\'' ∨ quote = '"')
    (htext : n.text.toList = quote :: ps.flatMap StringPiece.text ++ [quote])
    (hpieces : ∀ p ∈ ps, p.Valid quote ∧ p.IsText)
    (hdefined : ps.flatMap StringPiece.text ≠ "undefined".toList) :
    (∀ (env : EmitEnv) (s : EmitState), (Emit.stringLiteral n).run env s =
      .ok () (s.onOutput (·.emitChars (Literal.string quote (ps.flatMap StringPiece.text))))) ∧
    ∃ value : List Char, ps.flatMap StringPiece.units = Text.Utf16.encode value ∧
      ∀ rest, readLiteral (Literal.string quote (ps.flatMap StringPiece.text) ++ rest) =
        some (Text.Utf8.encode value, rest) := by
  refine ⟨?_, ps.flatMap StringPiece.chars, ?_,
    StringPiece.readLiteral_string hquote hpieces hdefined⟩
  · intro env s
    rw [Emit.stringLiteral, Emit.stringText, htext, List.cons_append]
    simp only [List.dropLast_concat]
    rfl
  · rw [Text.Utf16.encode, List.flatMap_assoc]
    apply List.flatMap_congr
    intro p hp
    exact StringPiece.units_eq_encode (hpieces p hp).2

/-- Escapes of all kinds side by side, with a brace and a dollar that are special in PHP only. -/
def StringPiece.adjacent : List StringPiece :=
  [.unicode '0' '0' 'e' '9', .escape '\\', .plain 'u', .plain '\x7b', .plain '$', .escape '$', .plain '"',
    .hex '2' '4', .continuation, .escape 'e', .escape 'b', .plain '1', .braced "1F600".toList]

theorem string_value_kept_adjacent :
    ∃ value, StringPiece.adjacent.flatMap StringPiece.units = Text.Utf16.encode value ∧
      readLiteral ("\"\\u\x7b00e9\x7d\\\\u\x7b\\$\\$\\\"\\x24e\\x081\\u\x7b1F600\x7d\"; $x").toList =
        some (Text.Utf8.encode value, "; $x".toList) := by
  let n : Node :=
    { kind := .string
      text := "'\\u00e9\\\\u\x7b$\\$\"\\x24\\\n\\e\\b1\\u\x7b1F600\x7d'" }
  have htext : n.text.toList = '\'' :: StringPiece.adjacent.flatMap StringPiece.text ++ ['\''] := by
    decide
  obtain ⟨-, value, hunits, hread⟩ :=
    string_value_kept (.inl rfl) htext (by decide +kernel) (by decide +kernel)
  refine ⟨value, hunits, ?_⟩
  rw [← hread]
  congr 1

end EcmaPhp
