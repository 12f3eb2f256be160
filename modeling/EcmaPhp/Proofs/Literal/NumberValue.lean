import EcmaPhp.Literal.Regex
import EcmaPhp.Proofs.Literal.Verbatim
import Mathlib.Data.List.TakeWhile
import Mathlib.Data.Rat.Defs

/-! The values of number literals. PHP reads the same number from what is emitted for a literal, but
it knows no decimal that begins with a zero like an octal one. -/
namespace EcmaPhp
open Literal

namespace Php

def isDigitOf (base : Nat) (c : Char) : Bool := isHex c && digitValue c < base

def digits? (base : Nat) (text : List Char) : Option Nat :=
  if text ≠ [] && text.all (isDigitOf base) then some (numeral base text) else none

/-- Reads the digits behind the mark of an exponent. -/
def exponent? : List Char → Option Int
  | '+' :: digits => (digits? 10 digits).map Int.ofNat
  | '-' :: digits => (digits? 10 digits).map fun n => -Int.ofNat n
  | digits => (digits? 10 digits).map Int.ofNat

def isExponentMark (c : Char) : Bool := c = 'e' || c = 'E'

/-- Reads digits with a point among them: their number, and how many stand behind the point. -/
def mantissa? (text : List Char) : Option (Nat × Nat) :=
  let fraction := (text.dropWhile (· != '.')).drop 1
  (digits? 10 (text.takeWhile (· != '.') ++ fraction)).map (·, fraction.length)

def decimal (mantissa : Nat × Nat) (exponent : Int) : ℚ :=
  mantissa.1 * (10 : ℚ) ^ (exponent - mantissa.2)

/-- Reads a decimal that may have a point and an exponent. -/
def decimal? (text : List Char) : Option ℚ :=
  match mantissa? (text.takeWhile (!isExponentMark ·)), text.dropWhile (!isExponentMark ·) with
  | some m, [] => some (decimal m 0)
  | some m, _ :: digits => (exponent? digits).map (decimal m)
  | none, _ => none

/-- The base that a letter behind a zero announces. -/
def baseOf? (mark : Char) : Option Nat :=
  if mark = 'x' || mark = 'X' then some 16
  else if mark = 'o' || mark = 'O' then some 8
  else if mark = 'b' || mark = 'B' then some 2
  else none

/-- Reads a number. Digits behind a zero are octal, unless there is a point or an exponent. -/
def number? (text : List Char) : Option ℚ :=
  match text with
  | '0' :: mark :: digits =>
    match baseOf? mark with
    | some base => (digits? base digits).map (↑)
    | none =>
      if (mark :: digits).all Char.isDigit then (digits? 8 (mark :: digits)).map (↑)
      else decimal? text
  | _ => decimal? text

end Php

/-- The exponent of a number. -/
structure Exponent where
  mark : Char
  sign : Option Char
  digits : List Char

/-- A number as the source writes it, with separators among its digits. -/
inductive NumberLiteral where
  /-- Digits behind a zero and the letter of a base. -/
  | based (mark : Char) (digits : List Char) (big : Bool)
  | integer (digits : List Char) (big : Bool)
  /-- Digits with a point or an exponent. -/
  | decimal (whole : List Char) (fraction : Option (List Char)) (exponent : Option Exponent)

namespace Exponent

def text (e : Exponent) : List Char := e.mark :: e.sign.toList ++ e.digits

end Exponent

namespace NumberLiteral

/-- Digits without their separators. -/
def bare (digits : List Char) : List Char := digits.filter (· != '_')

def text : NumberLiteral → List Char
  | .based mark digits big => '0' :: mark :: digits ++ if big then ['n'] else []
  | .integer digits big => digits ++ if big then ['n'] else []
  | .decimal whole fraction exponent =>
    whole ++ (fraction.elim [] ('.' :: ·)) ++ (exponent.elim [] Exponent.text)

/-- Digits that look octal and are not. -/
def isFalseOctal : NumberLiteral → Bool
  | .integer digits _ =>
    match bare digits with
    | '0' :: more => more ≠ [] && !more.all Php.isOctal
    | _ => false
  | _ => false

/-- The number that digits denote: those behind a zero are octal, if they can be. -/
def integerValue (digits : List Char) : Nat :=
  match bare digits with
  | '0' :: more =>
    if more.all Php.isOctal then Php.numeral 8 more else Php.numeral 10 more
  | plain => Php.numeral 10 plain

def exponentValue : Option Exponent → Int
  | none => 0
  | some e =>
    if e.sign = some '-' then -(Php.numeral 10 (bare e.digits) : Int)
    else Php.numeral 10 (bare e.digits)

/-- The number that a literal denotes. -/
def value : NumberLiteral → ℚ
  | .based mark digits _ => Php.numeral ((Php.baseOf? mark).getD 10) (bare digits)
  | .integer digits _ => integerValue digits
  | .decimal whole fraction exponent =>
    let behind := bare (fraction.getD [])
    Php.numeral 10 (bare whole ++ behind) * (10 : ℚ) ^ (exponentValue exponent - behind.length)

/-- Digits of a base with separators among them. -/
def Digits (base : Nat) (digits : List Char) : Prop :=
  ∀ c ∈ bare digits, Php.isDigitOf base c = true

instance (base : Nat) (digits : List Char) : Decidable (Digits base digits) :=
  List.decidableBAll _ _

def Valid : NumberLiteral → Prop
  | .based mark digits _ =>
    ∃ base, Php.baseOf? mark = some base ∧ Digits base digits ∧ bare digits ≠ []
  | .integer digits _ => Digits 10 digits ∧ bare digits ≠ []
  | .decimal whole fraction exponent =>
    Digits 10 whole ∧ Digits 10 (fraction.getD []) ∧ bare whole ++ bare (fraction.getD []) ≠ [] ∧
      (fraction.isSome = true ∨ exponent.isSome = true) ∧
      ∀ e ∈ exponent, Php.isExponentMark e.mark = true ∧ (∀ c ∈ e.sign, c = '+' ∨ c = '-') ∧
        Digits 10 e.digits ∧ bare e.digits ≠ []

/-- A literal as it is emitted. -/
def php : NumberLiteral → List Char
  | .based mark digits _ => '0' :: mark :: bare digits
  | .integer digits _ => bare digits
  | .decimal whole fraction exponent =>
    bare whole ++ fraction.elim [] ('.' :: bare ·) ++
      exponent.elim [] fun e => e.mark :: e.sign.toList ++ bare e.digits

def isBig : NumberLiteral → Bool
  | .based _ _ big | .integer _ big => big
  | .decimal _ _ _ => false

variable {l : NumberLiteral}

section Digits

open Php

theorem isDigitOf_ten (c : Char) : isDigitOf 10 c = c.isDigit := by
  simp only [isDigitOf, isHex, digitValue, Char.isDigit, Char.le_def, UInt32.le_iff_toNat_le,
    Char.toNat, Char.reduceVal, UInt32.reduceToNat, ge_iff_le]
  grind

theorem isDigitOf_eight (c : Char) : isDigitOf 8 c = isOctal c := by
  simp only [isDigitOf, isHex, digitValue, isOctal, Char.le_def, UInt32.le_iff_toNat_le,
    Char.toNat, Char.reduceVal, UInt32.reduceToNat]
  grind

theorem Digits.isDigit {digits : List Char} (h : Digits 10 digits) {c : Char}
    (hc : c ∈ bare digits) : c.isDigit = true := by
  rw [← isDigitOf_ten]
  exact h c hc

theorem ne_of_isDigit {c d : Char} (h : c.isDigit = true) (hd : d.isDigit = false) : c ≠ d := by
  rintro rfl
  rw [h] at hd
  cases hd

/-- A letter that announces a base has no place in a decimal number. -/
theorem not_decimal_of_mem_letters {c : Char} (h : c ∈ ['x', 'X', 'o', 'O', 'b', 'B']) :
    c.isDigit = false ∧ c ∉ ['.', 'e', 'E', '+', '-'] := by
  have hall : ['x', 'X', 'o', 'O', 'b', 'B'].all fun d =>
      !d.isDigit && !(['.', 'e', 'E', '+', '-'].contains d) := by decide
  simpa using List.all_eq_true.mp hall c h

/-- The letters that announce a base. -/
theorem mem_of_baseOf? {mark : Char} {base : Nat} (h : baseOf? mark = some base) :
    mark ∈ ['x', 'X', 'o', 'O', 'b', 'B'] := by
  unfold baseOf? at h
  grind

theorem mem_of_isExponentMark {c : Char} (h : isExponentMark c = true) : c ∈ ['e', 'E'] := by
  simpa [isExponentMark] using h

end Digits

/-- Separators stand among the digits only. -/
theorem filter_text (h : l.Valid) :
    l.text.filter (· != '_') = l.php ++ if l.isBig then ['n'] else [] := by
  cases l with
  | based mark digits big =>
    obtain ⟨base, hbase, -⟩ := h
    have hmark : mark ≠ '_' := fun heq => absurd (mem_of_baseOf? hbase) (by rw [heq]; decide)
    cases big <;> simp [text, php, isBig, bare, hmark]
  | integer digits big => cases big <;> simp [text, php, isBig, bare]
  | decimal whole fraction exponent =>
    obtain ⟨-, -, -, -, hexponent⟩ := h
    have hfraction : (fraction.elim [] ('.' :: ·)).filter (· != '_') =
        fraction.elim [] ('.' :: bare ·) := by
      cases fraction <;> simp [bare]
    have hbehind : (exponent.elim [] Exponent.text).filter (· != '_') =
        exponent.elim [] fun e => e.mark :: e.sign.toList ++ bare e.digits := by
      cases exponent with
      | none => rfl
      | some e =>
        obtain ⟨hmark, hsign, -⟩ := hexponent e rfl
        have hmark : e.mark ≠ '_' := fun heq =>
          absurd (mem_of_isExponentMark hmark) (by rw [heq]; decide)
        have hsigns : ∀ c ∈ e.sign.toList, (c != '_') = true := by
          intro c hc
          rcases hsign c (Option.mem_toList.mp hc) with rfl | rfl <;> decide
        simp [Exponent.text, bare, hmark, List.filter_eq_self.mpr hsigns]
    simp only [text, php, isBig, List.filter_append, hfraction, hbehind, List.append_nil,
      Bool.false_eq_true, if_false]
    rfl

/-- The characters of a decimal. -/
theorem mem_php_decimal {whole : List Char} {fraction : Option (List Char)}
    {exponent : Option Exponent} (h : Valid (.decimal whole fraction exponent)) {c : Char}
    (hc : c ∈ php (.decimal whole fraction exponent)) :
    c.isDigit = true ∨ c ∈ ['.', 'e', 'E', '+', '-'] := by
  obtain ⟨hwhole, hfraction, -, -, hexponent⟩ := h
  simp only [php, List.mem_append] at hc
  rcases hc with (hc | hc) | hc
  · exact .inl (hwhole.isDigit hc)
  · cases fraction with
    | none => cases hc
    | some behind =>
      rcases List.mem_cons.mp hc with rfl | hc
      · exact .inr (by decide)
      · exact .inl (hfraction.isDigit hc)
  · cases exponent with
    | none => cases hc
    | some e =>
      obtain ⟨hmark, hsign, hdigits, -⟩ := hexponent e rfl
      simp only [Option.elim, List.cons_append, List.mem_cons, List.mem_append,
        Option.mem_toList] at hc
      rcases hc with rfl | hc | hc
      · have hletters : ['e', 'E'] ⊆ ['.', 'e', 'E', '+', '-'] := by decide
        exact .inr (hletters (mem_of_isExponentMark hmark))
      · rcases hsign c hc with rfl | rfl
        · exact .inr (by decide)
        · exact .inr (by decide)
      · exact .inl (hdigits.isDigit hc)

/-- The characters of a number as it is emitted. -/
theorem mem_php (h : l.Valid) {c : Char} (hc : c ∈ l.php) :
    isHex c = true ∨ c ∈ ['.', '+', '-', 'x', 'X', 'o', 'O'] := by
  cases l with
  | based mark digits big =>
    obtain ⟨base, hbase, hdigits, -⟩ := h
    simp only [php, List.mem_cons] at hc
    rcases hc with rfl | rfl | hc
    · exact .inl (by decide)
    · have hall : ['x', 'X', 'o', 'O', 'b', 'B'].all fun d =>
          isHex d || ['.', '+', '-', 'x', 'X', 'o', 'O'].contains d := by decide
      simpa using List.all_eq_true.mp hall c (mem_of_baseOf? hbase)
    · exact .inl (Bool.and_eq_true_iff.mp (hdigits c hc)).1
  | integer digits big => exact .inl (Bool.and_eq_true_iff.mp (h.1 c hc)).1
  | decimal whole fraction exponent =>
    rcases mem_php_decimal h hc with hdigit | hother
    · rw [← isDigitOf_ten] at hdigit
      exact .inl (Bool.and_eq_true_iff.mp hdigit).1
    · have hall : ['.', 'e', 'E', '+', '-'].all fun d =>
          isHex d || ['.', '+', '-', 'x', 'X', 'o', 'O'].contains d := by decide
      simpa using List.all_eq_true.mp hall c hother

theorem number_text (h : l.Valid) : number l.text = l.php := by
  have hlast : l.php.getLast? ≠ some 'n' := fun heq =>
    absurd (mem_php h (List.mem_of_getLast? heq)) (by decide)
  rw [number, filter_text h]
  cases l.isBig <;> simp [hlast]

/-- The characters of a number as the source writes it. -/
theorem mem_text (h : l.Valid) {c : Char} (hc : c ∈ l.text) :
    isHex c = true ∨ c ∈ ['.', '+', '-', 'x', 'X', 'o', 'O', '_', 'n'] := by
  by_cases hseparator : c = '_'
  · exact .inr (by simp [hseparator])
  have hmem : c ∈ l.text.filter (· != '_') := List.mem_filter.mpr ⟨hc, by simpa using hseparator⟩
  rw [filter_text h, List.mem_append] at hmem
  rcases hmem with hphp | hbig
  · have hmore : ['.', '+', '-', 'x', 'X', 'o', 'O'] ⊆ ['.', '+', '-', 'x', 'X', 'o', 'O', '_', 'n'] := by
      decide
    exact (mem_php h hphp).imp_right fun hother => hmore hother
  · split at hbig
    · exact .inr (by simp [List.mem_singleton.mp hbig])
    · cases hbig

/-- A number has no character that means something to PHP between quotes. -/
theorem isInert_of_mem_text (h : l.Valid) {c : Char} (hc : c ∈ l.text) :
    StringPiece.isInert c = true := by
  rcases mem_text h hc with hhex | hother
  · exact StringPiece.isInert_of_isHex hhex
  · have hall : ['.', '+', '-', 'x', 'X', 'o', 'O', '_', 'n'].all StringPiece.isInert := by decide
    exact List.all_eq_true.mp hall c hother

theorem mem_text_of_mem_php (h : l.Valid) {c : Char} (hc : c ∈ l.php) : c ∈ l.text := by
  have hmem : c ∈ l.text.filter (· != '_') := by
    rw [filter_text h]
    exact List.mem_append_left _ hc
  exact List.mem_of_mem_filter hmem

section Reading

open Php

theorem digits?_eq {base : Nat} {digits : List Char} (hne : digits ≠ [])
    (h : ∀ c ∈ digits, isDigitOf base c = true) : digits? base digits = some (numeral base digits) := by
  have hall : digits.all (isDigitOf base) = true := List.all_eq_true.mpr h
  simp [digits?, hne, hall]

theorem mantissa?_eq {whole : List Char} {fraction : Option (List Char)} (hwhole : Digits 10 whole)
    (hfraction : Digits 10 (fraction.getD []))
    (hne : bare whole ++ bare (fraction.getD []) ≠ []) :
    mantissa? (bare whole ++ fraction.elim [] ('.' :: bare ·)) =
      some (numeral 10 (bare whole ++ bare (fraction.getD [])), (bare (fraction.getD [])).length) := by
  have hpoint (c : Char) (hc : c ∈ bare whole) : (c != '.') = true := by
    simpa using ne_of_isDigit (hwhole.isDigit hc) (by decide : '.'.isDigit = false)
  have hdigits : ∀ c ∈ bare whole ++ bare (fraction.getD []), isDigitOf 10 c = true :=
    List.forall_mem_append.mpr ⟨hwhole, hfraction⟩
  have htake : (bare whole ++ fraction.elim [] ('.' :: bare ·)).takeWhile (· != '.') = bare whole := by
    rw [List.takeWhile_append_of_pos hpoint]
    cases fraction <;> simp
  have hdrop : ((bare whole ++ fraction.elim [] ('.' :: bare ·)).dropWhile (· != '.')).drop 1 =
      bare (fraction.getD []) := by
    rw [List.dropWhile_append_of_pos hpoint]
    cases fraction <;> simp [bare]
  rw [mantissa?, htake, hdrop, digits?_eq hne hdigits]
  rfl

theorem exponent?_eq {e : Exponent} (hsign : ∀ c ∈ e.sign, c = '+' ∨ c = '-')
    (hdigits : Digits 10 e.digits) (hne : bare e.digits ≠ []) :
    exponent? (e.sign.toList ++ bare e.digits) = some (exponentValue (some e)) := by
  obtain ⟨mark, sign, digits⟩ := e
  have hread : digits? 10 (bare digits) = some (numeral 10 (bare digits)) := digits?_eq hne hdigits
  cases sign with
  | none =>
    obtain ⟨c, more, hcons⟩ := List.exists_cons_of_ne_nil hne
    have hc : c.isDigit = true := hdigits.isDigit (by rw [hcons]; simp)
    change exponent? (bare digits) = _
    rw [exponent?.eq_def, hcons]
    split
    · rename_i heq
      exact absurd (List.cons.inj heq).1 (ne_of_isDigit hc (by decide))
    · rename_i heq
      exact absurd (List.cons.inj heq).1 (ne_of_isDigit hc (by decide))
    · rw [← hcons, hread]
      simp [exponentValue]
  | some c =>
    rcases hsign c rfl with rfl | rfl
    · change (digits? 10 (bare digits)).map Int.ofNat = _
      rw [hread]
      simp [exponentValue]
    · change (digits? 10 (bare digits)).map (fun n => -Int.ofNat n) = _
      rw [hread]
      simp [exponentValue]

/-- A mantissa holds no mark of an exponent. -/
theorem not_isExponentMark {whole : List Char} {fraction : Option (List Char)}
    (hwhole : Digits 10 whole) (hfraction : Digits 10 (fraction.getD [])) {c : Char}
    (hc : c ∈ bare whole ++ fraction.elim [] ('.' :: bare ·)) : (!isExponentMark c) = true := by
  have hdigit {d : Char} (hd : d.isDigit = true) : (!isExponentMark d) = true := by
    have he : d ≠ 'e' := ne_of_isDigit hd (by decide)
    have hE : d ≠ 'E' := ne_of_isDigit hd (by decide)
    simp [isExponentMark, he, hE]
  rcases List.mem_append.mp hc with hc | hc
  · exact hdigit (hwhole.isDigit hc)
  · cases fraction with
    | none => cases hc
    | some behind =>
      rcases List.mem_cons.mp hc with rfl | hc
      · decide
      · exact hdigit (hfraction.isDigit hc)

theorem decimal?_php {whole : List Char} {fraction : Option (List Char)} {exponent : Option Exponent}
    (hwhole : Digits 10 whole) (hfraction : Digits 10 (fraction.getD []))
    (hne : bare whole ++ bare (fraction.getD []) ≠ [])
    (hexponent : ∀ e ∈ exponent, isExponentMark e.mark = true ∧ (∀ c ∈ e.sign, c = '+' ∨ c = '-') ∧
      Digits 10 e.digits ∧ bare e.digits ≠ []) :
    decimal? (php (.decimal whole fraction exponent)) =
      some (value (.decimal whole fraction exponent)) := by
  have hmarks := fun c => not_isExponentMark hwhole hfraction (c := c)
  rw [decimal?, php, List.takeWhile_append_of_pos hmarks, List.dropWhile_append_of_pos hmarks]
  cases exponent with
  | none =>
    have hmantissa := mantissa?_eq hwhole hfraction hne
    simp only [Option.elim_none, List.takeWhile_nil, List.dropWhile_nil, List.append_nil, hmantissa]
    rfl
  | some e =>
    obtain ⟨hmark, hsign, hdigits, hsome⟩ := hexponent e rfl
    have hmantissa := mantissa?_eq hwhole hfraction hne
    simp only [Option.elim_some, List.cons_append, List.takeWhile_cons, List.dropWhile_cons, hmark,
      Bool.not_true, Bool.false_eq_true, if_false, List.append_nil, hmantissa,
      exponent?_eq hsign hdigits hsome]
    rfl

/-- Digits alone are a decimal without a fraction. -/
theorem decimal?_digits {digits : List Char} (h : Digits 10 digits) (hne : bare digits ≠ []) :
    decimal? (bare digits) = some (numeral 10 (bare digits) : ℚ) := by
  have hread : decimal? (php (.decimal digits none none)) = _ :=
    decimal?_php h (by simp [Digits, bare]) (by simpa [bare] using hne) (by simp)
  simpa [php, value, exponentValue, bare] using hread

theorem baseOf?_of_not_mem {c : Char} (h : c ∉ ['x', 'X', 'o', 'O', 'b', 'B']) : baseOf? c = none := by
  cases hbase : baseOf? c with
  | none => rfl
  | some base => exact absurd (mem_of_baseOf? hbase) h

/-- What announces no base and is not all digits is read as a decimal. -/
theorem number?_eq_decimal? {text : List Char}
    (hbase : ∀ c ∈ text, c ∉ ['x', 'X', 'o', 'O', 'b', 'B']) (hdigits : ∃ c ∈ text, c.isDigit = false) :
    number? text = decimal? text := by
  unfold number?
  split
  · rename_i mark digits
    rw [baseOf?_of_not_mem (hbase mark (by simp))]
    obtain ⟨c, hc, hdigit⟩ := hdigits
    have hall : (mark :: digits).all Char.isDigit = false := by
      rw [Bool.eq_false_iff]
      intro hall
      rcases List.mem_cons.mp hc with rfl | hc
      · cases hdigit
      · rw [List.all_eq_true.mp hall c hc] at hdigit
        cases hdigit
    dsimp only
    rw [hall]
    rfl
  · rfl

theorem number?_php_integer {digits : List Char} {big : Bool} (h : Valid (.integer digits big)) :
    number? (bare digits) =
      if isFalseOctal (.integer digits big) then none else some (integerValue digits : ℚ) := by
  obtain ⟨hdigits, hne⟩ := h
  have hdecimal := decimal?_digits hdigits hne
  cases hbare : bare digits with
  | nil => exact absurd hbare hne
  | cons c more =>
    by_cases hzero : c = '0'
    · subst hzero
      cases more with
      | nil =>
        rw [hbare] at hdecimal
        simpa [number?, isFalseOctal, integerValue, hbare, numeral, digitValue] using hdecimal
      | cons d others =>
        have hisDigit : ∀ e ∈ d :: others, e.isDigit = true := fun e he =>
          hdigits.isDigit (by rw [hbare]; exact List.mem_cons_of_mem _ he)
        have hd : d ∉ ['x', 'X', 'o', 'O', 'b', 'B'] := by
          intro hmem
          have hdigit := hisDigit d List.mem_cons_self
          exact ne_of_isDigit hdigit (not_decimal_of_mem_letters hmem).1 rfl
        have hall : (d :: others).all Char.isDigit = true := List.all_eq_true.mpr hisDigit
        have height : isDigitOf 8 = isOctal := funext isDigitOf_eight
        simp only [number?, isFalseOctal, integerValue, hbare, baseOf?_of_not_mem hd, hall, if_true,
          digits?, height]
        cases (d :: others).all isOctal <;> simp
    · rw [hbare] at hdecimal
      simpa [number?, isFalseOctal, integerValue, hzero, hbare] using hdecimal

/-- From what is emitted for a number PHP reads the same number, unless the literal looks octal and is
not: then it reads none. -/
theorem number?_php (h : l.Valid) :
    number? l.php = if l.isFalseOctal then none else some l.value := by
  cases l with
  | based mark digits big =>
    obtain ⟨base, hbase, hdigits, hne⟩ := h
    simp [number?, php, value, hbase, digits?_eq hne hdigits, isFalseOctal]
  | integer digits big => exact number?_php_integer h
  | decimal whole fraction exponent =>
    have hchars := fun c => mem_php_decimal (c := c) h
    obtain ⟨hwhole, hfraction, hne, hsome, hexponent⟩ := h
    have hread := decimal?_php hwhole hfraction hne hexponent
    simp only [isFalseOctal, Bool.false_eq_true, if_false]
    rw [← hread]
    apply number?_eq_decimal?
    · intro c hc hletter
      obtain ⟨hdigit, hother⟩ := not_decimal_of_mem_letters hletter
      exact (hchars c hc).elim (ne_true_of_eq_false hdigit) hother
    · rcases hsome with hpoint | hmark
      · obtain ⟨behind, rfl⟩ := Option.isSome_iff_exists.mp hpoint
        exact ⟨'.', by simp [php], by decide⟩
      · obtain ⟨e, rfl⟩ := Option.isSome_iff_exists.mp hmark
        have hall : ['e', 'E'].all (!Char.isDigit ·) := by decide
        have hmark := List.all_eq_true.mp hall _ (mem_of_isExponentMark (hexponent e rfl).1)
        exact ⟨e.mark, by simp [php], by simpa using hmark⟩

end Reading

end NumberLiteral
end EcmaPhp
