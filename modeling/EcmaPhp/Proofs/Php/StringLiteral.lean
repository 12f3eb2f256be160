import EcmaPhp.Literal.DoubleQuoted
import EcmaPhp.Text.Utf8

/-! How PHP reads a string literal: where it ends, and the bytes that it denotes. -/
namespace EcmaPhp.Php
open Literal

/-- The value of a digit, in any base up to sixteen. -/
def digitValue (c : Char) : Nat :=
  if c ≤ '9' then c.toNat - '0'.toNat
  else if c ≤ 'F' then c.toNat - 'A'.toNat + 10
  else c.toNat - 'a'.toNat + 10

def numeral (base : Nat) (digits : List Char) : Nat :=
  digits.foldl (fun n c => base * n + digitValue c) 0

def isOctal (c : Char) : Bool := '0' ≤ c && c ≤ '7'

/-- A code point in UTF-8. A surrogate is written like any other. -/
def utf8 (n : Nat) : List UInt8 :=
  if n ≤ 0x7F then [.ofNat n]
  else if n ≤ 0x7FF then [.ofNat (n / 64 % 32 + 0xC0), .ofNat (n % 64 + 0x80)]
  else if n ≤ 0xFFFF then
    [.ofNat (n / 4096 % 16 + 0xE0), .ofNat (n / 64 % 64 + 0x80), .ofNat (n % 64 + 0x80)]
  else
    [.ofNat (n / 262144 % 8 + 0xF0), .ofNat (n / 4096 % 64 + 0x80), .ofNat (n / 64 % 64 + 0x80),
      .ofNat (n % 64 + 0x80)]

theorem utf8_toNat (c : Char) : utf8 c.toNat = String.utf8EncodeChar c := rfl

/-- The characters that a backslash gives another meaning between double quotes, with the bytes
that they come to denote. -/
def escapes : List (Char × UInt8) :=
  [('n', 0x0A), ('t', 0x09), ('r', 0x0D), ('v', 0x0B), ('e', 0x1B), ('f', 0x0C), ('\\', 0x5C),
    ('$', 0x24), ('"', 0x22)]

/-- Reads what follows a backslash between double quotes: the bytes that both denote, and how many
characters it takes. A backslash before any other character stands for itself. -/
def escape? : List Char → Option (List UInt8 × Nat)
  | [] => none
  | 'x' :: rest =>
    match (rest.take 2).takeWhile isHex with
    | [] => some (Text.Utf8.encode ['\\', 'x'], 1)
    | digits => some ([.ofNat (numeral 16 digits)], digits.length + 1)
  | 'u' :: '\x7b' :: rest =>
    let digits := rest.takeWhile isHex
    if digits ≠ [] ∧ (rest.dropWhile isHex).head? = some '\x7d' ∧ numeral 16 digits ≤ 0x10FFFF then
      some (utf8 (numeral 16 digits), digits.length + 3)
    else none
  | c :: rest =>
    match escapes.lookup c, ((c :: rest).take 3).takeWhile isOctal with
    | some byte, _ => some ([byte], 1)
    | none, [] => some (Text.Utf8.encode ['\\', c], 1)
    | none, digits => some ([.ofNat (numeral 8 digits)], digits.length)

/-- A character that may begin the name of a variable. -/
def beginsName (c : Char) : Bool := c.isAlpha || c = '_' || 0x80 ≤ c.toNat

/-- Whether an expression begins here, between double quotes. -/
def beginsExpression : List Char → Bool
  | '$' :: c :: _ => c = '\x7b' || beginsName c
  | '\x7b' :: '$' :: _ => true
  | _ => false

/-- What is read of a text: the bytes that a literal denotes, and the text behind it. -/
abbrev Reading := List UInt8 × List Char

def Reading.prepend (bytes : List UInt8) (r : Reading) : Reading := (bytes ++ r.1, r.2)

theorem Reading.map_prepend_nil (r : Option Reading) : r.map (Reading.prepend []) = r := by
  cases r <;> rfl

theorem Reading.map_prepend_append (bytes bytes' : List UInt8) (r : Option Reading) :
    r.map (Reading.prepend (bytes ++ bytes')) =
      (r.map (Reading.prepend bytes')).map (Reading.prepend bytes) := by
  cases r with
  | none => rfl
  | some r => simp [prepend]

/-- Reads a literal from behind its single quote. Nothing but backslashes and single quotes can be
escaped in it. -/
def readSingle : List Char → Option Reading
  | [] => none
  | '\'' :: rest => some ([], rest)
  | '\\' :: '\\' :: rest => (readSingle rest).map (.prepend [0x5C])
  | '\\' :: '\'' :: rest => (readSingle rest).map (.prepend [0x27])
  | c :: rest => (readSingle rest).map (.prepend (String.utf8EncodeChar c))

/-- Reads a literal from behind its double quote. An expression in it is refused, as is an escape
that PHP refuses. -/
def readDouble (text : List Char) : Option Reading :=
  match text with
  | [] => none
  | '"' :: rest => some ([], rest)
  | '\\' :: rest =>
    match escape? rest with
    | none => none
    | some (bytes, size) => (readDouble (rest.drop size)).map (.prepend bytes)
  | c :: rest =>
    if beginsExpression (c :: rest) then none
    else (readDouble rest).map (.prepend (String.utf8EncodeChar c))
termination_by text.length

/-- Reads a literal that holds no expression. -/
def readLiteral : List Char → Option Reading
  | '\'' :: rest => readSingle rest
  | '"' :: rest => readDouble rest
  | _ => none

/-- An escape between double quotes, whatever follows it. -/
theorem readDouble_escape {text tail : List Char} {bytes : List UInt8}
    (h : escape? (text ++ tail) = some (bytes, text.length)) :
    readDouble ('\\' :: text ++ tail) = (readDouble tail).map (.prepend bytes) := by
  rw [List.cons_append, readDouble, h]
  simp

theorem escape?_simple {c : Char} {byte : UInt8} (h : escapes.lookup c = some byte)
    (tail : List Char) : escape? ([c] ++ tail) = some ([byte], 1) := by
  have hx : c ≠ 'x' := by
    rintro rfl
    simp [escapes, List.lookup_cons] at h
  have hu : c ≠ 'u' := by
    rintro rfl
    simp [escapes, List.lookup_cons] at h
  rw [List.singleton_append, escape?]
  · simp [h]
  · simpa using hx
  · intro rest hc
    exact absurd hc hu

theorem escape?_hex {a b : Char} (ha : isHex a = true) (hb : isHex b = true) (tail : List Char) :
    escape? (['x', a, b] ++ tail) = some ([.ofNat (numeral 16 [a, b])], 3) := by
  simp [escape?, ha, hb]

theorem escape?_codePoint {digits : List Char} (hne : digits ≠ [])
    (hhex : ∀ c ∈ digits, isHex c = true) (hle : numeral 16 digits ≤ 0x10FFFF) (tail : List Char) :
    escape? ('u' :: '\x7b' :: digits ++ ['\x7d'] ++ tail) =
      some (utf8 (numeral 16 digits), digits.length + 3) := by
  have hclosed : isHex '\x7d' = false := by decide
  have htake : (digits ++ '\x7d' :: tail).takeWhile isHex = digits := by
    rw [List.takeWhile_append_of_pos hhex, List.takeWhile_cons_of_neg (by simp [hclosed]),
      List.append_nil]
  have hdrop : (digits ++ '\x7d' :: tail).dropWhile isHex = '\x7d' :: tail := by
    rw [List.dropWhile_append_of_pos hhex, List.dropWhile_cons_of_neg (by simp [hclosed])]
  simp [escape?, htake, hdrop, hne, hle]

/-- Between double quotes, a stretch of text denotes bytes, whatever follows it. A dollar must not
follow, since it may turn a brace before it into the start of an expression. -/
def Denotes (text : List Char) (bytes : List UInt8) : Prop :=
  ∀ tail : List Char, tail.head? ≠ some '$' →
    readDouble (text ++ tail) = (readDouble tail).map (.prepend bytes)

namespace Denotes

variable {text text' : List Char} {bytes bytes' : List UInt8}

theorem nil : Denotes [] [] := fun tail _ => (Reading.map_prepend_nil (readDouble tail)).symm

theorem append (h : Denotes text bytes) (h' : Denotes text' bytes')
    (hhead : text'.head? ≠ some '$') :
    Denotes (text ++ text') (bytes ++ bytes') := by
  intro tail htail
  have hnext : (text' ++ tail).head? ≠ some '$' := by
    cases text' with
    | nil => exact htail
    | cons c rest => exact hhead
  rw [List.append_assoc, h _ hnext, h' _ htail, Reading.map_prepend_append]

theorem char {c : Char} (hquote : c ≠ '"') (hslash : c ≠ '\\') (hdollar : c ≠ '$') :
    Denotes [c] (String.utf8EncodeChar c) := by
  intro tail htail
  have hplain : beginsExpression (c :: tail) = false := by
    unfold beginsExpression
    split
    · rename_i heq
      exact absurd (List.cons.inj heq).1 hdollar
    · rename_i heq
      obtain ⟨rfl, rfl⟩ := List.cons.inj heq
      exact absurd rfl htail
    · rfl
  rw [List.singleton_append, readDouble]
  · simp [hplain]
  · exact hquote
  · exact hslash

theorem of_escape (h : ∀ tail, escape? (text ++ tail) = some (bytes, text.length)) :
    Denotes ('\\' :: text) bytes :=
  fun tail _ => readDouble_escape (h tail)

theorem simple {c : Char} {byte : UInt8} (h : escapes.lookup c = some byte) :
    Denotes ['\\', c] [byte] :=
  of_escape (escape?_simple h)

theorem hex {a b : Char} (ha : isHex a = true) (hb : isHex b = true) :
    Denotes ['\\', 'x', a, b] [.ofNat (numeral 16 [a, b])] :=
  of_escape (escape?_hex ha hb)

theorem codePoint {digits : List Char} (hne : digits ≠ []) (hhex : ∀ c ∈ digits, isHex c = true)
    (hle : numeral 16 digits ≤ 0x10FFFF) :
    Denotes ('\\' :: 'u' :: '\x7b' :: digits ++ ['\x7d']) (utf8 (numeral 16 digits)) :=
  of_escape fun tail => by simpa using escape?_codePoint hne hhex hle tail

end Denotes
end EcmaPhp.Php
