import EcmaPhp.Proofs.Literal.NameSpelling
import Mathlib.Data.List.Chain

/-! Escapes beyond ASCII. The source escapes units of UTF-16, of which two may make up one character;
between double quotes PHP reads bytes and whole code points. -/
namespace EcmaPhp
open Literal Php

namespace Text

namespace Utf16

/-- The units of a text give its first character away. -/
theorem encodePoint_append_inj {c d : Char} {us vs : List UInt16}
    (h : encodePoint c.toNat ++ us = encodePoint d.toNat ++ vs) : c = d ∧ us = vs := by
  have hc : c.toNat.isValidChar := c.valid
  have hd : d.toNat.isValidChar := d.valid
  suffices c.toNat = d.toNat ∧ us = vs from this.imp_left Char.toNat_inj.mp
  unfold encodePoint at h
  split at h <;> split at h
  all_goals
    simp only [List.cons_append, List.nil_append, List.cons.injEq, ← UInt16.toNat_inj,
      UInt16.toNat_ofNat', Nat.isValidChar] at h hc hd
  · exact ⟨by omega, h.2⟩
  · omega
  · omega
  · exact ⟨by omega, h.2.2⟩

theorem encode_injective : Function.Injective encode := by
  intro cs ds h
  have hne (c : Char) : encodePoint c.toNat ≠ [] := by
    unfold encodePoint
    split <;> simp
  induction cs generalizing ds with
  | nil =>
    cases ds with
    | nil => rfl
    | cons d ds => simp [encode, hne] at h
  | cons c cs ih =>
    cases ds with
    | nil => simp [encode, hne] at h
    | cons d ds =>
      obtain ⟨rfl, hrest⟩ := encodePoint_append_inj h
      rw [ih hrest]

end Utf16

namespace Utf8

/-- Which byte may follow another one: what begins with the byte `ED` is no surrogate. -/
def Follows (a b : UInt8) : Prop := a.toNat = 0xED → b.toNat < 0xA0

theorem isChain_utf8 {n : Nat} (h : n.isValidChar) : (utf8 n).IsChain Follows := by
  unfold Nat.isValidChar at h
  unfold utf8
  split
  · exact .singleton _
  · split
    · simp only [List.isChain_pair, Follows, UInt8.toNat_ofNat']
      omega
    · split
      · simp only [List.isChain_cons_cons, List.isChain_singleton, Follows,
          UInt8.toNat_ofNat', and_true]
        omega
      · simp only [List.isChain_cons_cons, List.isChain_singleton, Follows,
          UInt8.toNat_ofNat', and_true]
        omega

theorem getLast?_utf8 (n : Nat) :
    (utf8 n).getLast? = some (.ofNat (if n ≤ 0x7F then n else n % 64 + 0x80)) := by
  unfold utf8
  split
  · rfl
  · split
    · rfl
    · split <;> rfl

theorem ne_of_mem_getLast?_utf8 {n : Nat} {b : UInt8} (h : b ∈ (utf8 n).getLast?) :
    b.toNat ≠ 0xED := by
  rw [getLast?_utf8] at h
  obtain rfl := Option.some.inj h
  rw [UInt8.toNat_ofNat']
  split <;> omega

theorem isChain_encode (text : List Char) : (encode text).IsChain Follows := by
  induction text with
  | nil => exact .nil
  | cons c rest ih =>
    have hc : (utf8 c.toNat).IsChain Follows := isChain_utf8 c.valid
    refine List.isChain_append.mpr ⟨hc, ih, ?_⟩
    intro a ha b _ hed
    exact absurd hed (ne_of_mem_getLast?_utf8 (n := c.toNat) ha)

/-- A surrogate, written like any other code point, is no part of a text. -/
theorem not_isChain_surrogate {n : Nat} (hlow : 0xD800 ≤ n) (hhigh : n < 0xE000) :
    ¬ (utf8 n).IsChain Follows := by
  unfold utf8
  rw [if_neg (by omega), if_neg (by omega), if_pos (by omega)]
  simp only [List.isChain_cons_cons, Follows, UInt8.toNat_ofNat']
  omega

end Utf8
end Text

namespace StringPiece

variable {quote : Char} {p : StringPiece} {ps : List StringPiece}

/-- A piece that denotes the first half of a pair of surrogates. -/
def IsHigh (p : StringPiece) : Prop := ∃ n, p.points = [n] ∧ 0xD800 ≤ n ∧ n < 0xDC00

/-- A piece that denotes the second half of a pair of surrogates. -/
def IsLow (p : StringPiece) : Prop := ∃ n, p.points = [n] ∧ 0xDC00 ≤ n ∧ n < 0xE000

/-- Pieces among which surrogates come in pairs only. -/
inductive Paired : List StringPiece → Prop where
  | nil : Paired []
  | scalar {p : StringPiece} {ps : List StringPiece} (hp : p.IsScalar) (hps : Paired ps) :
      Paired (p :: ps)
  | pair {p q : StringPiece} {ps : List StringPiece} (hp : p.IsHigh) (hq : q.IsLow)
      (hps : Paired ps) : Paired (p :: q :: ps)

section Value

theorem encodePoint_pair {m n : Nat} (hm : 0xD800 ≤ m) (hm' : m < 0xDC00) (hn : 0xDC00 ≤ n)
    (hn' : n < 0xE000) :
    Text.Utf16.encodePoint (0x10000 + (m - 0xD800) * 0x400 + (n - 0xDC00)) = [.ofNat m, .ofNat n] := by
  have hfirst : 0xD800 + (0x10000 + (m - 0xD800) * 0x400 + (n - 0xDC00) - 0x10000) / 0x400 = m := by
    omega
  have hsecond : 0xDC00 + (0x10000 + (m - 0xD800) * 0x400 + (n - 0xDC00) - 0x10000) % 0x400 = n := by
    omega
  rw [Text.Utf16.encodePoint, if_neg (by omega), hfirst, hsecond]

theorem flatMap_units (h : ∀ p ∈ ps, p.IsScalar) :
    ps.flatMap units = Text.Utf16.encode (ps.flatMap chars) := by
  rw [Text.Utf16.encode, List.flatMap_assoc]
  exact List.flatMap_congr fun p hp => (h p hp).units_eq

/-- Where surrogates come in pairs, the value is a text. -/
theorem Paired.exists_value (h : Paired ps) : ∃ value, ps.flatMap units = Text.Utf16.encode value := by
  induction h with
  | nil => exact ⟨[], rfl⟩
  | @scalar p ps hp hps ih =>
    obtain ⟨value, hvalue⟩ := ih
    refine ⟨p.chars ++ value, ?_⟩
    rw [List.flatMap_cons, hp.units_eq, hvalue]
    simp [Text.Utf16.encode]
  | @pair p q ps hp hq hps ih =>
    obtain ⟨value, hvalue⟩ := ih
    obtain ⟨m, hfirst, hm, hm'⟩ := hp
    obtain ⟨n, hsecond, hn, hn'⟩ := hq
    let point := 0x10000 + (m - 0xD800) * 0x400 + (n - 0xDC00)
    have hvalid : point.isValidChar := Or.inr ⟨by omega, by omega⟩
    have hpoint : (Char.ofNat point).toNat = point := by
      rw [Char.ofNat, dif_pos hvalid]
      rfl
    have hunit {k : Nat} (hk : k < 0xE000) : Text.Utf16.encodePoint k = [.ofNat k] :=
      if_pos (by omega)
    refine ⟨Char.ofNat point :: value, ?_⟩
    rw [List.flatMap_cons, List.flatMap_cons, hvalue, Text.Utf16.encode, Text.Utf16.encode,
      List.flatMap_cons, hpoint, encodePoint_pair hm hm' hn hn']
    simp [units, hfirst, hsecond, hunit (show m < 0xE000 by omega), hunit hn']

end Value

section Bytes

theorem numeral_two_lt {a b : Char} (h : ∀ e ∈ [a, b], isHex e = true) :
    numeral 16 [a, b] < 0x100 := by
  have ha := digitValue_lt (h a (by simp))
  have hb := digitValue_lt (h b (by simp))
  simp only [numeral, List.foldl_cons, List.foldl_nil]
  omega

/-- What is no character is a surrogate, and PHP writes it like any other code point. -/
theorem exists_surrogate (h : p.Valid quote) (hp : ¬ p.IsScalar) :
    ∃ n, p.phpBytes = utf8 n ∧ 0xD800 ≤ n ∧ n < 0xE000 := by
  have hsurrogate {n : Nat} (hlt : n < 0x110000) (hn : ¬ n.isValidChar) :
      0xD800 ≤ n ∧ n < 0xE000 := by
    unfold Nat.isValidChar at hn
    omega
  cases p with
  | plain c => exact (hp (IsText.isScalar trivial)).elim
  | escape c => exact (hp (IsText.isScalar trivial)).elim
  | continuation => exact (hp (IsText.isScalar trivial)).elim
  | hex a b =>
    have hlt := numeral_two_lt h
    have hvalid : (numeral 16 [a, b]).isValidChar := Or.inl (by omega)
    exact absurd (by simpa [IsScalar, points] using hvalid) hp
  | unicode a b c d =>
    have hlt := numeral_four_lt h
    exact ⟨_, List.flatMap_singleton utf8 _,
      hsurrogate (by omega) fun hvalid => hp (by simpa [IsScalar, points] using hvalid)⟩
  | braced digits =>
    have hle := h.2.2
    exact ⟨_, List.flatMap_singleton utf8 _,
      hsurrogate (by omega) fun hvalid => hp (by simpa [IsScalar, points] using hvalid)⟩

theorem isScalar_of_encode {value : List Char} (h : ∀ p ∈ ps, p.Valid quote)
    (hbytes : ps.flatMap phpBytes = Text.Utf8.encode value) : ∀ p ∈ ps, p.IsScalar := by
  intro p hp
  by_contra hscalar
  obtain ⟨n, hn, hlow, hhigh⟩ := exists_surrogate (h p hp) hscalar
  obtain ⟨before, after, rfl⟩ := List.append_of_mem hp
  have hchain := Text.Utf8.isChain_encode value
  rw [← hbytes, List.flatMap_append, List.flatMap_cons, hn] at hchain
  exact Text.Utf8.not_isChain_surrogate hlow hhigh hchain.right_of_append.left_of_append

/-- The bytes that PHP reads are those of the value exactly if nothing beyond ASCII is given by two
digits and nothing that is given by number is a surrogate. -/
theorem flatMap_phpBytes_iff (h : ∀ p ∈ ps, p.Valid quote) :
    (∃ value, ps.flatMap units = Text.Utf16.encode value ∧
      ps.flatMap phpBytes = Text.Utf8.encode value) ↔ ∀ p ∈ ps, p.IsText := by
  constructor
  · rintro ⟨value, hvalue, hbytes⟩ p hp
    have hscalar := isScalar_of_encode h hbytes
    obtain rfl : ps.flatMap chars = value := by
      apply Text.Utf16.encode_injective
      rw [← flatMap_units hscalar, hvalue]
    exact (hscalar p hp).isText ((flatMap_phpBytes_eq_iff hscalar).mp hbytes p hp)
  · intro htext
    refine ⟨ps.flatMap chars, flatMap_units fun p hp => (htext p hp).isScalar, ?_⟩
    rw [encode_flatMap_chars]
    exact List.flatMap_congr fun p hp => phpBytes_eq (htext p hp)

end Bytes

end StringPiece

/-- Whatever escapes a string has, one literal without expressions is emitted for it between double
quotes. The bytes that PHP reads from it are the value of the string in UTF-8 if and only if no escape
gives a character beyond ASCII by two digits and none gives a surrogate. The value is a text whenever
surrogates come in pairs. -/
theorem wide_escapes_kept_iff {quote : Char} {ps : List StringPiece}
    (hpieces : ∀ p ∈ ps, p.Valid quote) :
    ∃ bytes,
      (∀ rest, readLiteral (doubleQuoted (ps.flatMap StringPiece.text) ++ rest) =
        some (bytes, rest)) ∧
      ((∃ value, ps.flatMap StringPiece.units = Text.Utf16.encode value ∧
        bytes = Text.Utf8.encode value) ↔ ∀ p ∈ ps, p.IsText) ∧
      (StringPiece.Paired ps →
        ∃ value, ps.flatMap StringPiece.units = Text.Utf16.encode value) := by
  exact ⟨ps.flatMap StringPiece.phpBytes, StringPiece.readLiteral_doubleQuoted hpieces,
    StringPiece.flatMap_phpBytes_iff hpieces, StringPiece.Paired.exists_value⟩

/-- A character beyond the basic plane, by its two surrogates. -/
def StringPiece.emoji : List StringPiece :=
  [.plain 'a', .unicode 'D' '8' '3' 'D', .unicode 'D' 'E' '0' '0']

theorem StringPiece.paired_emoji : Paired emoji :=
  .scalar (by decide) (.pair ⟨0xD83D, by decide, by decide, by decide⟩
    ⟨0xDE00, by decide, by decide, by decide⟩ .nil)

/-- By its surrogates and by two digits a character is lost, by four digits it is kept. -/
theorem wide_escapes_kept_iff_emoji :
    (∃ bytes value, readLiteral "\"a\\u\x7bD83D\x7d\\u\x7bDE00\x7d\"".toList = some (bytes, []) ∧
      StringPiece.emoji.flatMap StringPiece.units = Text.Utf16.encode value ∧
      bytes ≠ Text.Utf8.encode value) ∧
    (∃ bytes, readLiteral "\"\\xe9\"".toList = some (bytes, []) ∧
      bytes ≠ Text.Utf8.encode "é".toList) ∧
    readLiteral "\"\\u\x7b00e9\x7d\"".toList = some (Text.Utf8.encode "é".toList, []) := by
  refine ⟨?_, ?_, ?_⟩
  · obtain ⟨bytes, hread, hiff, hvalue⟩ :=
      @wide_escapes_kept_iff '\'' StringPiece.emoji (by decide)
    obtain ⟨value, hunits⟩ := hvalue StringPiece.paired_emoji
    refine ⟨bytes, value, hread [], hunits, ?_⟩
    intro hbytes
    exact absurd (hiff.mp ⟨value, hunits, hbytes⟩) (by decide)
  · obtain ⟨bytes, hread, hiff, -⟩ :=
      @wide_escapes_kept_iff '\'' [.hex 'e' '9'] (by decide)
    refine ⟨bytes, hread [], ?_⟩
    intro hbytes
    exact absurd (hiff.mp ⟨"é".toList, by decide, hbytes⟩) (by decide)
  · obtain ⟨bytes, hread, hiff, -⟩ :=
      @wide_escapes_kept_iff '\'' [.unicode '0' '0' 'e' '9'] (by decide)
    obtain ⟨value, hunits, rfl⟩ := hiff.mpr (by decide)
    obtain rfl : "é".toList = value := Text.Utf16.encode_injective (by rw [← hunits]; decide)
    exact hread []

end EcmaPhp
