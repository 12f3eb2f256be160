import EcmaPhp.Proofs.Literal.StringValue

/-! Text of the source that stands between the quotes of PHP as it is. What PHP reads from it is what
it denotes in the source only as far as both languages give their escapes and their dollars the same
meaning. -/
namespace EcmaPhp
open Literal Php

/-- A text is one literal, whatever follows it, that denotes a name. -/
def Php.IsString (text name : List Char) : Prop :=
  ∀ rest, readLiteral (text ++ rest) = some (Text.Utf8.encode name, rest)

namespace StringPiece

/-- The bytes that PHP reads from a piece between double quotes. -/
def doubleBytes : StringPiece → List UInt8
  | .plain c => Text.Utf8.encode [c]
  | .escape c =>
    match escapes.lookup c with
    | some byte => [byte]
    | none => Text.Utf8.encode ['\\', c]
  | .continuation => Text.Utf8.encode ['\\', '\n']
  | .hex a b => [.ofNat (numeral 16 [a, b])]
  | .unicode a b c d => Text.Utf8.encode ['\\', 'u', a, b, c, d]
  | .braced digits => utf8 (numeral 16 digits)

/-- The bytes that PHP reads from a piece between single quotes. -/
def singleBytes : StringPiece → List UInt8
  | .escape c => if c = '\\' || c = '\'' then Text.Utf8.encode [c] else Text.Utf8.encode ['\\', c]
  | p => Text.Utf8.encode p.text

variable {quote : Char} {p : StringPiece}

/-- The characters that may mean something to PHP between quotes. -/
def specials : List Char := ['\'', '"', '\\', '$', '\x7b']

/-- A character that means nothing to PHP between quotes of either kind. -/
def isInert (c : Char) : Bool := !specials.contains c

theorem isInert_iff {c : Char} :
    isInert c = true ↔ c ≠ '\'' ∧ c ≠ '"' ∧ c ≠ '\\' ∧ c ≠ '$' ∧ c ≠ '\x7b' := by
  simp [isInert, specials]

theorem isInert_of_isHex {c : Char} (h : isHex c = true) : isInert c = true := by
  by_contra hspecial
  have hmem : c ∈ specials := by simpa [isInert] using hspecial
  simp only [specials, List.mem_cons, List.not_mem_nil, or_false] at hmem
  rcases hmem with rfl | rfl | rfl | rfl | rfl <;> cases h

section DoubleQuoted

theorem beginsExpression_of_ne {c : Char} (hdollar : c ≠ '$') (hbrace : c ≠ '\x7b') (tail : List Char) :
    beginsExpression (c :: tail) = false := by
  unfold beginsExpression
  split
  · rename_i heq
    exact absurd (List.cons.inj heq).1 hdollar
  · rename_i heq
    exact absurd (List.cons.inj heq).1 hbrace
  · rfl

/-- No literal is read where an expression begins. -/
theorem readDouble_eq_none {text : List Char} (h : beginsExpression text = true) :
    readDouble text = none := by
  cases text with
  | nil => cases h
  | cons c rest =>
    have hquote : c ≠ '"' := by
      rintro rfl
      cases h
    have hslash : c ≠ '\\' := by
      rintro rfl
      cases h
    rw [readDouble]
    · rw [if_pos h]
    · exact hquote
    · exact hslash

/-- Plain characters, of which none begins an expression, denote themselves. -/
theorem readDouble_char {c : Char} {tail : List Char} (hquote : c ≠ '"') (hslash : c ≠ '\\')
    (hplain : beginsExpression (c :: tail) = false) :
    readDouble (c :: tail) = (readDouble tail).map (.prepend (Text.Utf8.encode [c])) := by
  rw [readDouble]
  · simp [hplain, Text.Utf8.encode]
  · exact hquote
  · exact hslash

theorem readDouble_chars {cs : List Char} (h : ∀ c ∈ cs, isInert c = true) (tail : List Char) :
    readDouble (cs ++ tail) = (readDouble tail).map (.prepend (Text.Utf8.encode cs)) := by
  induction cs with
  | nil => exact (Reading.map_prepend_nil (readDouble tail)).symm
  | cons c rest ih =>
    obtain ⟨hc, hrest⟩ := List.forall_mem_cons.mp h
    obtain ⟨-, hquote, hslash, hdollar, hbrace⟩ := isInert_iff.mp hc
    have hencode : Text.Utf8.encode (c :: rest) = Text.Utf8.encode [c] ++ Text.Utf8.encode rest := by
      simp [Text.Utf8.encode]
    rw [List.cons_append, readDouble_char hquote hslash (beginsExpression_of_ne hdollar hbrace _),
      ih hrest, hencode, Reading.map_prepend_append]

/-- A backslash that is no escape denotes itself, and so does the character behind it. -/
theorem escape?_none {c : Char} (hx : c ≠ 'x') (hu : c ≠ 'u') (hoctal : isOctal c = false)
    (hnone : escapes.lookup c = none) (tail : List Char) :
    escape? ([c] ++ tail) = some (Text.Utf8.encode ['\\', c], 1) := by
  rw [List.singleton_append, escape?]
  · simp [hnone, hoctal]
  · simpa using hx
  · intro rest hc
    exact absurd hc hu

theorem isOctal_of_isDigit {c : Char} (h : c.isDigit = false) : isOctal c = false := by
  rw [Bool.eq_false_iff] at h ⊢
  intro hoctal
  apply h
  simp only [isOctal, Bool.and_eq_true, decide_eq_true_eq, Char.le_def] at hoctal
  simp only [Char.isDigit, Bool.and_eq_true, decide_eq_true_eq]
  exact ⟨hoctal.1, UInt32.le_trans hoctal.2 (by decide)⟩

/-- What PHP reads from a piece, unless the piece ends the literal or begins an expression. -/
theorem readDouble_text {tail : List Char} (h : p.Valid quote) (hquote : p ≠ .plain '"')
    (hplain : beginsExpression (p.text ++ tail) = false) :
    readDouble (p.text ++ tail) = (readDouble tail).map (.prepend p.doubleBytes) := by
  cases p with
  | plain c =>
    have hc : c ≠ '"' := fun heq => hquote (heq ▸ rfl)
    exact readDouble_char hc h.1 hplain
  | escape c =>
    obtain ⟨hdigit, hx, hu, -⟩ := h
    cases hlookup : escapes.lookup c with
    | some byte =>
      simpa [text, doubleBytes, hlookup] using readDouble_escape (escape?_simple hlookup tail)
    | none =>
      have hescape := escape?_none hx hu (isOctal_of_isDigit hdigit) hlookup tail
      simpa [text, doubleBytes, hlookup] using readDouble_escape hescape
  | continuation =>
    have hescape := escape?_none (c := '\n') (by decide) (by decide) (by decide) (by decide) tail
    exact readDouble_escape hescape
  | hex a b =>
    obtain ⟨ha, hb⟩ : isHex a = true ∧ isHex b = true := by simpa [Valid] using h
    exact readDouble_escape (escape?_hex ha hb tail)
  | unicode a b c d =>
    have ha : a ≠ '\x7b' := by
      rintro rfl
      exact absurd (h '\x7b' List.mem_cons_self) (by decide)
    have hescape : escape? (['u'] ++ ([a, b, c, d] ++ tail)) =
        some (Text.Utf8.encode ['\\', 'u'], 1) := by
      rw [List.singleton_append, escape?]
      · rfl
      · simp
      · intro rest _ heq
        exact ha (List.cons.inj heq).1
    have hbytes : doubleBytes (.unicode a b c d) =
        Text.Utf8.encode ['\\', 'u'] ++ Text.Utf8.encode [a, b, c, d] := by
      simp [doubleBytes, Text.Utf8.encode]
    rw [hbytes, Reading.map_prepend_append, ← readDouble_chars fun e he => isInert_of_isHex (h e he)]
    exact readDouble_escape hescape
  | braced digits =>
    obtain ⟨hne, hhex, hle⟩ := h
    have hread : readDouble ('\\' :: ('u' :: '\x7b' :: digits ++ ['\x7d']) ++ tail) = _ :=
      readDouble_escape (by simpa using escape?_codePoint hne hhex hle tail)
    simpa [text, doubleBytes] using hread

end DoubleQuoted

section SingleQuoted

theorem readSingle_char {c : Char} (hquote : c ≠ '\'') (hslash : c ≠ '\\') (tail : List Char) :
    readSingle (c :: tail) = (readSingle tail).map (.prepend (Text.Utf8.encode [c])) := by
  rw [readSingle]
  · simp [Text.Utf8.encode]
  · exact hquote
  · exact fun _ heq => absurd heq hslash
  · exact fun _ heq => absurd heq hslash

theorem readSingle_chars {cs : List Char} (h : ∀ c ∈ cs, c ≠ '\'' ∧ c ≠ '\\') (tail : List Char) :
    readSingle (cs ++ tail) = (readSingle tail).map (.prepend (Text.Utf8.encode cs)) := by
  induction cs with
  | nil => exact (Reading.map_prepend_nil (readSingle tail)).symm
  | cons c rest ih =>
    obtain ⟨⟨hquote, hslash⟩, hrest⟩ := List.forall_mem_cons.mp h
    have hencode : Text.Utf8.encode (c :: rest) = Text.Utf8.encode [c] ++ Text.Utf8.encode rest := by
      simp [Text.Utf8.encode]
    rw [List.cons_append, readSingle_char hquote hslash, ih hrest, hencode,
      Reading.map_prepend_append]

/-- A backslash denotes itself before anything but a backslash and a single quote. -/
theorem readSingle_slash {c : Char} {cs : List Char}
    (h : ∀ d ∈ c :: cs, d ≠ '\'' ∧ d ≠ '\\') (tail : List Char) :
    readSingle ('\\' :: c :: cs ++ tail) =
      (readSingle tail).map (.prepend (Text.Utf8.encode ('\\' :: c :: cs))) := by
  have hencode : Text.Utf8.encode ('\\' :: c :: cs) =
      Text.Utf8.encode ['\\'] ++ Text.Utf8.encode (c :: cs) := by
    simp [Text.Utf8.encode]
  obtain ⟨hquote, hslash⟩ := h c List.mem_cons_self
  rw [hencode, Reading.map_prepend_append, ← readSingle_chars h, List.cons_append, readSingle]
  · rfl
  · simp
  · intro rest _ heq
    exact hslash (List.cons.inj heq).1
  · intro rest _ heq
    exact hquote (List.cons.inj heq).1

theorem ne_quote_of_isHex {c : Char} (h : isHex c = true) : c ≠ '\'' ∧ c ≠ '\\' := by
  obtain ⟨hquote, -, hslash, -⟩ := isInert_iff.mp (isInert_of_isHex h)
  exact ⟨hquote, hslash⟩

/-- What PHP reads from a piece, unless the piece ends the literal. -/
theorem readSingle_text (h : p.Valid quote) (hquote : p ≠ .plain '\'') (tail : List Char) :
    readSingle (p.text ++ tail) = (readSingle tail).map (.prepend p.singleBytes) := by
  cases p with
  | plain c =>
    have hc : c ≠ '\'' := fun heq => hquote (heq ▸ rfl)
    exact readSingle_char hc h.1 tail
  | escape c =>
    by_cases hspecial : c = '\\' ∨ c = '\''
    · rcases hspecial with rfl | rfl
      · exact readSingle.eq_3 tail
      · exact readSingle.eq_4 tail
    · obtain ⟨hslash, hsingle⟩ := not_or.mp hspecial
      have hread : readSingle ('\\' :: c :: [] ++ tail) = _ :=
        readSingle_slash (by simp [hslash, hsingle]) tail
      simpa [text, singleBytes, hslash, hsingle] using hread
  | continuation => exact readSingle_slash (by simp) tail
  | hex a b =>
    refine readSingle_slash (List.forall_mem_cons.mpr ⟨by decide, ?_⟩) tail
    exact fun e he => ne_quote_of_isHex (h e he)
  | unicode a b c d =>
    refine readSingle_slash (List.forall_mem_cons.mpr ⟨by decide, ?_⟩) tail
    exact fun e he => ne_quote_of_isHex (h e he)
  | braced digits =>
    obtain ⟨-, hhex, -⟩ := h
    have hdigits : ∀ c ∈ 'u' :: '\x7b' :: (digits ++ ['\x7d']), c ≠ '\'' ∧ c ≠ '\\' := by
      intro c hc
      simp only [List.mem_cons, List.mem_append, List.not_mem_nil, or_false] at hc
      rcases hc with rfl | rfl | hc | rfl
      · decide
      · decide
      · exact ne_quote_of_isHex (hhex c hc)
      · decide
    exact readSingle_slash hdigits tail

end SingleQuoted

section Bytes

theorem length_utf8_le (n : Nat) : (utf8 n).length ≤ 4 := by
  unfold utf8
  split
  · simp
  · split
    · simp
    · split <;> simp

theorem length_utf8_pos (n : Nat) : 0 < (utf8 n).length := by
  unfold utf8
  split
  · simp
  · split
    · simp
    · split <;> simp

theorem length_le_encode (cs : List Char) : cs.length ≤ (Text.Utf8.encode cs).length := by
  induction cs with
  | nil => exact Nat.le_refl 0
  | cons c rest ih =>
    have hpos := length_utf8_pos c.toNat
    rw [utf8_toNat] at hpos
    simp only [Text.Utf8.encode, List.flatMap_cons, List.length_append, List.length_cons] at ih ⊢
    omega

theorem encode_ne_nil {cs : List Char} (h : cs ≠ []) : Text.Utf8.encode cs ≠ [] :=
  List.ne_nil_of_length_pos (Nat.lt_of_lt_of_le (List.length_pos_iff.mpr h) (length_le_encode cs))

theorem doubleBytes_ne_nil (p : StringPiece) : p.doubleBytes ≠ [] := by
  cases p with
  | escape c =>
    rw [doubleBytes]
    split
    · simp
    · exact encode_ne_nil (by simp)
  | hex a b => simp [doubleBytes]
  | braced digits => exact List.ne_nil_of_length_pos (length_utf8_pos _)
  | plain c => exact encode_ne_nil (by simp)
  | continuation => exact encode_ne_nil (by simp)
  | unicode a b c d => exact encode_ne_nil (by simp)

theorem singleBytes_ne_nil (p : StringPiece) : p.singleBytes ≠ [] := by
  cases p with
  | escape c =>
    rw [singleBytes]
    split <;> exact encode_ne_nil (by simp)
  | _ => exact encode_ne_nil (by simp [text])

theorem encode_injective : Function.Injective Text.Utf8.encode := by
  intro cs ds h
  have hbytes : cs.utf8Encode = ds.utf8Encode := congrArg List.toByteArray h
  have hdecode := congrArg ByteArray.utf8Decode? hbytes
  simpa using hdecode

/-- Text that means nothing to PHP denotes itself between quotes. -/
theorem isString_inert_iff {outer : Char} {cs name : List Char} (houter : outer = '\'' ∨ outer = '"')
    (h : ∀ c ∈ cs, isInert c = true) : IsString (outer :: cs ++ [outer]) name ↔ name = cs := by
  have hread (rest : List Char) :
      readLiteral (outer :: cs ++ [outer] ++ rest) = some (Text.Utf8.encode cs, rest) := by
    rcases houter with rfl | rfl
    · have hplain (c : Char) (hc : c ∈ cs) : c ≠ '\'' ∧ c ≠ '\\' := by
        obtain ⟨hquote, -, hslash, -⟩ := isInert_iff.mp (h c hc)
        exact ⟨hquote, hslash⟩
      simp [readLiteral, readSingle_chars hplain, readSingle, Reading.prepend]
    · simp [readLiteral, readDouble_chars h, readDouble, Reading.prepend]
  constructor
  · intro hstring
    obtain ⟨hbytes, -⟩ := Prod.mk.inj (Option.some.inj ((hread []).symm.trans (hstring [])))
    exact (encode_injective hbytes).symm
  · rintro rfl
    exact hread

end Bytes

section Ascii

/-- Only a character of ASCII begins with a byte of ASCII. -/
theorem head?_utf8_lt {n : Nat} {b : UInt8} (hb : b ∈ (utf8 n).head?) (hlt : b < 0x80) :
    n < 0x80 := by
  have hlead {m : Nat} (hle : 0xC0 ≤ m) (hm : m < 0x100) : ¬ UInt8.ofNat m < 0x80 := by
    rw [UInt8.lt_iff_toNat_lt, UInt8.toNat_ofNat', Nat.mod_eq_of_lt hm]
    exact Nat.not_lt.mpr (Nat.le_trans (by decide) hle)
  unfold utf8 at hb
  split at hb
  · omega
  · split at hb
    · obtain rfl := Option.some.inj hb
      exact absurd hlt (hlead (by omega) (by omega))
    · split at hb
      · obtain rfl := Option.some.inj hb
        exact absurd hlt (hlead (by omega) (by omega))
      · obtain rfl := Option.some.inj hb
        exact absurd hlt (hlead (by omega) (by omega))

theorem utf8_of_lt {n : Nat} (h : n < 0x80) : utf8 n = [.ofNat n] := if_pos (Nat.le_of_lt_succ h)

theorem ofNat_lt {n : Nat} (h : n < 0x80) : UInt8.ofNat n < 0x80 := by
  rw [UInt8.lt_iff_toNat_lt, UInt8.toNat_ofNat']
  exact Nat.lt_of_le_of_lt (Nat.mod_le _ _) h

theorem lt_of_mem_encode {cs : List Char} (h : ∀ c ∈ cs, c.toNat < 0x80) {b : UInt8}
    (hb : b ∈ Text.Utf8.encode cs) : b < 0x80 := by
  obtain ⟨c, hc, hmem⟩ := List.mem_flatMap.mp hb
  rw [← utf8_toNat, utf8_of_lt (h c hc)] at hmem
  obtain rfl := List.mem_singleton.mp hmem
  exact ofNat_lt (h c hc)

theorem toNat_lt_of_isHex {c : Char} (h : isHex c = true) : c.toNat < 0x80 := by
  simp only [isHex, Bool.or_eq_true, Bool.and_eq_true, decide_eq_true_eq, Char.le_def,
    UInt32.le_iff_toNat_le] at h
  simp only [Char.reduceVal, UInt32.reduceToNat] at h
  simp only [Char.toNat]
  omega

theorem toNat_lt_of_escaped {c : Char} (h : (escaped c).toNat < 0x80) : c.toNat < 0x80 := by
  unfold escaped at h
  split at h <;> first | decide | exact h

/-- What denotes nothing beyond ASCII is spelled in ASCII. -/
theorem toNat_lt_of_mem_text (h : p.Valid quote) (hchars : ∀ c ∈ p.chars, c.toNat < 0x80) {c : Char}
    (hc : c ∈ p.text) : c.toNat < 0x80 := by
  cases p with
  | plain d =>
    obtain rfl := List.mem_singleton.mp hc
    exact hchars c (by simp [chars, points])
  | escape d =>
    have hd : d.toNat < 0x80 := toNat_lt_of_escaped (hchars _ (by simp [chars, points]))
    simp only [text, List.mem_cons, List.not_mem_nil, or_false] at hc
    rcases hc with rfl | rfl
    · decide
    · exact hd
  | continuation =>
    simp only [text, List.mem_cons, List.not_mem_nil, or_false] at hc
    rcases hc with rfl | rfl <;> decide
  | hex a b =>
    simp only [text, List.mem_cons (a := c) (b := '\\'), List.mem_cons (a := c) (b := 'x')] at hc
    rcases hc with rfl | rfl | hc
    · decide
    · decide
    · exact toNat_lt_of_isHex (h c hc)
  | unicode a b d e =>
    simp only [text, List.mem_cons (a := c) (b := '\\'), List.mem_cons (a := c) (b := 'u')] at hc
    rcases hc with rfl | rfl | hc
    · decide
    · decide
    · exact toNat_lt_of_isHex (h c hc)
  | braced digits =>
    simp only [text, List.mem_cons, List.mem_append, List.not_mem_nil, or_false,
      List.cons_append] at hc
    rcases hc with rfl | rfl | rfl | hc | rfl
    · decide
    · decide
    · decide
    · exact toNat_lt_of_isHex (h.2.1 c hc)
    · decide

theorem lt_of_mem_doubleBytes (h : p.Valid quote) (hscalar : p.IsScalar)
    (hchars : ∀ c ∈ p.chars, c.toNat < 0x80) {b : UInt8} (hb : b ∈ p.doubleBytes) : b < 0x80 := by
  have htext (c : Char) (hc : c ∈ p.text) : c.toNat < 0x80 := toNat_lt_of_mem_text h hchars hc
  have hpoint {n : Nat} (hn : n ∈ p.points) : n < 0x80 := by
    rw [← toNat_ofNat hscalar hn]
    exact hchars _ (List.mem_map_of_mem hn)
  cases p with
  | escape c =>
    rw [doubleBytes] at hb
    split at hb
    · rename_i byte hlookup
      obtain rfl := List.mem_singleton.mp hb
      obtain ⟨before, after, hsplit, -⟩ := List.lookup_eq_some_iff.mp hlookup
      have hall : ∀ e ∈ escapes, e.2 < 0x80 := by decide
      exact hall (c, b) (by simp [hsplit])
    · exact lt_of_mem_encode htext hb
  | hex a b =>
    obtain rfl := List.mem_singleton.mp hb
    exact ofNat_lt (hpoint List.mem_cons_self)
  | braced digits =>
    have hlt := hpoint (n := numeral 16 digits) List.mem_cons_self
    rw [doubleBytes, utf8_of_lt hlt] at hb
    obtain rfl := List.mem_singleton.mp hb
    exact ofNat_lt hlt
  | plain c => exact lt_of_mem_encode htext hb
  | continuation => exact lt_of_mem_encode htext hb
  | unicode a b c d => exact lt_of_mem_encode htext hb

theorem lt_of_mem_singleBytes (h : p.Valid quote) (hchars : ∀ c ∈ p.chars, c.toNat < 0x80)
    {b : UInt8} (hb : b ∈ p.singleBytes) : b < 0x80 := by
  have htext (c : Char) (hc : c ∈ p.text) : c.toNat < 0x80 := toNat_lt_of_mem_text h hchars hc
  cases p with
  | escape c =>
    rw [singleBytes] at hb
    split at hb
    · exact lt_of_mem_encode (fun d hd => htext d (List.mem_cons_of_mem _ hd)) hb
    · exact lt_of_mem_encode htext hb
  | _ => exact lt_of_mem_encode htext hb

end Ascii

section Requoted

variable {ps : List StringPiece} {tail r : List Char} {bytes : List UInt8}

/-- Reading pieces between double quotes ends in one of them or goes on behind them. -/
theorem readDouble_pieces (h : ∀ p ∈ ps, p.Valid quote)
    (hread : readDouble (ps.flatMap text ++ tail) = some (bytes, r)) :
    tail.length ≤ r.length ∨
      ∃ more, readDouble tail = some (more, r) ∧ bytes = ps.flatMap doubleBytes ++ more := by
  induction ps generalizing bytes with
  | nil => exact .inr ⟨bytes, hread, rfl⟩
  | cons p rest ih =>
    obtain ⟨hvalid, hrest⟩ := List.forall_mem_cons.mp h
    rw [List.flatMap_cons, List.append_assoc] at hread
    by_cases hquote : p = .plain '"'
    · subst hquote
      have hend : readDouble ('"' :: (rest.flatMap text ++ tail)) =
          some ([], rest.flatMap text ++ tail) := by rw [readDouble]
      obtain ⟨-, rfl⟩ := Prod.mk.inj (Option.some.inj (hend.symm.trans hread))
      exact .inl (by simp)
    · cases hplain : beginsExpression (p.text ++ (rest.flatMap text ++ tail)) with
      | true =>
        rw [readDouble_eq_none hplain] at hread
        cases hread
      | false =>
        rw [readDouble_text hvalid hquote hplain] at hread
        obtain ⟨⟨bytes', r'⟩, hmore, heq⟩ := Option.map_eq_some_iff.mp hread
        obtain ⟨rfl, rfl⟩ := Prod.mk.inj heq
        rcases ih hrest hmore with hend | ⟨more, hread', rfl⟩
        · exact .inl hend
        · exact .inr ⟨more, hread', by simp⟩

/-- So does reading them between single quotes. -/
theorem readSingle_pieces_append (h : ∀ p ∈ ps, p.Valid quote)
    (hread : readSingle (ps.flatMap text ++ tail) = some (bytes, r)) :
    tail.length ≤ r.length ∨
      ∃ more, readSingle tail = some (more, r) ∧ bytes = ps.flatMap singleBytes ++ more := by
  induction ps generalizing bytes with
  | nil => exact .inr ⟨bytes, hread, rfl⟩
  | cons p rest ih =>
    obtain ⟨hvalid, hrest⟩ := List.forall_mem_cons.mp h
    rw [List.flatMap_cons, List.append_assoc] at hread
    by_cases hquote : p = .plain '\''
    · subst hquote
      have hend : readSingle ('\'' :: (rest.flatMap text ++ tail)) =
          some ([], rest.flatMap text ++ tail) := by rw [readSingle]
      obtain ⟨-, rfl⟩ := Prod.mk.inj (Option.some.inj (hend.symm.trans hread))
      exact .inl (by simp)
    · rw [readSingle_text hvalid hquote] at hread
      obtain ⟨⟨bytes', r'⟩, hmore, heq⟩ := Option.map_eq_some_iff.mp hread
      obtain ⟨rfl, rfl⟩ := Prod.mk.inj heq
      rcases ih hrest hmore with hend | ⟨more, hread', rfl⟩
      · exact .inl hend
      · exact .inr ⟨more, hread', by simp⟩

/-- A reading that runs ahead of what pieces denote by some ASCII stays ahead of it: each next byte
must be ASCII, so the next piece denotes ASCII and is read as ASCII. -/
theorem append_ne_encode {f : StringPiece → List UInt8} {ahead more : List UInt8}
    (hne : ahead ≠ []) (hahead : ∀ b ∈ ahead, b < 0x80) (hf : ∀ p ∈ ps, f p ≠ [])
    (hascii : ∀ p ∈ ps, (∀ c ∈ p.chars, c.toNat < 0x80) → ∀ b ∈ f p, b < 0x80) :
    ahead ++ (ps.flatMap f ++ more) ≠ Text.Utf8.encode (ps.flatMap chars) := by
  induction ps generalizing ahead with
  | nil => simp [Text.Utf8.encode, hne]
  | cons p rest ih =>
    obtain ⟨hp, hrest⟩ := List.forall_mem_cons.mp hf
    obtain ⟨hpascii, hascii⟩ := List.forall_mem_cons.mp hascii
    intro heq
    have hchars : p.chars = [] ∨ ∃ c, p.chars = [c] := by cases p <;> simp [chars, points]
    rcases hchars with hnone | ⟨c, hone⟩
    · have hlonger : ahead ++ f p ≠ [] := by simp [hne]
      have hbytes := List.forall_mem_append.mpr ⟨hahead, hpascii (by simp [hnone])⟩
      exact ih hlonger hbytes hrest hascii (by simpa [hnone] using heq)
    · obtain ⟨b, others, rfl⟩ := List.exists_cons_of_ne_nil hne
      obtain ⟨hb, hothers⟩ := List.forall_mem_cons.mp hahead
      have hencode : Text.Utf8.encode ((p :: rest).flatMap chars) =
          utf8 c.toNat ++ Text.Utf8.encode (rest.flatMap chars) := by
        simp [Text.Utf8.encode, hone, utf8_toNat]
      rw [hencode] at heq
      have hfirst : b ∈ (utf8 c.toNat).head? := by
        have hutf8 : utf8 c.toNat ≠ [] := List.ne_nil_of_length_pos (length_utf8_pos _)
        obtain ⟨d, ds, hd⟩ := List.exists_cons_of_ne_nil hutf8
        rw [hd] at heq ⊢
        exact congrArg some (List.cons.inj heq).1.symm
      have hc := head?_utf8_lt hfirst hb
      rw [utf8_of_lt hc] at heq
      have hstill : others ++ f p ≠ [] := by simp [hp]
      have hbytes := List.forall_mem_append.mpr ⟨hothers, hpascii (by simpa [hone] using hc)⟩
      exact ih hstill hbytes hrest hascii (by simpa using (List.cons.inj heq).2)

/-- A literal with its quotes, put between quotes once more, never denotes its text. -/
theorem not_isString_requoted {outer : Char} (houter : outer = '\'' ∨ outer = '"')
    (hquote : quote = '\'' ∨ quote = '"') (h : ∀ p ∈ ps, p.Valid quote ∧ p.IsScalar) :
    ¬ IsString (outer :: (quote :: ps.flatMap text ++ [quote]) ++ [outer]) (ps.flatMap chars) := by
  intro hstring
  have hread : readLiteral (outer :: quote :: (ps.flatMap text ++ [quote, outer])) =
      some (Text.Utf8.encode (ps.flatMap chars), []) := by
    simpa using hstring []
  have hvalid (p : StringPiece) (hp : p ∈ ps) : p.Valid quote := (h p hp).1
  have hascii : ∀ b ∈ Text.Utf8.encode [quote], b < 0x80 := by
    intro b hb
    have hlt : quote.toNat < 0x80 := by rcases hquote with rfl | rfl <;> decide
    exact lt_of_mem_encode (by simpa using hlt) hb
  by_cases hsame : outer = quote
  -- The literal ends where the inner quote stands.
  · subst hsame
    rcases houter with rfl | rfl
    · rw [readLiteral, readSingle] at hread
      simp at hread
    · rw [readLiteral, readDouble] at hread
      simp at hread
  -- The inner quotes are read as characters.
  · rcases houter with rfl | rfl
    · obtain rfl : quote = '"' := hquote.resolve_left fun heq => hsame heq.symm
      rw [readLiteral, readSingle_char (by decide) (by decide)] at hread
      obtain ⟨⟨bytes, r⟩, hinner, heq⟩ := Option.map_eq_some_iff.mp hread
      obtain ⟨hbytes, rfl⟩ := Prod.mk.inj heq
      rcases readSingle_pieces_append hvalid hinner with hend | ⟨more, -, rfl⟩
      · simp at hend
      · exact append_ne_encode (by decide) hascii (fun p _ => singleBytes_ne_nil p)
          (fun p hp hchars b => lt_of_mem_singleBytes (hvalid p hp) hchars) hbytes
    · obtain rfl : quote = '\'' := hquote.resolve_right fun heq => hsame heq.symm
      rw [readLiteral, readDouble_char (by decide) (by decide) rfl] at hread
      obtain ⟨⟨bytes, r⟩, hinner, heq⟩ := Option.map_eq_some_iff.mp hread
      obtain ⟨hbytes, rfl⟩ := Prod.mk.inj heq
      rcases readDouble_pieces hvalid hinner with hend | ⟨more, -, rfl⟩
      · simp at hend
      · exact append_ne_encode (by decide) hascii (fun p _ => doubleBytes_ne_nil p)
          (fun p hp hchars b => lt_of_mem_doubleBytes (hvalid p hp) (h p hp).2 hchars) hbytes

end Requoted

end StringPiece
end EcmaPhp
