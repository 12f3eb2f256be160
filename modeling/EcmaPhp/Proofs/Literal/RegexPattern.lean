import EcmaPhp.Proofs.Literal.Verbatim
import EcmaPhp.Proofs.Scope.Targets
import EcmaPhp.Proofs.Soundness.Basic

/-! Regular expressions. The literal that is emitted denotes the expression of the source between
slashes. PHP ends its pattern at the first slash without a backslash, and the source may have such a
slash inside a class of characters. -/
namespace EcmaPhp
open Literal Php

namespace Php

/-- How many backslashes a text ends with. -/
def backslashes (text : List Char) : Nat := (text.reverse.takeWhile (· = '\\')).length

/-- How a text between slashes is taken for a regular expression. The pattern ends at the first slash
that does not stand behind an odd number of backslashes, and the rest are modifiers. -/
structure IsRegex (text pattern modifiers : List Char) : Prop where
  delimited : text = '/' :: pattern ++ '/' :: modifiers
  ended : backslashes pattern % 2 = 0
  first : ∀ before after, pattern = before ++ '/' :: after → backslashes before % 2 = 1

/-- A text is taken apart in one way: of two patterns, one would go on behind a slash that ends the
other. -/
theorem IsRegex.pattern_eq {text pattern modifiers pattern' modifiers' : List Char}
    (h : IsRegex text pattern modifiers) (h' : IsRegex text pattern' modifiers') :
    pattern = pattern' := by
  have hsame : pattern ++ '/' :: modifiers = pattern' ++ '/' :: modifiers' :=
    (List.cons.inj (h.delimited.symm.trans h'.delimited)).2
  have heven := h.ended
  have heven' := h'.ended
  rcases List.append_eq_append_iff.mp hsame with ⟨more, hmore, htail⟩ | ⟨more, hmore, htail⟩
  · cases more with
    | nil => simpa using hmore.symm
    | cons c rest =>
      obtain ⟨rfl, -⟩ := List.cons.inj htail
      have hodd := h'.first _ _ hmore
      omega
  · cases more with
    | nil => simpa using hmore
    | cons c rest =>
      obtain ⟨rfl, -⟩ := List.cons.inj htail
      have hodd := h.first _ _ hmore
      omega

theorem backslashes_concat (text : List Char) (c : Char) :
    backslashes (text ++ [c]) = if c = '\\' then backslashes text + 1 else 0 := by
  rw [backslashes, List.reverse_append, List.reverse_singleton, List.singleton_append,
    List.takeWhile_cons]
  by_cases hc : c = '\\' <;> simp [hc, backslashes]

end Php

/-- A character of a pattern, or one behind a backslash. -/
inductive RegexAtom where
  | plain (c : Char)
  | escape (c : Char)
  deriving DecidableEq, Repr

/-- A piece of a pattern. -/
inductive RegexPiece where
  | atom (a : RegexAtom)
  /-- A class of characters between brackets. -/
  | oneOf (members : List RegexAtom)
  deriving DecidableEq, Repr

namespace RegexAtom

def text : RegexAtom → List Char
  | .plain c => [c]
  | .escape c => ['\\', c]

/-- An atom that may stand where some characters need a backslash. -/
def Avoids (special : List Char) : RegexAtom → Prop
  | .plain c => c ∉ special
  | .escape _ => True

instance (special : List Char) : (a : RegexAtom) → Decidable (a.Avoids special)
  | .plain c => inferInstanceAs (Decidable (c ∉ special))
  | .escape _ => instDecidableTrue

theorem Avoids.mono {special special' : List Char} {a : RegexAtom} (h : a.Avoids special)
    (hsub : special' ⊆ special) : a.Avoids special' := by
  cases a with
  | plain c => exact fun hc => h (hsub hc)
  | escape c => trivial

variable {as : List RegexAtom} {front : List Char}

/-- An atom leaves no backslash behind that would escape the next character. -/
theorem backslashes_text {a : RegexAtom} (ha : a.Avoids ['\\'])
    (hfront : backslashes front % 2 = 0) : backslashes (front ++ a.text) % 2 = 0 := by
  cases a with
  | plain c =>
    have hc : c ≠ '\\' := by simpa [Avoids] using ha
    rw [text, backslashes_concat, if_neg hc]
  | escape c =>
    have hsplit : front ++ ['\\', c] = front ++ ['\\'] ++ [c] := by simp
    rw [text, hsplit, backslashes_concat, backslashes_concat, if_pos rfl]
    split <;> omega

theorem backslashes_flatMap_text (has : ∀ a ∈ as, a.Avoids ['\\'])
    (hfront : backslashes front % 2 = 0) : backslashes (front ++ as.flatMap text) % 2 = 0 := by
  induction as generalizing front with
  | nil => simpa using hfront
  | cons a rest ih =>
    obtain ⟨ha, hrest⟩ := List.forall_mem_cons.mp has
    rw [List.flatMap_cons, ← List.append_assoc]
    exact ih hrest (backslashes_text ha hfront)

/-- Where no atom is a slash, every slash has a backslash of its own. -/
theorem backslashes_before_slash {before after : List Char} (has : ∀ a ∈ as, a.Avoids ['\\', '/'])
    (hfront : backslashes front % 2 = 0) (hsplit : as.flatMap text = before ++ '/' :: after) :
    backslashes (front ++ before) % 2 = 1 := by
  induction as generalizing front before with
  | nil => simp at hsplit
  | cons a rest ih =>
    obtain ⟨ha, hrest⟩ := List.forall_mem_cons.mp has
    have hnext := backslashes_text (ha.mono (by simp)) hfront
    cases a with
    | plain c =>
      cases before with
      | nil =>
        obtain ⟨rfl, -⟩ := List.cons.inj hsplit
        simp [Avoids] at ha
      | cons d others =>
        obtain ⟨rfl, hothers⟩ := List.cons.inj hsplit
        simpa [text] using ih hrest hnext hothers
    | escape c =>
      cases before with
      | nil => simp [text] at hsplit
      | cons d others =>
        obtain ⟨rfl, hothers⟩ := List.cons.inj hsplit
        cases others with
        | nil =>
          rw [backslashes_concat, if_pos rfl]
          omega
        | cons e others =>
          obtain ⟨rfl, hmore⟩ := List.cons.inj hothers
          simpa [text] using ih hrest hnext hmore

theorem avoids_slash (has : ∀ a ∈ as, a.Avoids ['\\']) (hslash : plain '/' ∉ as) :
    ∀ a ∈ as, a.Avoids ['\\', '/'] := by
  intro a ha
  cases a with
  | plain c =>
    have hc : c ≠ '/' := by
      rintro rfl
      exact hslash ha
    simpa [Avoids, hc] using has _ ha
  | escape c => trivial

/-- Atoms of which none is a slash are the pattern up to the slash behind them. -/
theorem isRegex_flatMap_text (has : ∀ a ∈ as, a.Avoids ['\\']) (hslash : plain '/' ∉ as)
    (modifiers : List Char) :
    IsRegex ('/' :: as.flatMap text ++ '/' :: modifiers) (as.flatMap text) modifiers where
  delimited := rfl
  ended := @backslashes_flatMap_text as [] has rfl
  first _ _ hsplit :=
    @backslashes_before_slash as [] _ _ (avoids_slash has hslash) rfl hsplit

/-- A slash among the atoms ends the pattern. -/
theorem exists_isRegex (has : ∀ a ∈ as, a.Avoids ['\\']) (hslash : plain '/' ∈ as)
    (modifiers : List Char) : ∃ before after, as.flatMap text = before ++ '/' :: after ∧
      IsRegex ('/' :: as.flatMap text ++ '/' :: modifiers) before (after ++ '/' :: modifiers) := by
  obtain ⟨before, after, rfl, hfirst⟩ := List.eq_append_cons_of_mem hslash
  refine ⟨before.flatMap text, after.flatMap text, by simp [text], ?_⟩
  have hbefore : ∀ a ∈ before, a.Avoids ['\\'] := (List.forall_mem_append.mp has).1
  simpa [text] using isRegex_flatMap_text hbefore hfirst (after.flatMap text ++ '/' :: modifiers)

/-- The atoms are the pattern exactly if none of them is a slash. -/
theorem isRegex_iff (has : ∀ a ∈ as, a.Avoids ['\\']) (modifiers : List Char) :
    IsRegex ('/' :: as.flatMap text ++ '/' :: modifiers) (as.flatMap text) modifiers ↔
      plain '/' ∉ as := by
  constructor
  · intro hregex hslash
    obtain ⟨before, after, hsplit, hbefore⟩ := exists_isRegex has hslash modifiers
    have hsame : as.flatMap text = before := hregex.pattern_eq hbefore
    simp [hsame] at hsplit
  · exact fun hslash => isRegex_flatMap_text has hslash modifiers

end RegexAtom

namespace RegexPiece

def atoms : RegexPiece → List RegexAtom
  | .atom a => [a]
  | .oneOf members => .plain '[' :: members ++ [.plain ']']

def text (p : RegexPiece) : List Char := p.atoms.flatMap RegexAtom.text

/-- What a pattern may consist of. A slash needs no backslash in a class. -/
def Valid : RegexPiece → Prop
  | .atom a => a.Avoids ['\\', '[', '/']
  | .oneOf members => ∀ a ∈ members, a.Avoids ['\\', ']']

instance : (p : RegexPiece) → Decidable p.Valid
  | .atom a => inferInstanceAs (Decidable (a.Avoids ['\\', '[', '/']))
  | .oneOf _ => List.decidableBAll _ _

/-- Whether a slash without a backslash is in a class. -/
def hasSlash : RegexPiece → Bool
  | .atom _ => false
  | .oneOf members => members.contains (.plain '/')

variable {p : RegexPiece} {ps : List RegexPiece}

theorem avoids_of_mem_atoms (h : p.Valid) : ∀ a ∈ p.atoms, a.Avoids ['\\'] := by
  intro a ha
  cases p with
  | atom b =>
    obtain rfl := List.mem_singleton.mp ha
    exact h.mono (by simp)
  | oneOf members =>
    simp only [atoms, List.cons_append, List.mem_cons, List.mem_append, List.not_mem_nil,
      or_false] at ha
    rcases ha with rfl | ha | rfl
    · simp [RegexAtom.Avoids]
    · exact (h a ha).mono (by simp)
    · simp [RegexAtom.Avoids]

theorem slash_mem_atoms (h : p.Valid) : .plain '/' ∈ p.atoms ↔ p.hasSlash = true := by
  cases p with
  | atom a =>
    have ha : a ≠ .plain '/' := by
      rintro rfl
      exact absurd h (by decide)
    simpa [atoms, hasSlash] using ha.symm
  | oneOf members => simp [atoms, hasSlash]

theorem flatMap_text (ps : List RegexPiece) :
    ps.flatMap text = (ps.flatMap atoms).flatMap RegexAtom.text := by
  rw [List.flatMap_assoc]
  rfl

theorem avoids_of_mem_flatMap (h : ∀ p ∈ ps, p.Valid) : ∀ a ∈ ps.flatMap atoms, a.Avoids ['\\'] := by
  intro a ha
  obtain ⟨p, hp, ha⟩ := List.mem_flatMap.mp ha
  exact avoids_of_mem_atoms (h p hp) a ha

theorem slash_mem_flatMap (h : ∀ p ∈ ps, p.Valid) :
    .plain '/' ∈ ps.flatMap atoms ↔ ∃ p ∈ ps, p.hasSlash = true := by
  rw [List.mem_flatMap]
  exact exists_congr fun p => and_congr_right fun hp => slash_mem_atoms (h p hp)

end RegexPiece

section Literal

theorem readSingle_escape (c : Char) (tail : List Char) :
    readSingle ((if c = '\\' || c = '\'' then ['\\', c] else [c]) ++ tail) =
      (readSingle tail).map (.prepend (Text.Utf8.encode [c])) := by
  by_cases hslash : c = '\\'
  · subst hslash
    exact readSingle.eq_3 tail
  by_cases hquote : c = '\''
  · subst hquote
    exact readSingle.eq_4 tail
  have hplain : ¬ (c = '\\' || c = '\'') = true := by simp [hslash, hquote]
  rw [if_neg hplain]
  exact StringPiece.readSingle_char hquote hslash tail

/-- Between single quotes, a text with a backslash before each backslash and each quote denotes
itself. -/
theorem readSingle_escaped (body rest : List Char) :
    readSingle ((body.flatMap fun c => if c = '\\' || c = '\'' then ['\\', c] else [c]) ++
      '\'' :: rest) = some (Text.Utf8.encode body, rest) := by
  induction body with
  | nil => rfl
  | cons c more ih =>
    rw [List.flatMap_cons, List.append_assoc, readSingle_escape, ih]
    simp [Reading.prepend, Text.Utf8.encode]

theorem isString_regex (pattern flags : List Char) :
    IsString (Literal.regex pattern flags)
      ('/' :: pattern ++ '/' :: flags.filter isSharedFlag) := by
  intro rest
  have hread := readSingle_escaped ('/' :: pattern ++ '/' :: flags.filter isSharedFlag) rest
  simpa [Literal.regex, readLiteral] using hread

theorem run_regexLiteral {n pattern : Node} {flags : List Char}
    (hpattern : n.child? .pattern = some pattern)
    (hflags : ((n.child? .flags).map (·.text.toList)).getD [] = flags) (env : EmitEnv)
    (s : EmitState) :
    (Emit.regexLiteral n).run env s =
      .ok () (s.onOutput (·.emitChars (Literal.regex pattern.text.toList flags))) := by
  obtain ⟨p, hp, rfl⟩ := Node.exists_part?_of_child? hpattern
  rw [Emit.regexLiteral, Script.need_eq hp, ← hflags]
  rfl

end Literal

/-- A regular expression is emitted as one literal in single quotes that denotes the pattern between
slashes, with the flags `i`, `m`, `s`, `u` and `x` behind it in their order. From it PHP takes exactly
this pattern and these flags if and only if no class of the pattern has a slash without a backslash;
otherwise the pattern ends at such a slash. -/
theorem regex_kept_iff {n pattern : Node} {ps : List RegexPiece} {flags : List Char}
    (hpattern : n.child? .pattern = some pattern)
    (htext : pattern.text.toList = ps.flatMap RegexPiece.text) (hvalid : ∀ p ∈ ps, p.Valid)
    (hflags : ((n.child? .flags).map (·.text.toList)).getD [] = flags) :
    ∃ literal body,
      (∀ env s, (Emit.regexLiteral n).run env s = .ok () (s.onOutput (·.emitChars literal))) ∧
      literal.head? = some '\'' ∧ IsString literal body ∧
      (IsRegex body (ps.flatMap RegexPiece.text) (flags.filter (· ∈ ['i', 'm', 's', 'u', 'x'])) ↔
        ∀ p ∈ ps, p.hasSlash = false) ∧
      ((∃ p ∈ ps, p.hasSlash = true) →
        ∃ before after, ps.flatMap RegexPiece.text = before ++ '/' :: after ∧
          IsRegex body before (after ++ '/' :: flags.filter (· ∈ ['i', 'm', 's', 'u', 'x']))) := by
  have hshared : flags.filter isSharedFlag = flags.filter (· ∈ ['i', 'm', 's', 'u', 'x']) := by
    apply List.filter_congr
    intro c _
    simp [isSharedFlag]
  have hatoms := RegexPiece.avoids_of_mem_flatMap hvalid
  refine ⟨_, _, run_regexLiteral hpattern hflags, rfl, isString_regex _ _, ?_, ?_⟩
  · rw [htext, RegexPiece.flatMap_text, hshared, RegexAtom.isRegex_iff hatoms,
      RegexPiece.slash_mem_flatMap hvalid]
    simp
  · intro hslash
    rw [htext, RegexPiece.flatMap_text, hshared]
    exact RegexAtom.exists_isRegex hatoms ((RegexPiece.slash_mem_flatMap hvalid).mpr hslash) _

/-- A quote, an escaped slash, and a class with a bracket in it. -/
def RegexPiece.bracketed : List RegexPiece :=
  [.atom (.plain '\''), .atom (.escape '/'), .oneOf [.plain '[', .escape ']']]

/-- A class of which a slash is a member. -/
def RegexPiece.sliced : List RegexPiece := [.atom (.plain 'a'), .oneOf [.plain '/']]

/-- The literal of a pattern with flags. -/
def Node.regexOf (pattern flags : String) : Node :=
  { kind := .regex
    children := [{ kind := .other "regex_pattern", field := some .pattern, text := pattern },
      { kind := .other "regex_flags", field := some .flags, text := flags }] }

theorem regex_kept_iff_sliced :
    (∃ literal body,
      (Emit.regexLiteral (.regexOf "'\\/[[\\]]" "gi")).run ⟨{}, ⟨[], []⟩⟩ {} =
        .ok () (EmitState.onOutput {} (·.emitChars literal)) ∧
      IsString literal body ∧ IsRegex body "'\\/[[\\]]".toList ['i']) ∧
    ∃ literal body,
      (Emit.regexLiteral (.regexOf "a[/]" "gi")).run ⟨{}, ⟨[], []⟩⟩ {} =
        .ok () (EmitState.onOutput {} (·.emitChars literal)) ∧
      IsString literal body ∧ ¬ IsRegex body "a[/]".toList ['i'] ∧
      ∃ before after, "a[/]".toList = before ++ '/' :: after ∧
        IsRegex body before (after ++ "/i".toList) := by
  constructor
  · obtain ⟨literal, body, hrun, -, hstring, hiff, -⟩ :=
      @regex_kept_iff (.regexOf "'\\/[[\\]]" "gi") _ RegexPiece.bracketed _ rfl (by decide) (by decide)
        rfl
    exact ⟨literal, body, hrun _ _, hstring, hiff.mpr (by decide)⟩
  · obtain ⟨literal, body, hrun, -, hstring, hiff, hcut⟩ :=
      @regex_kept_iff (.regexOf "a[/]" "gi") _ RegexPiece.sliced _ rfl (by decide) (by decide) rfl
    refine ⟨literal, body, hrun _ _, hstring, ?_, hcut (by decide)⟩
    intro hregex
    exact absurd (hiff.mp hregex) (by decide)

end EcmaPhp
