import EcmaPhp.Proofs.Accessors
import EcmaPhp.Proofs.Literal.NameSpelling
import EcmaPhp.Proofs.Literal.NumberValue

/-! Names of variables and properties in what is emitted. A name is put behind a dollar or between
quotes as the source spells it, so PHP reads the same name from it only as far as it has the same
escapes and gives a dollar no other meaning. -/
namespace EcmaPhp
open Script EmitM Emit Php

/-- The name of a property, as the source gives it. -/
inductive PropertyName where
  | plain (ps : List StringPiece)
  /-- A private name, which becomes public. -/
  | hidden (ps : List StringPiece)
  | string (quote : Char) (ps : List StringPiece)
  /-- A number, with the name that it is converted to. -/
  | number (l : NumberLiteral) (converted : List Char)

/-- The places where a property is named. -/
inductive NameSite where
  /-- The key of a pair in an object or a pattern. -/
  | key
  /-- The name of a method of an object. -/
  | method
  /-- The name of an accessor of a class. -/
  | accessor

namespace PropertyName

def kind : PropertyName → Kind
  | .plain _ => .propertyIdentifier
  | .hidden _ => .privatePropertyIdentifier
  | .string _ _ => .string
  | .number _ _ => .number

/-- The name as it is spelled, without the mark of a private one. -/
def spelling : PropertyName → List Char
  | .plain ps | .hidden ps => ps.flatMap StringPiece.text
  | .string quote ps => quote :: ps.flatMap StringPiece.text ++ [quote]
  | .number l _ => l.text

def text : PropertyName → List Char
  | .hidden ps => '#' :: ps.flatMap StringPiece.text
  | name => name.spelling

/-- The name itself. -/
def chars : PropertyName → List Char
  | .plain ps | .hidden ps | .string _ ps => ps.flatMap StringPiece.chars
  | .number _ converted => converted

/-- A name that the grammar has, of characters only. -/
def Valid : PropertyName → Prop
  | .plain ps | .hidden ps => StringPiece.IsName ps
  | .string quote ps => (quote = '\'' ∨ quote = '"') ∧ ∀ p ∈ ps, p.Valid quote ∧ p.IsScalar
  | .number l _ => l.Valid

/-- A text is a string literal of the name or, if the name is a number, a literal of that number. -/
def DenotedBy (name : PropertyName) (text : List Char) : Prop :=
  match name with
  | .number l converted => number? text = some l.value ∨ IsString text converted
  | name => IsString text name.chars

end PropertyName

namespace NameSite

/-- The literal that is emitted for a name. -/
def literal : NameSite → PropertyName → List Char
  | .key, .string quote ps => Literal.string quote (ps.flatMap StringPiece.text)
  | .key, .number l _ => Literal.number l.text
  | .accessor, name => '\'' :: name.spelling ++ ['\'']
  | _, name => '"' :: name.spelling ++ ['"']

/-- Whether the literal keeps the name. -/
def Keeps : NameSite → PropertyName → Prop
  | .accessor, .plain ps | .accessor, .hidden ps => ∀ p ∈ ps, p.isChar = true
  | _, .plain ps | _, .hidden ps =>
    StringPiece.holdVariable ps = false ∧ ∀ p ∈ ps, p.isUnicode = false
  | .key, .string _ ps =>
    ps.flatMap StringPiece.text ≠ "undefined".toList ∧ ∀ p ∈ ps, p.isByte = false
  | _, .string _ _ => False
  | .key, .number l _ => l.isFalseOctal = false
  | _, .number l converted => converted = l.text

section Denotation

theorem number?_quoted {c : Char} (h : c = '\'' ∨ c = '"') (cs : List Char) :
    number? (c :: cs) = none := by
  have hmantissa (rest : List Char) : mantissa? (c :: rest) = none := by
    rcases h with rfl | rfl <;> simp [mantissa?, digits?, isDigitOf, Literal.isHex]
  have hdecimal : decimal? (c :: cs) = none := by
    have htake : (c :: cs).takeWhile (!isExponentMark ·) =
        c :: cs.takeWhile (!isExponentMark ·) := by
      rcases h with rfl | rfl <;> simp [isExponentMark]
    rw [decimal?, htake, hmantissa]
  rcases h with rfl | rfl <;> exact hdecimal

theorem not_isString_number {l : NumberLiteral} (h : l.Valid) (name : List Char) :
    ¬ IsString (Literal.number l.text) name := by
  intro hstring
  have hread := hstring []
  rw [List.append_nil, l.number_text h] at hread
  have hinert (c : Char) (hc : c ∈ l.php) : c ≠ '\'' ∧ c ≠ '"' := by
    obtain ⟨hsingle, hdouble, -⟩ := StringPiece.isInert_iff.mp (l.isInert_of_mem_text h (l.mem_text_of_mem_php h hc))
    exact ⟨hsingle, hdouble⟩
  unfold readLiteral at hread
  split at hread
  · rename_i heq
    exact (hinert '\'' (by simp [heq])).1 rfl
  · rename_i heq
    exact (hinert '"' (by simp [heq])).2 rfl
  · cases hread

/-- The literal that is emitted for a name denotes it exactly if it keeps it. -/
theorem denotedBy_literal_iff (site : NameSite) {name : PropertyName} (h : name.Valid) :
    name.DenotedBy (site.literal name) ↔ site.Keeps name := by
  cases name with
  | plain ps =>
    cases site with
    | accessor => exact StringPiece.isString_single_iff h.pieces
    | _ => exact StringPiece.isString_double_iff h.pieces
  | hidden ps =>
    cases site with
    | accessor => exact StringPiece.isString_single_iff h.pieces
    | _ => exact StringPiece.isString_double_iff h.pieces
  | string quote ps =>
    obtain ⟨hquote, hps⟩ := h
    cases site with
    | key => exact StringPiece.isString_string_iff hquote hps
    | method => exact iff_false_intro (StringPiece.not_isString_requoted (.inr rfl) hquote hps)
    | accessor => exact iff_false_intro (StringPiece.not_isString_requoted (.inl rfl) hquote hps)
  | number l converted =>
    have hquoted {quote : Char} (hquote : quote = '\'' ∨ quote = '"') :
        number? (quote :: l.text ++ [quote]) = some l.value ∨
          IsString (quote :: l.text ++ [quote]) converted ↔ converted = l.text := by
      rw [List.cons_append, number?_quoted hquote, ← List.cons_append, StringPiece.isString_inert_iff
        hquote fun c hc => l.isInert_of_mem_text h hc]
      simp
    cases site with
    | key =>
      change number? (Literal.number l.text) = some l.value ∨
        IsString (Literal.number l.text) converted ↔ l.isFalseOctal = false
      rw [or_iff_left (not_isString_number h converted), l.number_text h, l.number?_php h]
      cases l.isFalseOctal <;> simp
    | method => exact hquoted (.inr rfl)
    | accessor => exact hquoted (.inl rfl)

end Denotation

end NameSite

/-- A node that is a name of a property. -/
structure Node.Names (n : Node) (name : PropertyName) : Prop where
  kind : n.kind = name.kind
  text : n.text.toList = name.text
  valid : name.Valid

section Spelling

theorem PropertyName.head?_spelling {name : PropertyName} (h : name.Valid) :
    name.spelling.head? ≠ some '#' := by
  have hname {ps : List StringPiece} (hps : StringPiece.IsName ps) :
      (ps.flatMap StringPiece.text).head? ≠ some '#' := by
    obtain ⟨p, hp, -⟩ := hps.first
    obtain ⟨more, rfl⟩ := List.head?_eq_some_iff.mp hp
    have hpiece := hps.pieces p List.mem_cons_self
    cases p with
    | plain c =>
      have hc : c ≠ '#' := StringPiece.ne_of_isNameChar hpiece (by decide)
      simpa [StringPiece.text] using hc
    | unicode a b c d => simp [StringPiece.text]
    | braced digits => simp [StringPiece.text]
    | _ => cases hpiece
  cases name with
  | plain ps => exact hname h
  | hidden ps => exact hname h
  | string quote ps => rcases h.1 with rfl | rfl <;> simp [spelling]
  | number l converted =>
    intro heq
    exact absurd (l.mem_text h (List.mem_of_head? heq)) (by decide)

theorem Node.Names.publicName {n : Node} {name : PropertyName} (h : n.Names name) :
    n.publicName.toList = name.spelling := by
  have hkept : name.spelling.dropWhile (· = '#') = name.spelling := by
    have hhead := PropertyName.head?_spelling h.valid
    cases hspelling : name.spelling with
    | nil => rfl
    | cons c rest =>
      rw [hspelling] at hhead
      rw [List.dropWhile_cons_of_neg]
      simpa using hhead
  rw [Node.publicName, String.toList_ofList, h.text]
  cases name with
  | hidden ps => exact hkept
  | _ => exact hkept

end Spelling

section Writing

variable {env : EmitEnv} {s : EmitState} {n : Node} {name : PropertyName}

/-- An identifier writes what its name is read as. -/
theorem texts_identifier (hkind : n.kind = .identifier) :
    (identifier n {}).texts env s = [(s.scopes.reading n.text).toList] := by
  have hresolve : s.scopes.resolve? n = s.scopes.lookup? n.text :=
    Scopes.resolve?_of_isName (by simp [Node.isName, hkind])
  unfold identifier Scopes.reading
  by_cases hundefined : n.text = "undefined"
  · simp only [hundefined, if_true, Bool.or_self, Bool.false_eq_true, if_false]
    rfl
  simp only [hundefined, if_false, Bool.or_self, Bool.false_eq_true, texts_bind, run_getScopes]
  cases hlookup : s.scopes.lookup? n.text with
  | some d =>
    have hconstant : Builtin.constant? s.scopes n = none := by
      simp [Builtin.constant?, Scopes.isUnbound, hresolve, hlookup]
    rw [hconstant]
    simp only [texts_bind, run_resolve, hresolve, hlookup]
    split
    · rfl
    · split <;> rfl
  | none =>
    have hconstant : Builtin.constant? s.scopes n = Builtin.globalConstants.lookup n.text := by
      simp [Builtin.constant?, Scopes.isUnbound, hkind, hresolve, hlookup]
    rw [hconstant]
    cases Builtin.globalConstants.lookup n.text with
    | some constant => rfl
    | none =>
      simp only [texts_bind, run_resolve, hresolve, hlookup]
      rfl

theorem toList_quoted (text : String) : s!"\"{text}\"".toList = '"' :: text.toList ++ ['"'] := by
  change ("\"" ++ text ++ "\"").toList = _
  simp

theorem texts_shorthandProperty (n : Node) :
    (shorthandProperty n).texts env s =
      [('"' :: n.text.toList ++ ['"']) ++ " => $".toList ++ n.text.toList] := by
  change [("\"" ++ n.text ++ "\" => $" ++ n.text).toList] = _
  simp

theorem texts_key {k : Part n} (hk : k.node.Names name) :
    (key (fun p c => emitNode p.node c) k).texts env s = [NameSite.key.literal name] := by
  have hquoted : s!"\"{k.node.publicName}\"".toList = '"' :: name.spelling ++ ['"'] := by
    rw [toList_quoted, hk.publicName]
  have hkind := hk.kind
  cases name with
  | plain ps =>
    have hname : k.node.kind = .propertyIdentifier := hkind
    simp only [key, hname, decide_true, Bool.true_or, if_true, texts_around, texts_emit, hquoted]
    rfl
  | hidden ps =>
    have hname : k.node.kind = .privatePropertyIdentifier := hkind
    simp only [key, hname, decide_true, Bool.or_true, if_true, texts_around, texts_emit, hquoted]
    rfl
  | string quote ps =>
    have hname : k.node.kind = .string := hkind
    have hrule : rule? k.node.kind = some fun n _ _ => stringLiteral n := by rw [hname]; rfl
    have htext : k.node.text.toList = quote :: (ps.flatMap StringPiece.text ++ [quote]) := hk.text
    have hkey : key (fun p c => emitNode p.node c) k = emitNode k.node {} := by simp [key, hname]
    rw [hkey, texts_emitNode hrule, stringLiteral, stringText, htext]
    simp only [List.dropLast_concat]
    rfl
  | number l converted =>
    have hname : k.node.kind = .number := hkind
    have hrule : rule? k.node.kind = some fun n _ _ => numberLiteral n := by rw [hname]; rfl
    have htext : k.node.text.toList = l.text := hk.text
    have hkey : key (fun p c => emitNode p.node c) k = emitNode k.node {} := by simp [key, hname]
    rw [hkey, texts_emitNode hrule, numberLiteral, htext]
    rfl

theorem head?_texts_pair {context : Context} {k v : Node}
    (hkind : n.kind = .pair ∨ n.kind = .pairPattern) (hkey : n.child? .key = some k)
    (hvalue : n.child? .value = some v) (hk : k.Names name) :
    ((emitNode n context).texts env s).head? = some (NameSite.key.literal name) := by
  obtain ⟨p, hp, rfl⟩ := Option.map_eq_some_iff.mp ((Node.map_node_part? n .key).trans hkey)
  obtain ⟨q, hq, rfl⟩ := Option.map_eq_some_iff.mp ((Node.map_node_part? n .value).trans hvalue)
  have hfirst (u : EmitState) : ((key (fun p c => emitNode p.node c) p).texts env u).head? =
      some (NameSite.key.literal name) := by
    rw [texts_key hk]
    rfl
  rcases hkind with hkind | hkind
  · have hrule : rule? n.kind = some fun n visit _ => pair n visit := by rw [hkind]; rfl
    rw [texts_emitNode hrule, pair, need_eq hp, texts_pure_bind]
    exact head?_texts_bind (hfirst _)
  · have hrule : rule? n.kind = some fun n visit _ => pairPattern n visit := by rw [hkind]; rfl
    rw [texts_emitNode hrule, pairPattern, need_eq hq, texts_pure_bind, need_eq hp, texts_pure_bind]
    exact head?_texts_bind (hfirst _)

theorem head?_texts_method {context : Context} {k : Node} (hkind : n.kind = .methodDefinition)
    (haccessor : n.accessor? = none) (hplace : context.place = .objectMember)
    (hname : n.child? .name = some k) (hk : k.Names name) :
    ((emitNode n context).texts env s).head? =
      some (NameSite.method.literal name ++ " => ".toList) := by
  obtain ⟨p, hp, rfl⟩ := Option.map_eq_some_iff.mp ((Node.map_node_part? n .name).trans hname)
  have hrule : rule? n.kind = some method := by rw [hkind]; rfl
  have hcomputed : p.node.kind ≠ .computedPropertyName := by
    rw [hk.kind]
    cases name <;> simp [PropertyName.kind]
  have hliteral : s!"\"{p.node.publicName}\" => ".toList =
      NameSite.method.literal name ++ " => ".toList := by
    have hquoted : NameSite.method.literal name = '"' :: name.spelling ++ ['"'] := by
      cases name <;> rfl
    change ("\"" ++ p.node.publicName ++ "\" => ").toList = _
    simp [hquoted, hk.publicName]
  rw [texts_emitNode hrule, method, need_eq hp]
  simp only [haccessor, Option.isSome_none, Bool.false_eq_true, if_false, hplace, if_true]
  rw [texts_pure_bind, if_neg hcomputed]
  apply head?_texts_bind
  rw [texts_emit, hliteral]
  rfl

theorem mem_texts_classBody {a k : Node} {t : EmitState} (hkind : n.kind = .classBody)
    (hrun : (emitNode n {}).run env s = .ok () t) (ha : a ∈ n.children)
    (haccessor : a.accessor?.isSome = true) (hname : a.child? .name = some k) (hk : k.Names name) :
    "if ($_property === ".toList ++ NameSite.accessor.literal name ++ ") ".toList ∈
      (emitNode n {}).texts env s := by
  obtain ⟨accessor, haccessor⟩ := Option.isSome_iff_exists.mp haccessor
  obtain ⟨u, hu⟩ := exists_comparison (runs_of_run hrun) hkind ha haccessor hname
  have hliteral : NameSite.accessor.literal name = '\'' :: name.spelling ++ ['\''] := by
    cases name <;> rfl
  rw [hliteral, ← hk.publicName, ← comparison_eq]
  exact List.mem_filterMap.mpr ⟨_, hu, rfl⟩

end Writing

/-- A variable is written as a dollar and its name, also where it gives a property its name. -/
structure VariableWritten (env : EmitEnv) (s : EmitState) (ps : List StringPiece) : Prop where
  identifier {n : Node} : n.kind = .identifier → n.text.toList = ps.flatMap StringPiece.text →
    s.scopes.namesVariable n.text = true →
    (emitNode n {}).texts env s = ['$' :: ps.flatMap StringPiece.text]
  shorthand {n : Node} {context : Context} :
    n.kind = .shorthandProperty ∨ n.kind = .shorthandPattern →
    n.text.toList = ps.flatMap StringPiece.text →
    (emitNode n context).texts env s = [NameSite.key.literal (.plain ps) ++ " => ".toList ++
      '$' :: ps.flatMap StringPiece.text]

/-- The name of a property is written as the literal for the place where it stands. -/
structure PropertyWritten (env : EmitEnv) (s : EmitState) (name : PropertyName) : Prop where
  pair {n k v : Node} {context : Context} : n.kind = .pair ∨ n.kind = .pairPattern →
    n.child? .key = some k → n.child? .value = some v → k.Names name →
    ((emitNode n context).texts env s).head? = some (NameSite.key.literal name)
  method {n k : Node} {context : Context} : n.kind = .methodDefinition → n.accessor? = none →
    context.place = .objectMember → n.child? .name = some k → k.Names name →
    ((emitNode n context).texts env s).head? = some (NameSite.method.literal name ++ " => ".toList)
  accessor {n a k : Node} {t : EmitState} : n.kind = .classBody →
    (emitNode n {}).run env s = .ok () t → a ∈ n.children → a.accessor?.isSome = true →
    a.child? .name = some k → k.Names name →
    "if ($_property === ".toList ++ NameSite.accessor.literal name ++ ") ".toList ∈
      (emitNode n {}).texts env s

section Written

variable (env : EmitEnv) (s : EmitState)

theorem variableWritten (ps : List StringPiece) : VariableWritten env s ps where
  identifier := by
    intro n hkind htext hvariable
    have hrule : rule? n.kind = some fun n _ context => identifier n context := by rw [hkind]; rfl
    have hreading := (Scopes.reading_eq_iff s.scopes n.text).mpr hvariable
    rw [texts_emitNode hrule, texts_identifier hkind]
    change [(s.scopes.reading n.text).toList] = _
    rw [hreading, String.toList_append, htext]
    rfl
  shorthand := by
    intro n context hkind htext
    have hrule : rule? n.kind = some fun n _ _ => shorthandProperty n := by
      rcases hkind with hkind | hkind <;> rw [hkind] <;> rfl
    rw [texts_emitNode hrule, texts_shorthandProperty, htext]
    simp [NameSite.literal, PropertyName.spelling]

theorem propertyWritten (name : PropertyName) : PropertyWritten env s name where
  pair := head?_texts_pair
  method := head?_texts_method
  accessor := mem_texts_classBody

end Written

/-- The name `$a`. -/
def StringPiece.dollarA : List StringPiece := [.plain '$', .plain 'a']

theorem StringPiece.isName_dollarA : IsName dollarA where
  pieces := by decide
  first := by
    refine ⟨.plain '$', rfl, ?_⟩
    rintro c heq
    cases heq
    decide

/-- The number `1e3`. -/
def NumberLiteral.thousand : NumberLiteral := .decimal ['1'] none (some ⟨'e', none, ['3']⟩)

theorem NumberLiteral.valid_thousand : thousand.Valid := by
  refine ⟨by decide, by decide, by decide, .inr rfl, ?_⟩
  rintro e heq
  cases heq
  exact ⟨by decide, by simp, by decide, by decide⟩

end EcmaPhp
