/-! String bodies between double quotes: an escape either means the same there, or becomes one that
does, or gives way to the character itself. -/
namespace EcmaPhp.Literal

def isHex (c : Char) : Bool :=
  ('0' ≤ c && c ≤ '9') || ('a' ≤ c && c ≤ 'f') || ('A' ≤ c && c ≤ 'F')

/-- Whether a text begins with hexadecimal digits in braces. -/
def startsBraced : List Char → Bool
  | '\x7b' :: rest => !(rest.takeWhile isHex).isEmpty && (rest.dropWhile isHex).head? = some '\x7d'
  | _ => false

/-- The escape of a single character. -/
def escapeOf (c : Char) : List Char :=
  if "nrtvf\\0\"$".toList.contains c then ['\\', c]
  else if c = 'b' then "\\x08".toList
  else if c = '\n' then []
  else [c]

/-- A string body as it stands between double quotes. -/
def doubleQuotedBody : List Char → List Char
  | [] => []
  | ['\\'] => ['\\']
  | '\\' :: c :: rest =>
    if c = 'u' && startsBraced rest then '\\' :: 'u' :: doubleQuotedBody rest
    else if c = 'x' && (rest.take 2).length = 2 && (rest.take 2).all isHex then
      '\\' :: 'x' :: doubleQuotedBody rest
    else
      match rest with
      | h₁ :: h₂ :: h₃ :: h₄ :: rest' =>
        if c = 'u' && [h₁, h₂, h₃, h₄].all isHex then
          ['\\', 'u', '\x7b', h₁, h₂, h₃, h₄, '\x7d'] ++ doubleQuotedBody rest'
        else escapeOf c ++ doubleQuotedBody (h₁ :: h₂ :: h₃ :: h₄ :: rest')
      | rest => escapeOf c ++ doubleQuotedBody rest
  | c :: rest =>
    if c = '$' || c = '"' then '\\' :: c :: doubleQuotedBody rest else c :: doubleQuotedBody rest

def doubleQuoted (body : List Char) : List Char := '"' :: doubleQuotedBody body ++ ['"']

/-- Whether a body means the same between single quotes in both languages: only backslashes and
single quotes are escaped in it. -/
def isPlain : List Char → Bool
  | [] => true
  | '\\' :: '\\' :: rest => isPlain rest
  | '\\' :: '\'' :: rest => isPlain rest
  | '\\' :: _ => false
  | _ :: rest => isPlain rest

/-- A string literal. The name of the undefined type is that of the null type. -/
def string (quote : Char) (body : List Char) : List Char :=
  if body = "undefined".toList then quote :: "NULL".toList ++ [quote]
  else if quote = '\'' && isPlain body then quote :: body ++ [quote]
  else doubleQuoted body

end EcmaPhp.Literal
