/-! Regular expressions and numbers. -/
namespace EcmaPhp.Literal

/-- The flags that both dialects of regular expressions know. -/
def isSharedFlag (c : Char) : Bool := "imsux".toList.contains c

/-- A regular expression as a string between single quotes. -/
def regex (pattern flags : List Char) : List Char :=
  let body := '/' :: pattern ++ '/' :: flags.filter isSharedFlag
  let escaped := body.flatMap fun c => if c = '\\' || c = '\'' then ['\\', c] else [c]
  '\'' :: escaped ++ ['\'']

/-- A number without digit separators and without the mark of a big integer. -/
def number (text : List Char) : List Char :=
  let digits := text.filter (· != '_')
  if digits.getLast? = some 'n' then digits.dropLast else digits

end EcmaPhp.Literal
