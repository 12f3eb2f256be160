/-! Line ends of other systems. -/
namespace EcmaPhp.Text

/-- Replaces every carriage return that stands before a line feed by nothing. -/
def joinLineEnds : List Char → List Char
  | '\r' :: '\n' :: rest => '\n' :: joinLineEnds rest
  | c :: rest => c :: joinLineEnds rest
  | [] => []

/-- Makes every line end, `\r\n`, `\r` or `\n`, a line feed. -/
def foldLineEnds : List Char → List Char
  | '\r' :: '\n' :: rest => '\n' :: foldLineEnds rest
  | '\r' :: rest => '\n' :: foldLineEnds rest
  | c :: rest => c :: foldLineEnds rest
  | [] => []

end EcmaPhp.Text
