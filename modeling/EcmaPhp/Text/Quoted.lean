import EcmaPhp.Text.Hex
import EcmaPhp.Text.Printable

/-! Quoted text in messages: single quotes unless only double quotes avoid an escape, and visible
escapes for what cannot be shown. -/
namespace EcmaPhp.Text

namespace Quoted

/-- The quote around a text: double only where the text has a single quote and no double one. -/
def quoteFor (text : List Char) : Char :=
  if text.contains '\'' && !text.contains '"' then '"' else '\''

def encodeChar (quote c : Char) : List Char :=
  if c = quote || c = '\\' then ['\\', c]
  else if c = '\n' then ['\\', 'n']
  else if c = '\r' then ['\\', 'r']
  else if c = '\t' then ['\\', 't']
  else if isPrintable c then [c]
  else if c.toNat < 0x100 then '\\' :: 'x' :: hexPadded 2 c.toNat
  else if c.toNat < 0x10000 then '\\' :: 'u' :: hexPadded 4 c.toNat
  else '\\' :: 'U' :: hexPadded 8 c.toNat

def encode (text : List Char) : List Char :=
  let quote := quoteFor text
  quote :: text.flatMap (encodeChar quote) ++ [quote]

end Quoted

/-- A text in quotes, as messages show it. -/
def quoted (text : String) : String := String.ofList (Quoted.encode text.toList)

end EcmaPhp.Text
