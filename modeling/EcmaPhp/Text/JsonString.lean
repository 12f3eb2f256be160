import EcmaPhp.Text.Hex

/-! JSON strings in ASCII: what lies beyond is written as escaped UTF-16 units. -/
namespace EcmaPhp.Text.JsonString

def escapedUnit (unit : Nat) : List Char := '\\' :: 'u' :: hexPadded 4 unit

/-- A character by its UTF-16 units, one or a surrogate pair. -/
def escapedUnits (c : Char) : List Char :=
  if c.toNat < 0x10000 then escapedUnit c.toNat
  else
    let n := c.toNat - 0x10000
    escapedUnit (0xD800 + n / 0x400) ++ escapedUnit (0xDC00 + n % 0x400)

def encodeChar (c : Char) : List Char :=
  if c = '"' || c = '\\' then ['\\', c]
  else if c = '\n' then ['\\', 'n']
  else if c = '\r' then ['\\', 'r']
  else if c = '\t' then ['\\', 't']
  else if c = '\x08' then ['\\', 'b']
  else if c = '\x0c' then ['\\', 'f']
  else if c.toNat < 0x20 || 0x7F ≤ c.toNat then escapedUnits c
  else [c]

def encode (text : List Char) : List Char := '"' :: text.flatMap encodeChar ++ ['"']

end EcmaPhp.Text.JsonString
