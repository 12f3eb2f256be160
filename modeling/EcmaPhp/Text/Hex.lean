/-! Numbers in hexadecimal, with lower case digits. -/
namespace EcmaPhp.Text

def hexDigits : List Char := "0123456789abcdef".toList

/-- The lowest `width` hexadecimal digits of a number. -/
def hexPadded : Nat → Nat → List Char
  | 0, _ => []
  | width + 1, n => hexPadded width (n / 16) ++ [hexDigits.getD (n % 16) '0']

end EcmaPhp.Text
