import EcmaPhp.Text.Split

/-! Class names from module paths. -/
namespace EcmaPhp.Literal

def isWordChar (c : Char) : Bool := c.isDigit || c.isAlpha

/-- Runs words together, each with a capital first letter; `atStart` tells that a word may begin. -/
def capitalizeWords (atStart : Bool) : List Char → List Char
  | [] => []
  | c :: rest =>
    if isWordChar c then (if atStart then c.toUpper else c) :: capitalizeWords false rest
    else capitalizeWords true rest

def joinWith (separator : Char) : List (List Char) → List Char
  | [] => []
  | [last] => last
  | first :: rest => first ++ separator :: joinWith separator rest

/-- The segments of a path that name something. -/
def pathSegments (path : List Char) : List (List Char) :=
  (Text.split '/' (path.map fun c => if c = '\\' then '/' else c)).filter fun s =>
    s != [] && s != ['.'] && s != ['.', '.']

/-- A module path as a qualified class name. -/
def className (path : String) : String :=
  String.ofList (joinWith '\\' ((pathSegments path.toList).map (capitalizeWords true)))

end EcmaPhp.Literal
