import EcmaPhp.Source.Location
import EcmaPhp.Text.LineEnds
import EcmaPhp.Text.Split

/-! Comments of the source and their lines in the output. -/
namespace EcmaPhp

inductive CommentKind where
  | line | block
  deriving DecidableEq, Repr

/-- A comment without its delimiters. Two comments of one source differ in their `id`. -/
structure Comment where
  id : Nat
  kind : CommentKind
  value : String
  location : Location
  deriving DecidableEq, Repr

namespace Comment

/-- Reads a comment with its delimiters. Text that has none becomes a line comment. -/
def ofText (id : Nat) (location : Location) (source : String) : Comment :=
  let text := Text.joinLineEnds source.toList
  match text with
  | '/' :: '*' :: body =>
    let closed := ['*', '/'].isSuffixOf text
    ⟨id, .block, String.ofList (if closed then (text.take (text.length - 2)).drop 2 else body),
      location⟩
  | '/' :: '/' :: body => ⟨id, .line, String.ofList (Text.trimEnd (· = '\r') body), location⟩
  | _ => ⟨id, .line, String.ofList (' ' :: Text.trimEnd (· = '\r') text), location⟩

def isBlock (c : Comment) : Bool := c.kind = .block

def lines (c : Comment) : List String := (Text.split '\n' c.value.toList).map String.ofList

/-- A line that begins with a star stands one space in. -/
def alignLine (text : List Char) : List Char :=
  match text with
  | '*' :: _ => ' ' :: text
  | _ => text

/-- The later lines of a block comment without the blanks before them, the last one with the closing
delimiter. -/
def blockRest : List (List Char) → List (List Char)
  | [] => []
  | [last] => [alignLine (last.dropWhile Text.isBlank ++ ['*', '/'])]
  | text :: rest => alignLine (text.dropWhile Text.isBlank) :: blockRest rest

/-- The comment as written, line by line and without indentation. -/
def outputLines (c : Comment) : List (List Char) :=
  match c.kind with
  | .line => ['/' :: '/' :: c.value.toList]
  | .block =>
    match Text.split '\n' c.value.toList with
    | [] => []
    | [only] => ['/' :: '*' :: only ++ ['*', '/']]
    | first :: rest => ('/' :: '*' :: first) :: blockRest rest

end Comment
end EcmaPhp
