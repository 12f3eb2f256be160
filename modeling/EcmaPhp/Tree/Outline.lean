import EcmaPhp.Text.JsonString
import EcmaPhp.Tree.Node

/-! The outline of a node as JSON text: kind, location, and children or text. -/
namespace EcmaPhp.Node

def jsonString (text : String) : List Char := Text.JsonString.encode text.toList

def commaSeparated : List (List Char) → List Char
  | [] => []
  | [last] => last
  | item :: rest => item ++ ", ".toList ++ commaSeparated rest

mutual
def outlineChars : Node → List Char
  | ⟨kind, location, _, _, text, _, _, _, _, _, _, _, children⟩ =>
    "\x7b\"type\": ".toList ++ jsonString kind.name ++ ", \"location\": ".toList ++
      jsonString location.text ++
      (match children with
        | [] => ", \"text\": ".toList ++ jsonString text
        | _ :: _ => ", \"children\": [".toList ++ commaSeparated (outlineAll children) ++ [']']) ++
      ['\x7d']
def outlineAll : List Node → List (List Char)
  | [] => []
  | n :: rest => outlineChars n :: outlineAll rest
end

def outline (n : Node) : String := String.ofList n.outlineChars

end EcmaPhp.Node
