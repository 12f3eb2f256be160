import EcmaPhp.Text.Quoted
import EcmaPhp.Tree.Outline

/-! Why a program has no output. -/
namespace EcmaPhp

inductive Failure where
  /-- The parser could make nothing of the snippet. -/
  | fault (location : Location) (snippet : String)
  /-- There is no rule for the node. -/
  | unsupported (node : Node) (reason : Option String)
  /-- The node lacks a field that its rule needs. -/
  | missingField (node : Node) (field : Field)
  /-- The node lacks a child that its rule needs. -/
  | missingChild (node : Node)
  /-- Programs are read in one language only. -/
  | unknownLanguage (language : String)

namespace Failure

def message : Failure → String
  | .fault location snippet =>
    "Syntax error at " ++ location.text ++
      (if snippet.isEmpty then "" else " near " ++ Text.quoted snippet)
  | .unsupported node reason =>
    "'" ++ node.kind.name ++ "' not implemented at " ++ node.location.text ++
      (match reason with
        | some reason => " (" ++ reason ++ ")"
        | none => "") ++
      ": " ++ node.outline
  | .missingField node field => s!"{node.kind.name} has no {field.text}"
  | .missingChild node => s!"{node.kind.name} has no children"
  | .unknownLanguage language => "Unsupported source language: " ++ language

end Failure
end EcmaPhp
