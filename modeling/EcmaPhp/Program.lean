import EcmaPhp.Emit.Rules
import EcmaPhp.Tree.OfConcrete

/-! Whole programs: from source text and its concrete tree to PHP text. -/
namespace EcmaPhp

/-- How much of a faulty stretch a failure shows, in bytes. -/
def snippetSize : Nat := 40

/-- The failure for the first stretch that the parser could make nothing of. -/
def Concrete.failure? (bytes : List UInt8) (tree : Concrete) : Option Failure :=
  tree.firstFault?.map fun c =>
    let snippet := (Concrete.slice bytes c.start c.stop).take snippetSize
    .fault (c.location bytes) (String.ofList (Text.Utf8.decodeLossy snippet))

def sourceLanguage : String := "javascript"

/-- The tree of a program whose concrete tree has no faults. -/
def parse (language source : String) (tree : Concrete) : Except Failure Node :=
  if language != sourceLanguage then .error (.unknownLanguage language)
  else
    let bytes := Text.Utf8.encode source.toList
    match tree.failure? bytes with
    | some failure => .error failure
    | none => .ok (.ofConcrete bytes tree)

/-- The result of a program, or why there is none, with the events on the way. -/
structure Outcome where
  result : Except Failure String
  log : List Event

/-- The PHP text of a tree. -/
def emitTree (options : Options) (tokens : TokenIndex) (root : Node) : Outcome :=
  match (emitProgram root).run { options, tokens } {} with
  | .ok _ s => ⟨.ok (String.ofList s.output.text), s.log⟩
  | .error failure s => ⟨.error failure, s.log⟩

/-- The PHP text of a program. -/
def toPhp (options : Options) (source : String) (tree : Concrete) : Outcome :=
  let bytes := Text.Utf8.encode source.toList
  let started := Event.started source.length
  match parse sourceLanguage source tree with
  | .error failure =>
    let found := match failure with
      | .fault location _ => [Event.faultFound sourceLanguage location]
      | _ => []
    ⟨.error failure, started :: found⟩
  | .ok root =>
    let outcome := emitTree options (.ofTree bytes tree) root
    let finished := match outcome.result with
      | .ok text => [Event.finished root.location.last.line (text.toList.count '\n')]
      | .error _ => []
    ⟨outcome.result,
      started :: .treeBuilt root.kind root.location.last.line :: outcome.log ++ finished⟩

end EcmaPhp
