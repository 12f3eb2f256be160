import EcmaPhp.Scope.Basic
import EcmaPhp.Text.Quoted

/-! What a run reports besides its result. -/
namespace EcmaPhp

inductive Level where
  | debug | info | warning
  deriving DecidableEq, Repr

def Level.name : Level → String
  | .debug => "DEBUG"
  | .info => "INFO"
  | .warning => "WARNING"

inductive Event where
  | started (characters : Nat)
  | faultFound (language : String) (location : Location)
  | treeBuilt (kind : Kind) (lines : Int)
  | captured (scope : ScopeKind) (name : String)
  | replaced (what : String) (location : Location) (result : String)
  | calledIndirectly (location : Location) (function : String)
  | promoted (key : String)
  | suspensionIgnored (keyword : String) (location : Location)
  | labelDropped (label : String) (location : Location) (keyword : String)
  | finished (sourceLines : Int) (outputLines : Nat)
  | wrote (path : String)
  deriving DecidableEq, Repr

namespace Event

def level : Event → Level
  | .started .. | .finished .. | .wrote .. => .info
  | .calledIndirectly .. | .suspensionIgnored .. | .labelDropped .. => .warning
  | .faultFound .. | .treeBuilt .. | .captured .. | .replaced .. | .promoted .. => .debug

/-- The part of the program that reports the event. -/
def origin : Event → String
  | .started .. | .finished .. => "js2php.api"
  | .faultFound .. => "js2php.parser"
  | .treeBuilt .. => "js2php.nodes"
  | .captured .. => "js2php.scope"
  | .replaced .. | .calledIndirectly .. => "js2php.builtins"
  | .promoted .. | .suspensionIgnored .. | .labelDropped .. => "js2php.translator"
  | .wrote .. => "js2php.cli"

def message : Event → String
  | .started characters => s!"Translating {characters} bytes of JavaScript"
  | .faultFound language location => s!"Parse error in {language} source at {location.text}"
  | .treeBuilt kind lines => s!"Adapted {kind.name} tree spanning {lines} lines"
  | .captured scope name => s!"Scope {scope.name} captures {name}"
  | .replaced what location result => s!"Rewrote {what} at {location.text} to {result}"
  | .calledIndirectly location function =>
    s!"Indirect invocation at {location.text} rewritten to {function}(); " ++
      "bound this is not preserved"
  | .promoted key => s!"Promoted constructor property {key} to a field"
  | .suspensionIgnored keyword location =>
    s!"{keyword} at {location.text} emitted as a plain expression"
  | .labelDropped label location keyword =>
    s!"Label {Text.quoted label} at {location.text} dropped from {keyword}"
  | .finished sourceLines outputLines =>
    s!"Translated {sourceLines} source lines into {outputLines} PHP lines"
  | .wrote path => s!"Wrote {path}"

/-- The event as a line of a plain log. -/
def line (e : Event) : String := e.origin ++ ": " ++ e.message

/-- The event as a line of a log that shows levels. -/
def levelLine (e : Event) : String := e.level.name ++ " " ++ e.line

end Event
end EcmaPhp
