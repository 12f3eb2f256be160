/-! What a caller may choose about the output. -/
namespace EcmaPhp

structure Options where
  conciseArrays : Bool := true
  namespaceName : Option String := none
  watermark : Option String := none
  deriving DecidableEq, Repr

namespace Options

/-- The namespace, if one is named. -/
def namespace? (o : Options) : Option String := o.namespaceName.filter (!·.isEmpty)

/-- The watermark, if there is any text to it. -/
def watermark? (o : Options) : Option String := o.watermark.filter (!·.isEmpty)

def arrayOpen (o : Options) : String := if o.conciseArrays then "[" else "array("

def arrayClose (o : Options) : String := if o.conciseArrays then "]" else ")"

/-- A name inside the namespace. -/
def qualify (o : Options) (name : String) : String :=
  match o.namespace? with
  | some outer => outer ++ "\\" ++ name
  | none => name

end Options
end EcmaPhp
