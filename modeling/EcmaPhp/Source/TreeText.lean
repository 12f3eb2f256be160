import EcmaPhp.Source.Concrete

/-! Concrete trees in writing: a node is a list of its kind, its flags, its two offsets, and then
its field and the list of its children as far as it has them. -/
namespace EcmaPhp.TreeText

inductive Sign where
  | opening | closing | comma | null
  | number (value : Nat)
  | text (value : List Char)
  deriving DecidableEq, Repr

/-- Where a reader of signs stands; the characters of a text under way are newest first. -/
inductive Mode where
  | between
  | number (value : Nat)
  | null (rest : List Char)
  | text (read : List Char)
  | escape (read : List Char)
  deriving DecidableEq, Repr

/-- The character of a short escape. -/
def escaped? : Char → Option Char
  | 'n' => some '\n'
  | 't' => some '\t'
  | 'r' => some '\r'
  | 'b' => some '\x08'
  | 'f' => some '\x0c'
  | '"' => some '"'
  | '\\' => some '\\'
  | '/' => some '/'
  | _ => none

/-- A character between signs: the sign that it is, and where the reader stands after it. -/
def readBetween (c : Char) : Option (List Sign × Mode) :=
  if c.isWhitespace then some ([], .between)
  else if c.isDigit then some ([], .number (c.toNat - 48))
  else
    match c with
    | '[' => some ([.opening], .between)
    | ']' => some ([.closing], .between)
    | ',' => some ([.comma], .between)
    | '"' => some ([], .text [])
    | 'n' => some ([], .null "ull".toList)
    | _ => none

def readChar (mode : Mode) (c : Char) : Option (List Sign × Mode) :=
  match mode with
  | .between => readBetween c
  | .number value =>
    if c.isDigit then some ([], .number (10 * value + (c.toNat - 48)))
    else (readBetween c).map fun (signs, mode) => (.number value :: signs, mode)
  | .null (expected :: rest) =>
    if c != expected then none
    else if rest.isEmpty then some ([.null], .between) else some ([], .null rest)
  | .null [] => none
  | .text read =>
    if c = '"' then some ([.text read.reverse], .between)
    else some ([], if c = '\\' then .escape read else .text (c :: read))
  | .escape read =>
    (escaped? c).map fun c => ([], .text (c :: read))

def readSigns (mode : Mode) : List Char → Option (List Sign)
  | [] => match mode with
    | .between => some []
    | .number value => some [.number value]
    | _ => none
  | c :: rest => do
    let (signs, mode) ← readChar mode c
    return signs ++ (← readSigns mode rest)

inductive Item where
  | null
  | number (value : Nat)
  | text (value : List Char)
  | list (items : List Item)

/-- Reads signs with a stack of lists under way, their items newest first. Commas say nothing that
the items do not. -/
def readItems (stack : List (List Item)) : List Sign → Option (List Item)
  | [] => match stack with
    | [items] => some items.reverse
    | _ => none
  | .comma :: rest => readItems stack rest
  | .opening :: rest => readItems ([] :: stack) rest
  | .closing :: rest => match stack with
    | items :: outer :: stack => readItems ((.list items.reverse :: outer) :: stack) rest
    | _ => none
  | .null :: rest => push .null rest
  | .number value :: rest => push (.number value) rest
  | .text value :: rest => push (.text value) rest
where
  push (item : Item) (rest : List Sign) : Option (List Item) :=
    match stack with
    | items :: outer => readItems ((item :: items) :: outer) rest
    | [] => none

mutual
def concrete? : Item → Option Concrete
  | .list (.text kind :: .number flags :: .number start :: .number stop :: rest) => do
    let node (field : Option (List Char)) (children : List Concrete) : Concrete :=
      { kind := String.ofList kind, named := flags % 2 = 1, missing := flags / 2 % 2 = 1
        start, stop, field := field.map String.ofList, children }
    match rest with
    | [] => return node none []
    | [.null] => return node none []
    | [.text field] => return node (some field) []
    | [.null, .list children] => return node none (← concreteAll? children)
    | [.text field, .list children] => return node (some field) (← concreteAll? children)
    | _ => none
  | _ => none
def concreteAll? : List Item → Option (List Concrete)
  | [] => some []
  | item :: rest => do return (← concrete? item) :: (← concreteAll? rest)
end

end EcmaPhp.TreeText

/-- Reads a concrete tree. -/
def EcmaPhp.Concrete.read? (text : String) : Option EcmaPhp.Concrete := do
  match ← EcmaPhp.TreeText.readItems [[]] (← EcmaPhp.TreeText.readSigns .between text.toList) with
  | [item] => EcmaPhp.TreeText.concrete? item
  | _ => none
