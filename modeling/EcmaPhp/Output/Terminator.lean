import EcmaPhp.Output.Basic

/-! Statement terminators at the end of the output. -/
namespace EcmaPhp.Output

/-- A reversed text that begins with blanks, at most one line end among them, and a semicolon. -/
def startsTerminated (reversed : List Char) : Bool :=
  match reversed.dropWhile Text.isBlank with
  | ';' :: _ => true
  | '\n' :: rest => (rest.dropWhile Text.isBlank).head? = some ';'
  | _ => false

/-- Whether a text ends in a semicolon, blanks and one line end apart; a line end that is the very
last character does not count. -/
def isTerminated (text : List Char) : Bool :=
  let reversed := text.reverse
  startsTerminated reversed ||
    match reversed with
    | '\n' :: rest => startsTerminated rest
    | _ => false

def ensureTerminator (o : Output) : Output := if isTerminated o.tail then o else o.emit ";"

/-- Makes the semicolon at the start of a reversed text, blanks apart, a comma and a space. -/
def separateReversed? (reversed : List Char) : Option (List Char) :=
  match reversed.dropWhile Text.isBlank with
  | ';' :: rest => some (reversed.takeWhile Text.isBlank ++ ' ' :: ',' :: rest)
  | _ => none

/-- Makes the semicolon at the end of a text a comma and a space; blanks, and a line end that is
the very last character, may follow it. -/
def separate? (text : List Char) : Option (List Char) :=
  match text.reverse with
  | '\n' :: rest => (separateReversed? rest).map fun r => ('\n' :: r).reverse
  | reversed => (separateReversed? reversed).map List.reverse

/-- Makes the terminator at the end of the output a separator. -/
def terminatorToSeparator (o : Output) : Output :=
  match separate? o.tail with
  | some text => (o.dropTail o.tail.length).emitChars text
  | none => o

end EcmaPhp.Output
