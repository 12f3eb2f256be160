import EcmaPhp.Text.Digit
import EcmaPhp.Text.Quoted

/-! Arguments of the command line. Options may stand before and after the file; long ones may be cut
short as long as they stay unique, short ones may be run together. -/
namespace EcmaPhp.CommandLine

structure Arguments where
  file : Option String := none
  namespaceName : Option String := none
  watermark : Option String := none
  output : Option String := none
  verboseArrays : Bool := false
  verbose : Bool := false
  deriving DecidableEq, Repr

inductive Switch where
  | help | namespaceName | watermark | verboseArrays | output | verbose
  deriving DecidableEq, Repr

/-- All spellings of options, in the order in which messages list them. -/
def spellings : List (String × Switch) := [
  ("-h", .help), ("--help", .help),
  ("--namespace", .namespaceName), ("-n", .namespaceName),
  ("--watermark", .watermark), ("-w", .watermark),
  ("--verbose-arrays", .verboseArrays),
  ("--output", .output), ("-o", .output),
  ("--verbose", .verbose), ("-v", .verbose)]

def Switch.takesValue : Switch → Bool
  | .namespaceName | .watermark | .output => true
  | .help | .verboseArrays | .verbose => false

/-- A switch with all its spellings. -/
def Switch.title (s : Switch) : String :=
  "/".intercalate ((spellings.filter (·.2 = s)).map (·.1))

inductive UsageError where
  | ambiguous (word : String) (candidates : List String)
  | valueMissing (switch : Switch)
  | valueIgnored (switch : Switch) (value : String)
  | unrecognized (words : List String)
  deriving DecidableEq, Repr

def UsageError.message : UsageError → String
  | .ambiguous word candidates =>
    "ambiguous option: " ++ word ++ " could match " ++ ", ".intercalate candidates
  | .valueMissing switch => "argument " ++ switch.title ++ ": expected one argument"
  | .valueIgnored switch value =>
    "argument " ++ switch.title ++ ": ignored explicit argument " ++ Text.quoted value
  | .unrecognized words => "unrecognized arguments: " ++ " ".intercalate words

/-- A word of the command line. -/
inductive Word where
  | plain (text : String)
  /-- The word after which all words are plain. -/
  | divider
  /-- An option, with the value that stands in the same word. -/
  | option (switch : Switch) (isLong : Bool) (attached : Option (List Char))
  | unknown (text : String)
  deriving DecidableEq, Repr

def isLong (text : List Char) : Bool := ['-', '-'].isPrefixOf text

def switch? (text : List Char) : Option Switch := spellings.lookup (String.ofList text)

/-- The part before the first equals sign, and the part after it if there is one. -/
def cutAtEquals (text : List Char) : List Char × Option (List Char) :=
  match text.dropWhile (· != '=') with
  | [] => (text, none)
  | _ :: value => (text.takeWhile (· != '='), some value)

/-- A number below zero, with or without a line feed at its end, is no option. -/
def looksNegative (text : List Char) : Bool :=
  Text.isNegativeNumber (if text.getLast? = some '\n' then text.dropLast else text)

/-- The options that a word may stand for. -/
def candidates (text : List Char) : List (String × Switch × Option (List Char)) :=
  if isLong text then
    let (name, attached) := cutAtEquals text
    (spellings.filter fun s => name.isPrefixOf s.1.toList).map fun s => (s.1, s.2, attached)
  else
    (spellings.filter fun s => s.1.toList = text.take 2).map fun s =>
      (s.1, s.2, some (text.drop 2))

def isOptionLike (text : List Char) : Bool :=
  match text with
  | '-' :: _ :: _ => true
  | _ => false

/-- A word that may be an option. -/
def readOption (word : String) : Except UsageError Word :=
  let text := word.toList
  match switch? text, cutAtEquals text with
  | some switch, _ => .ok (.option switch (isLong text) none)
  | none, (name, attached) =>
    match attached.bind fun a => (switch? name).map (·, a) with
    | some (switch, a) => .ok (.option switch (isLong name) (some a))
    | none =>
      match candidates text with
      | [(name, switch, attached)] => .ok (.option switch (isLong name.toList) attached)
      | [] => .ok (if looksNegative text || text.contains ' ' then .plain word else .unknown word)
      | several => .error (.ambiguous word (several.map (·.1)))

def readWords : List String → Except UsageError (List Word)
  | [] => .ok []
  | word :: rest =>
    if word = "--" then .ok (.divider :: rest.map .plain)
    else do
      let first ← if isOptionLike word.toList then readOption word else .ok (.plain word)
      return first :: (← readWords rest)

/-- What the words read so far say. -/
structure Reading where
  arguments : Arguments := {}
  fileGiven : Bool := false
  extras : List String := []
  help : Bool := false
  deriving DecidableEq, Repr

def Arguments.setFlag (a : Arguments) : Switch → Arguments
  | .verboseArrays => { a with verboseArrays := true }
  | .verbose => { a with verbose := true }
  | .help | .namespaceName | .watermark | .output => a

def Arguments.setValue (a : Arguments) (value : Option String) : Switch → Arguments
  | .namespaceName => { a with namespaceName := value }
  | .watermark => { a with watermark := value }
  | .output => { a with output := value }
  | .help | .verboseArrays | .verbose => a

namespace Reading

def flag (r : Reading) (s : Switch) : Reading :=
  { r with arguments := r.arguments.setFlag s, help := r.help || s = .help }

/-- Sets an option. The divider for a value takes the option back. -/
def value (r : Reading) (s : Switch) (v : String) : Reading :=
  { r with arguments := r.arguments.setValue (if v = "--" then none else some v) s }

/-- A plain word is the file, or else too much. -/
def plain (r : Reading) (text : String) : Reading :=
  if r.fileGiven then { r with extras := r.extras ++ [text] }
  else { r with arguments := { r.arguments with file := some text }, fileGiven := true }

/-- Short options run together after a short one; gives the last one if its value is yet to come. -/
def run (r : Reading) (s : Switch) : List Char → Except UsageError (Reading × Option Switch)
  | [] => if s.takesValue then .ok (r.value s "", none) else .error (.valueIgnored s "")
  | c :: rest =>
    if s.takesValue then .ok (r.value s (String.ofList (c :: rest)), none)
    else
      match switch? ['-', c], rest with
      | none, _ => .error (.valueIgnored s (String.ofList (c :: rest)))
      | some next, [] =>
        if next.takesValue then .ok (r.flag s, some next) else .ok ((r.flag s).flag next, none)
      | some next, rest => run (r.flag s) next rest

/-- An option without the words that follow it; gives the switch whose value is yet to come. -/
def option (r : Reading) (s : Switch) (isLong : Bool) :
    Option (List Char) → Except UsageError (Reading × Option Switch)
  | none => .ok (if s.takesValue then (r, some s) else (r.flag s, none))
  | some text =>
    if isLong && !s.takesValue then .error (.valueIgnored s (String.ofList text)) else r.run s text

/-- Words after the divider, which itself is dropped only next to the file. -/
def afterDivider (r : Reading) (rest : List String) : Reading :=
  match r.fileGiven, rest with
  | true, rest => { r with extras := r.extras ++ "--" :: rest }
  | false, [] => r
  | false, file :: rest => { r.plain file with extras := r.extras ++ rest }

end Reading

/-- Goes through the words; after a request for help nothing else counts. -/
def readAll (r : Reading) : List Word → Except UsageError Reading
  | [] => .ok r
  | .plain text :: .divider :: rest =>
    if r.fileGiven then .ok ((r.plain text).afterDivider (texts rest))
    else .ok { r.plain text with extras := r.extras ++ texts rest }
  | .plain text :: rest => readAll (r.plain text) rest
  | .divider :: rest =>
    .ok (r.afterDivider (texts rest))
  | .unknown text :: rest => readAll { r with extras := r.extras ++ [text] } rest
  | .option s isLong attached :: rest =>
    match r.option s isLong attached, rest with
    | .error e, _ => .error e
    | .ok (r, none), rest => if r.help then .ok r else readAll r rest
    | .ok (r, some s), .plain text :: rest =>
      if r.help then .ok r else readAll (r.value s text) rest
    | .ok (_, some s), _ => .error (.valueMissing s)
where
  texts (words : List Word) : List String := words.filterMap fun w => match w with
    | .plain text => some text
    | _ => none

/-- What a command line asks for. -/
inductive Request where
  | help
  | run (arguments : Arguments)
  deriving DecidableEq, Repr

def Request.ofWords (words : List String) : Except UsageError Request := do
  let reading ← readAll {} (← readWords words)
  if reading.help then return .help
  if reading.extras.isEmpty then return .run reading.arguments
  throw (.unrecognized reading.extras)

end EcmaPhp.CommandLine
