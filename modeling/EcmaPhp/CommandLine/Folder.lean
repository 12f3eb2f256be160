import EcmaPhp.Text.LineEnds
import EcmaPhp.Text.Quoted
import EcmaPhp.Text.Split
import EcmaPhp.Text.Utf8

/-! A folder of files, and how paths lead into it. -/
namespace EcmaPhp.CommandLine

inductive FileError where
  | notFound (path : String)
  | isFolder (path : String)
  | notFolder (path : String)
  | nameTooLong (path : String)
  /-- A path with the character zero. -/
  | zeroInPath
  | undecodable (fault : Text.Utf8.DecodeFault)
  deriving DecidableEq, Repr

def FileError.message : FileError → String
  | .notFound path => "[Errno 2] No such file or directory: " ++ Text.quoted path
  | .isFolder path => "[Errno 21] Is a directory: " ++ Text.quoted path
  | .notFolder path => "[Errno 20] Not a directory: " ++ Text.quoted path
  | .nameTooLong path => "[Errno 36] File name too long: " ++ Text.quoted path
  | .zeroInPath => "embedded null byte"
  | .undecodable fault => fault.message

/-- The text of a file: UTF-8 with line ends of any kind. -/
def sourceText (bytes : List UInt8) : Except FileError String :=
  match Text.Utf8.decode bytes with
  | .ok text => .ok (String.ofList (Text.foldLineEnds text))
  | .error fault => .error (.undecodable fault)

/-- Files by their names. What lies outside is not known: no file there can be read, and writing one
leaves the folder as it is. -/
structure Folder where
  files : List (String × List UInt8)
  deriving Repr

/-- Where a path leads. -/
inductive Target where
  | folder
  | file (inside : Bool) (name : String)
  deriving DecidableEq, Repr

namespace Folder

def longestName : Nat := 255

def longestPath : Nat := 4095

def isTooLong (limit : Nat) (text : String) : Bool := limit < text.utf8ByteSize

/-- The names along a path. -/
def names (path : String) : List String :=
  ((Text.split '/' path.toList).filter (· != [])).map String.ofList

def endsInSlash (path : String) : Bool := path.toList.getLast? = some '/'

def contains (folder : Folder) (name : String) : Bool := (folder.files.lookup name).isSome

/-- Follows the names of a path from the folder, or from outside it. Files have nothing below
them. -/
def follow (folder : Folder) (path : String) (inside : Bool) : List String → Except FileError Target
  | [] => .ok .folder
  | name :: rest =>
    if name = "." then follow folder path inside rest
    else if name = ".." then follow folder path false rest
    else if rest.isEmpty then .ok (.file inside name)
    else if isTooLong longestName name then .error (.nameTooLong path)
    else if inside && folder.contains name then .error (.notFolder path)
    else .error (.notFound path)

/-- Where a path leads, whether or not a file is there. -/
def locate (folder : Folder) (path : String) : Except FileError Target :=
  if path.toList.contains '\x00' then .error .zeroInPath
  else if isTooLong longestPath path then .error (.nameTooLong path)
  else folder.follow path (path.toList.head? != some '/') (names path)

def read (folder : Folder) (path : String) : Except FileError (List UInt8) := do
  match ← folder.locate path with
  | .folder => throw (.isFolder path)
  | .file inside name =>
    if isTooLong longestName name then throw (.nameTooLong path)
    match inside, folder.files.lookup name with
    | true, some bytes => if endsInSlash path then throw (.notFolder path) else return bytes
    | _, _ => throw (.notFound path)

/-- Gives a file a new content, or makes a new file. A path that ends in a slash asks for
a folder. -/
def write (folder : Folder) (path text : String) : Except FileError Folder := do
  match ← folder.locate path with
  | .folder => throw (.isFolder path)
  | .file inside name =>
    if endsInSlash path then throw (.isFolder path)
    if isTooLong longestName name then throw (.nameTooLong path)
    let bytes := Text.Utf8.encode text.toList
    if !inside then return folder
    else if folder.contains name then
      return ⟨folder.files.map fun f => if f.1 = name then (name, bytes) else f⟩
    else return ⟨folder.files ++ [(name, bytes)]⟩

end Folder
end EcmaPhp.CommandLine
