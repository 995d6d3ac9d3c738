/-!
# Files by path

A folder of texts and what a path means in it. A path is walked part by part:
an empty part and a single dot stay where they are, a double dot goes up, and
every other part is the name of a file or of a folder. Nothing is known about
the files outside the folder, so no name is found there.
-/

namespace LispMachine.CommandLine

/-- Why a file cannot be read. -/
inductive FileFault where
  | missing
  | notFolder
  | isFolder
  | nameTooLong
deriving DecidableEq

/-- The wording of a fault. -/
def FileFault.message : FileFault → String
  | .missing => "No such file or directory (os error 2)"
  | .notFolder => "Not a directory (os error 20)"
  | .isFolder => "Is a directory (os error 21)"
  | .nameTooLong => "File name too long (os error 36)"

/-- The longest name, in bytes. -/
def maxNameSize : Nat := 255

/-- The longest path, in bytes. -/
def maxPathSize : Nat := 4095

/-- The parts between the slashes of a path; `part` holds the characters of the
    current part, newest first. -/
def partsFrom : List Char → List Char → List String
  | [], part => [String.ofList part.reverse]
  | '/' :: rest, part => String.ofList part.reverse :: partsFrom rest []
  | c :: rest, part => partsFrom rest (c :: part)

/-- The parts of a path. -/
def pathParts (path : String) : List String := partsFrom path.toList []

/-- The parts that are names. -/
def nameParts (path : String) : List String :=
  (pathParts path).filter fun part => part ≠ "" && part ≠ "."

/-- Texts by the names on the way to them. -/
structure Folder where
  files : List (List String × String)

/-- A file with its text, or a folder. -/
inductive Node where
  | file (text : String)
  | folder

/-- Where a walk stands: some names deep in the folder, innermost name first, or
    outside of it. -/
inductive Place where
  | inside (names : List String)
  | outside

namespace Folder

/-- The folder of files with the given paths. -/
def ofFiles (files : List (String × String)) : Folder :=
  ⟨files.map fun (path, text) => (nameParts path, text)⟩

/-- What stands at the end of a way of names. -/
def node? (f : Folder) (names : List String) : Option Node :=
  match f.files.find? fun (way, _) => way == names with
  | some (_, text) => some (.file text)
  | none => if f.files.any fun (way, _) => names.isPrefixOf way then some .folder else none

/-- The place above a place. -/
def up : Place → Place
  | .inside (_ :: names) => .inside names
  | .inside [] => .outside
  | .outside => .outside

/-- Goes from a folder to what a name in it stands for. -/
def enter (f : Folder) (place : Place) (name : String) : Except FileFault (Place × Node) :=
  if maxNameSize < name.utf8ByteSize then .error .nameTooLong
  else
    match place with
    | .outside => .error .missing
    | .inside names =>
        match f.node? (name :: names).reverse with
        | some node => .ok (.inside (name :: names), node)
        | none => .error .missing

/-- Goes on by one part. Only a folder has parts below it. -/
def step (f : Folder) (place : Place) (node : Node) (part : String) :
    Except FileFault (Place × Node) :=
  match node with
  | .file _ => .error .notFolder
  | .folder =>
      if part = "" ∨ part = "." then .ok (place, .folder)
      else if part = ".." then .ok (up place, .folder)
      else f.enter place part

/-- Walks the parts of a path. -/
def walk (f : Folder) : List String → Place → Node → Except FileFault Node
  | [], _, node => .ok node
  | part :: rest, place, node =>
      match f.step place node part with
      | .error fault => .error fault
      | .ok (place, node) => f.walk rest place node

/-- Where a path starts: at the top of everything if it begins with a slash, and
    otherwise in the folder. -/
def origin (path : String) : Place :=
  match path.toList with
  | '/' :: _ => .outside
  | _ => .inside []

/-- The text of the file that a path leads to. -/
def read (f : Folder) (path : String) : Except FileFault String :=
  if path.isEmpty then .error .missing
  else if maxPathSize < path.utf8ByteSize then .error .nameTooLong
  else
    match f.walk (pathParts path) (origin path) .folder with
    | .error fault => .error fault
    | .ok (.file text) => .ok text
    | .ok .folder => .error .isFolder

end Folder

end LispMachine.CommandLine
