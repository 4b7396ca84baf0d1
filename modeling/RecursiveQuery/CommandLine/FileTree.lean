/-!
# Trees of files

Files that are held in memory, with the rules by which a path leads to one of
them.  A command can so be run, and reasoned about, without a file system.
-/

namespace RecursiveQuery

namespace CommandLine

/-- Why a file cannot be read. -/
inductive FileError where
  | missing
  | notDirectory
  | isDirectory
  | nameTooLong
  | other (reason : String)
deriving DecidableEq

def FileError.message : FileError → String
  | missing => "No such file or directory (os error 2)"
  | notDirectory => "Not a directory (os error 20)"
  | isDirectory => "Is a directory (os error 21)"
  | nameTooLong => "File name too long (os error 36)"
  | other reason => reason

/-- The parts of a path between its slashes, empty ones included. -/
def pathParts : List Char → List (List Char)
  | [] => [[]]
  | '/' :: rest => [] :: pathParts rest
  | char :: rest =>
      match pathParts rest with
      | [] => [[char]]
      | part :: parts => (char :: part) :: parts

/-- Files by the names that lead from the root to them, and the directory in
which relative paths start. -/
structure FileTree where
  files : List (List String × String)
  current : List String

namespace FileTree

/-- Where a path can lead to. -/
inductive Place where
  | directory (names : List String)
  | file (content : String)

/-- Some files in the current directory, and the null device, which reads as an
empty file. -/
def within (current : List String) (files : List (String × String)) :
    FileTree where
  files := (["dev", "null"], "") :: files.map fun (path, content) =>
    (current ++ (pathParts path.toList).map String.ofList, content)
  current := current

/-- What a directory has under a name of at most 255 bytes; every directory on
the way to a file exists. -/
def child (tree : FileTree) (directory : List String) (name : String) :
    Except FileError Place :=
  let names := directory ++ [name]
  if name.utf8ByteSize > 255 then throw .nameTooLong
  else
    match tree.files.lookup names with
    | some content => return .file content
    | none =>
        if tree.files.any fun (path, _) => names.isPrefixOf path then
          return .directory names
        else throw .missing

/-- Follow the parts of a path.  An empty part and a dot stay in a directory and
two dots leave it, but nothing leads on from a file. -/
def walk (tree : FileTree) :
    (parts : List String) → Place → Except FileError Place
  | [], place => return place
  | _ :: _, .file _ => throw .notDirectory
  | part :: parts, .directory names =>
      if part = "" ∨ part = "." then tree.walk parts (.directory names)
      else if part = ".." then tree.walk parts (.directory names.dropLast)
      else do tree.walk parts (← tree.child names part)

/-- The content of the file at a path of less than 4096 bytes. -/
def read (tree : FileTree) (path : String) : Except FileError String := do
  if path.isEmpty then throw .missing
  if path.utf8ByteSize ≥ 4096 then throw .nameTooLong
  let start := if path.toList.head? = some '/' then [] else tree.current
  match ← tree.walk ((pathParts path.toList).map String.ofList)
    (.directory start) with
  | .file content => return content
  | .directory _ => throw .isDirectory

end FileTree

end CommandLine

end RecursiveQuery
