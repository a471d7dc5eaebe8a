import RankedKeys.Bytes.Utf8

/-!
# Files

What the library asks of the machine it runs on: to read and write files, and for random bytes. A
folder that holds a few files by name can stand in for the machine. It has directories around it, up
to the root, which hold nothing at first, and no directory in it.

## Main definitions

* `FileFault`: why a file cannot be read or written, with the wording of the system
* `Machine`: what is asked of the machine
* `Folder`: a directory without subdirectories, and what is written around it
* `Folder.place`: where a path leads
* `Desk`: a folder and a stream of random bytes
-/

namespace RankedKeys

/-- Why a file cannot be read or written. -/
inductive FileFault where
  | notFound
  | notDirectory
  | isDirectory
  | nameTooLong
  /-- A character that no path can hold. -/
  | nulInName
  /-- The bytes of a file are no UTF-8 text. -/
  | notText
  /-- Anything else, in the system's words. -/
  | other (text : String)
  deriving DecidableEq

/-- The wording of the system. -/
def FileFault.message : FileFault → String
  | notFound => "No such file or directory (os error 2)"
  | notDirectory => "Not a directory (os error 20)"
  | isDirectory => "Is a directory (os error 21)"
  | nameTooLong => "File name too long (os error 36)"
  | nulInName => "file name contained an unexpected NUL byte"
  | notText => "stream did not contain valid UTF-8"
  | other text => text

/-- What is asked of the machine. -/
class Machine (m : Type → Type) where
  readFile : (path : String) → m (Except FileFault Bytes)
  writeFile : (path : String) → Bytes → m (Except FileFault Unit)
  randomBytes : (count : Nat) → m Bytes

/-- Files by name. A file outside the folder goes by its whole path. -/
structure Folder where
  files : List (String × Bytes)
  deriving DecidableEq

namespace Folder

/-- A directory that a path can pass. -/
inductive Directory where
  /-- The folder itself at level zero, and the directories around it. -/
  | around (level : Nat)
  | root
  deriving DecidableEq

namespace Directory

/-- The directory around a directory. The root is around itself. -/
def parent : Directory → Directory
  | around level => around (level + 1)
  | root => root

/-- The shortest path to an entry of a directory. -/
def pathOf (name : String) : Directory → String
  | around level => String.join (List.replicate level "../") ++ name
  | root => "/" ++ name

end Directory

/-- Where a path leads. -/
inductive Place where
  | directory
  /-- To an entry of a directory. -/
  | entry (directory : Directory) (name : String)
  /-- To an entry that is named as a directory, by a slash after its name. -/
  | slashed (directory : Directory) (name : String)
  deriving DecidableEq

/-- The bytes that a name may have. -/
def maxNameBytes : Nat := 255

/-- The bytes that a path may have. -/
def maxPathBytes : Nat := 4095

/-- Whether a folder has an entry. -/
def has (folder : Folder) (directory : Directory) (name : String) : Bool :=
  folder.files.any (·.1 = directory.pathOf name)

/-- The fault of a path through an entry, as if it were a directory. -/
def through (folder : Folder) (directory : Directory) (name : String) : FileFault :=
  if maxNameBytes < name.utf8ByteSize then .nameTooLong
  else if folder.has directory name then .notDirectory
  else .notFound

/-- Where the names of a path lead from a directory. -/
def follow (folder : Folder) (directory : Directory) : List String → Except FileFault Place
  | [] => .ok .directory
  | name :: names =>
    if name = "" ∨ name = "." then folder.follow directory names
    else if name = ".." then folder.follow directory.parent names
    else if names = [] then .ok (.entry directory name)
    else if names.all (· = "") then .ok (.slashed directory name)
    else .error (folder.through directory name)

/-- The names of a path, with slashes between them. -/
def pathNames (path : String) : List String :=
  (path.toList.splitOn '/').map String.ofList

/-- Where a path leads: from the root if it begins with a slash, else from the folder. -/
def place (folder : Folder) (path : String) : Except FileFault Place :=
  if path.toList.contains '\x00' then .error .nulInName
  else if path = "" then .error .notFound
  else if maxPathBytes < path.utf8ByteSize then .error .nameTooLong
  else
    match pathNames path with
    | "" :: names => folder.follow .root names
    | names => folder.follow (.around 0) names

/-- Reads a file. -/
def read (folder : Folder) (path : String) : Except FileFault Bytes := do
  match ← folder.place path with
  | .directory => throw .isDirectory
  | .slashed directory name => throw (folder.through directory name)
  | .entry directory name =>
    match folder.files.lookup (directory.pathOf name) with
    | some bytes => pure bytes
    | none => throw (folder.through directory name)

/-- Writes a file, in place of the one that had the name before. -/
def write (folder : Folder) (path : String) (bytes : Bytes) : Except FileFault Folder := do
  match ← folder.place path with
  | .directory => throw .isDirectory
  | .slashed .. => throw .isDirectory
  | .entry directory name =>
    if maxNameBytes < name.utf8ByteSize then throw .nameTooLong
    let target := directory.pathOf name
    pure ⟨(target, bytes) :: folder.files.filter (·.1 ≠ target)⟩

end Folder

/-- A folder and a stream of random bytes, of which some have been drawn. -/
structure Desk where
  folder : Folder
  random : Nat → UInt8
  drawn : Nat

instance : Machine (StateM Desk) where
  readFile path := fun desk => (desk.folder.read path, desk)
  writeFile path bytes := fun desk =>
    match desk.folder.write path bytes with
    | .error fault => (.error fault, desk)
    | .ok folder => (.ok (), { desk with folder })
  randomBytes count := fun desk =>
    ((List.range count).map fun i => desk.random (desk.drawn + i),
      { desk with drawn := desk.drawn + count })

end RankedKeys
