import SchemaEvolution.Program.Run

/-!
# Folders

A folder that holds nothing but files, and how a path leads to one of them.  A path is walked
name by name, and each name but the last has to lead to a directory.  Directories outside of
the folder can be walked through; what is written there leaves no trace in the folder.
-/

namespace SchemaEvolution.Program

/-- Why a file can not be read or written, in the words of the system. -/
inductive AccessFault where
  | noSuchFile
  | permissionDenied
  | notADirectory
  | isADirectory
  | nameTooLong
  deriving DecidableEq, Repr

namespace AccessFault

/-- The number under which the system knows the fault. -/
def code : AccessFault → Nat
  | noSuchFile => 2
  | permissionDenied => 13
  | notADirectory => 20
  | isADirectory => 21
  | nameTooLong => 36

def reason : AccessFault → String
  | noSuchFile => "No such file or directory"
  | permissionDenied => "Permission denied"
  | notADirectory => "Not a directory"
  | isADirectory => "Is a directory"
  | nameTooLong => "File name too long"

def message (fault : AccessFault) : String :=
  fault.reason ++ " (os error " ++ toString fault.code ++ ")"

end AccessFault

/-- The files of a folder, under their names. -/
structure Folder where
  files : Keyed String

/-- A directory on the way of a path: the folder, one above it whose content is not known, or one
that is known by the names that lead to it from the root of the system. -/
inductive Place where
  | folder
  | above
  | system (names : List String)
  deriving DecidableEq, Repr

/-- What a name in a directory stands for. -/
inductive Entry where
  | file (text : String)
  | directory (place : Place)
  | absent

/-- What a whole path stands for: a directory, or a name in one.  The name may have a slash after
it. -/
inductive Target where
  | directory
  | named (place : Place) (name : String) (slash : Bool)

def systemDirectories : List String :=
  ["bin", "boot", "dev", "etc", "home", "lib", "media", "mnt", "opt", "proc", "root", "run",
    "sbin", "srv", "sys", "tmp", "usr", "var"]

def Place.parent : Place → Place
  | .folder | .above => .above
  | .system names => .system names.dropLast

/-- A name has at most 255 bytes. -/
def isLongName (name : String) : Bool := 255 < name.utf8ByteSize

/-- A path has fewer than 4096 bytes. -/
def isLongPath (path : String) : Bool := 4096 ≤ path.utf8ByteSize

/-- The names of the directory itself and of the one above it. -/
def isDots (name : String) : Bool := name == "." || name == ".."

namespace Folder

/-- What a name stands for in a directory.  The null device reads like an empty file. -/
def entry (folder : Folder) : Place → String → Entry
  | .folder, name =>
    match folder.files.get? name with
    | some text => .file text
    | none => .absent
  | .above, _ => .absent
  | .system [], name =>
    if systemDirectories.contains name then .directory (.system [name]) else .absent
  | .system names, name =>
    if names == ["dev"] && name == "null" then .file "" else .absent

def enter (folder : Folder) (place : Place) (name : String) : Except AccessFault Place :=
  if name == "." then .ok place
  else if name == ".." then .ok place.parent
  else if isLongName name then .error .nameTooLong
  else
    match folder.entry place name with
    | .directory inner => .ok inner
    | .file _ => .error .notADirectory
    | .absent => .error .noSuchFile

/-- Enters the directory of each name but the last. -/
def walk (folder : Folder) (slash : Bool) : Place → List String → Except AccessFault Target
  | _, [] => .ok .directory
  | place, [name] => .ok (if isDots name then .directory else .named place name slash)
  | place, name :: rest => do folder.walk slash (← folder.enter place name) rest

/-- What a path stands for, from the folder or, after a slash, from the root. -/
def target (folder : Folder) (path : String) : Except AccessFault Target :=
  let text := path.toList
  if text.isEmpty then .error .noSuchFile
  else if isLongPath path then .error .nameTooLong
  else
    let names := (Text.cutAt '/' text).filter fun name => !name.isEmpty
    folder.walk (text.getLast? == some '/')
      (if text.head? == some '/' then .system [] else .folder) (names.map String.ofList)

/-- The text of the file that a path leads to. -/
def read (folder : Folder) (path : String) : Except AccessFault String := do
  match ← folder.target path with
  | .directory => .error .isADirectory
  | .named place name slash =>
    if isLongName name then .error .nameTooLong
    else
      match folder.entry place name with
      | .file text => if slash then .error .notADirectory else .ok text
      | .directory _ => .error .isADirectory
      | .absent => .error .noSuchFile

/-- Writes a file where a path leads to.  A slash after a name asks for a directory, whether there
is one or not. -/
def write (folder : Folder) (path content : String) : Except AccessFault Folder := do
  match ← folder.target path with
  | .directory => .error .isADirectory
  | .named place name slash =>
    if slash then .error .isADirectory
    else if isLongName name then .error .nameTooLong
    else
      match folder.entry place name, place with
      | .directory _, _ => .error .isADirectory
      | _, .folder => .ok ⟨folder.files.insert name content⟩
      | _, _ => .ok folder

/-- Runs a command line in the folder: how it ends, and the folder afterwards. -/
def run (folder : Folder) (args : List String) : Ending × Folder :=
  let files (path : String) := (folder.read path).mapError AccessFault.message
  let ending := (Request.ofArguments args).execute files
  match ending.write with
  | none => (ending, folder)
  | some (path, content) =>
    match folder.write path content with
    | .ok after => (ending, after)
    | .error fault => (ending.unwritten path fault.message, folder)

end Folder

end SchemaEvolution.Program
