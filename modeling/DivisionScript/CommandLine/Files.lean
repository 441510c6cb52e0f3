import DivisionScript.CommandLine.LogFile
import DivisionScript.CommandLine.Trouble

/-!
# Command line — Files

What opening a file can lead to, the text that a command reads from a file, and trees of files as a
model of a directory.
-/

namespace DivisionScript.CommandLine

/-- What opening a file leads to. -/
inductive Opened where
  | contents (bytes : ByteArray)
  | directory
  /-- Nothing of that name exists. -/
  | missing
  /-- The name goes through a file as if it were a directory. -/
  | throughFile
  /-- The name, or a part of it, is longer than names may be. -/
  | nameTooLong
  /-- The name holds a character that no name may hold. -/
  | nameUnusable
  /-- The system refuses for another reason. -/
  | refused (reason : String)

/-- Why a file cannot be opened; `none` if it can. A directory can be opened. -/
def Opened.reason? : Opened → Option String
  | contents _ => none
  | directory => none
  | missing => some "No such file or directory (os error 2)"
  | throughFile => some "Not a directory (os error 20)"
  | nameTooLong => some "File name too long (os error 36)"
  | nameUnusable => some "file name contained an unexpected NUL byte"
  | refused reason => some reason

/-- The text of a program file, given what opening it leads to. -/
def Opened.source (path : String) (opened : Opened) : Except Trouble String :=
  match opened.reason? with
  | some reason => .error (.unopened path reason)
  | none =>
    match opened with
    | .contents bytes => (Text.decode bytes).mapError (.notText path)
    | _ => .error (.unmapped path)

/-- The text of a settings file, given what opening it leads to. -/
def Opened.settingsText (opened : Opened) : Except SettingsTrouble String :=
  match opened.reason? with
  | some reason => .error (.unreadable reason)
  | none =>
    match opened with
    | .contents bytes => (Text.decode bytes).mapError fun _ => .unreadable Trouble.notUtf8
    | _ => .error (.unreadable Trouble.isDirectory)

/-! ## Paths -/

/-- A name inside a directory; an absolute name stands for itself. -/
def joinPath (directory name : String) : String :=
  if name.startsWith "/" ∨ directory = "" then name
  else if directory.endsWith "/" then directory ++ name
  else directory ++ "/" ++ name

/-- A directory with the files in it, each under the names that lead to it. -/
structure FileTree where
  files : List (List String × ByteArray)

/-- Where a path has led to. -/
inductive Place where
  /-- The names that lead from the top of the tree. -/
  | inside (names : List String)
  /-- A directory above the tree. -/
  | above

namespace FileTree

/-- The parts of a path between slashes. -/
def partsOf (path : String) : List String :=
  path.splitOn "/"

/-- The tree of files given by their relative paths. -/
def ofList (files : List (String × ByteArray)) : FileTree :=
  ⟨files.map fun (path, bytes) => ((partsOf path).filter fun s => s ≠ "" ∧ s ≠ ".", bytes)⟩

/-- The tree once the log file, if there is one, holds the given text in place of what it held. -/
def withLog (tree : FileTree) : Option String → FileTree
  | none => tree
  | some text => ⟨([LogFile.name], text.toUTF8) :: tree.files⟩

/-- What stands at a place. Every start of the names of a file is a directory. -/
def standing (tree : FileTree) : Place → Opened
  | .above => .directory
  | .inside names =>
    match tree.files.lookup names with
    | some bytes => .contents bytes
    | none =>
      if names = [] ∨ tree.files.any fun (file, _) => names.isPrefixOf file then .directory
      else .missing

/-- The place that a part of a path leads to from a directory. -/
def step (here : Place) (part : String) : Option Place :=
  if part = "" ∨ part = "." then some here
  else
    match here with
    | .above => if part = ".." then some .above else none
    | .inside names =>
      if part = ".." then some (if names = [] then .above else .inside names.dropLast)
      else some (.inside (names ++ [part]))

/-- Follows the parts of a path. Only a directory leads further. -/
def follow (tree : FileTree) (here : Place) : List String → Opened
  | [] => tree.standing here
  | part :: rest =>
    match tree.standing here with
    | .directory =>
      if 255 < part.utf8ByteSize then .nameTooLong
      else
        match step here part with
        | some there => tree.follow there rest
        | none => .missing
    | .contents _ => .throughFile
    | other => other

/-- What opening a path leads to. -/
def openPath (tree : FileTree) (path : String) : Opened :=
  if path.toList.contains '\x00' then .nameUnusable
  else if path = "" then .missing
  else if 4096 ≤ path.utf8ByteSize then .nameTooLong
  else tree.follow (if path.startsWith "/" then .above else .inside []) (partsOf path)

end FileTree

end DivisionScript.CommandLine
