import Oberon.Error

/-!
# Files

Paths, the folders that they lead through, and the source files at their ends.  A path is a text
of names separated by slashes; a folder holds files and folders at any depth; a source file has one
of two extensions and holds text in UTF-8.
-/

/-! ## Paths

Empty names and `.` stand for the directory reached so far and `..` for the one above it. -/

namespace Oberon.Path

def names (path : String) : List String :=
  (path.toList.splitOn '/').map String.ofList

def isStay (name : String) : Bool :=
  name = "" || name = "."

def parent : String := ".."

def isAbsolute (path : String) : Bool :=
  path.toList.head? = some '/'

def fileName? (path : String) : Option String :=
  ((names path).filter (!isStay ·)).getLast?.filter (· ≠ parent)

/-- The part of a name behind its last dot.  A dot in front of the whole name does not count. -/
def extensionOf? (name : String) : Option String :=
  let reversed := name.toList.reverse
  if (reversed.dropWhile (· ≠ '.')).length ≤ 1 then none
  else some (String.ofList (reversed.takeWhile (· ≠ '.')).reverse)

def extension? (path : String) : Option String :=
  (fileName? path).bind extensionOf?

end Oberon.Path

/-! ## Folders

Reading a path from a folder follows its names from left to right; what lies outside of the folder
is not found. -/

namespace Oberon

inductive FileError where
  | notFound
  | notDirectory
  | isDirectory
  | other (reason : String)
deriving DecidableEq, Repr

def FileError.text : FileError → String
  | notFound => "No such file or directory (os error 2)"
  | notDirectory => "Not a directory (os error 20)"
  | isDirectory => "Is a directory (os error 21)"
  | other reason => reason

inductive FolderEntry where
  | file (content : ByteArray)
  | directory

/-- All that a folder holds: entries by the names that lead to them, the newest first. -/
structure Folder where
  entries : List (List String × FolderEntry)

namespace Folder

def empty : Folder :=
  ⟨[]⟩

def insert (folder : Folder) (path : String) (entry : FolderEntry) : Folder :=
  ⟨((Path.names path).filter (!Path.isStay ·), entry) :: folder.entries⟩

def entry? (folder : Folder) (names : List String) : Option FolderEntry :=
  match folder.entries.lookup names with
  | some entry => some entry
  | none => if folder.entries.any (names.isPrefixOf ·.1) then some .directory else none

/-- Follows names from a directory, given by the names that lead to it.  More names behind a file
need it to be a directory; without more names the directory itself is to be read. -/
def follow (folder : Folder) (directory : List String) : List String → Except FileError ByteArray
  | [] => .error .isDirectory
  | name :: rest =>
    if Path.isStay name then folder.follow directory rest
    else if name = Path.parent then
      -- nothing is known of what lies above the folder
      if directory.isEmpty then .error .notFound else folder.follow directory.dropLast rest
    else
      match folder.entry? (directory ++ [name]) with
      | none => .error .notFound
      | some .directory => folder.follow (directory ++ [name]) rest
      | some (.file content) => if rest.isEmpty then .ok content else .error .notDirectory

def read (folder : Folder) (path : String) : Except FileError ByteArray :=
  if path.isEmpty || Path.isAbsolute path then .error .notFound
  else folder.follow [] (Path.names path)

end Folder

end Oberon

/-! ## Source files -/

namespace Oberon.Source

def extensions : List String :=
  ["Mod", "ob"]

def checkExtension (path : String) : Except Error Unit :=
  if (Path.extension? path).any (· ∈ extensions) then .ok ()
  else .error (.fileRead ("File must have one of the extensions: " ++ ", ".intercalate extensions))

def decode : Except FileError ByteArray → Except Error String
  | .error e => .error (.inputOutput e.text)
  | .ok content =>
    match String.fromUTF8? content with
    | some text => .ok text
    | none => .error (.inputOutput "stream did not contain valid UTF-8")

def read (folder : Folder) (path : String) : Except Error String := do
  checkExtension path
  decode (folder.read path)

end Oberon.Source
