/-!
# Files and their faults

A command reads whole files by path. `Folder` is a folder held in memory, with
the path rules of a file system: empty parts and single dots stay where they
are, and a file has nothing below it. A part has at most 255 bytes and a path
at most 4095.
-/

namespace TapeReach

/-- Why a file cannot be read. -/
inductive FileError where
  /-- There is no such file. -/
  | notFound
  /-- The path leads through a file. -/
  | notDirectory
  /-- The path leads to a directory. -/
  | isDirectory
  /-- The path or a part of it is too long. -/
  | nameTooLong
  /-- The bytes of the file are no UTF-8 text. -/
  | invalidText
  /-- Any other fault, in words. -/
  | other (reason : String)
  deriving DecidableEq

/-- The fault in words. -/
def FileError.message : FileError → String
  | notFound => "No such file or directory (os error 2)"
  | notDirectory => "Not a directory (os error 20)"
  | isDirectory => "Is a directory (os error 21)"
  | nameTooLong => "File name too long (os error 36)"
  | invalidText => "stream did not contain valid UTF-8"
  | other reason => reason

/-- How a command reads a file. -/
abbrev FileReader := String → Except FileError ByteArray

/-- Read a file as UTF-8 text. -/
def FileReader.text (read : FileReader) (path : String) : Except FileError String := do
  match String.fromUTF8? (← read path) with
  | some text => return text
  | none => throw .invalidText

/-- A folder in memory: the contents of files by their paths from the folder. -/
structure Folder where
  /-- Path and contents of each file. -/
  files : List (String × ByteArray)

namespace Folder

/-- Whether some file lies below a path. -/
def hasBelow (folder : Folder) (path : String) : Bool :=
  folder.files.any fun file => file.1.startsWith (path ++ "/")

/-- Greatest number of bytes in a part of a path. -/
def maxPartSize : Nat := 255

/-- Greatest number of bytes in a path. -/
def maxPathSize : Nat := 4095

/-- The fault of a part that names nothing. -/
def missing (part : String) : FileError :=
  if part.utf8ByteSize ≤ maxPartSize then .notFound else .nameTooLong

/-- Follow the parts of a path from above the folder, where no file is known. -/
def followOutside : List String → Except FileError ByteArray
  | [] => .error .isDirectory
  | part :: rest =>
    if ["", ".", ".."].contains part then followOutside rest else .error (missing part)

/-- Follow the parts of a path from a directory, whose own parts are given last first. -/
def follow (folder : Folder) : (directory : List String) → List String → Except FileError ByteArray
  | _, [] => .error .isDirectory
  | directory, part :: rest =>
    if part = "" || part = "." then folder.follow directory rest
    else if part = ".." then
      match directory with
      | [] => followOutside rest
      | _ :: parent => folder.follow parent rest
    else
      let path := "/".intercalate (part :: directory).reverse
      match folder.files.lookup path with
      | some contents => if rest.isEmpty then .ok contents else .error .notDirectory
      | none =>
        if folder.hasBelow path then folder.follow (part :: directory) rest else .error (missing part)

/-- Read a file of the folder. -/
def read (folder : Folder) : FileReader := fun path =>
  if path.utf8ByteSize ≤ maxPathSize then
    match path.splitOn "/" with
    | "" :: rest => followOutside rest
    | parts => folder.follow [] parts
  else .error .nameTooLong

end Folder

end TapeReach
