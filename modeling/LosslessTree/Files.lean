/-!
# `Files` — reading files by name

Reading a file gives its text or a reason why not. A `Folder` is a set of files with their texts, to
read from by names that are relative to it, the way a file system does: empty parts and `.` in a
name mean nothing, `..` leads back, and what comes before a slash has to be a folder. A name, and each
of its parts, has a greatest length.
-/

namespace LosslessTree

/-- Why a file cannot be read. -/
inductive FileError where
  | notFound
  | notAFolder
  | isAFolder
  | nameTooLong
  | badName
  | notText
  | other (reason : String)
  deriving DecidableEq, Repr

/-- The reason in words. -/
def FileError.message : FileError → String
  | .notFound => "No such file or directory (os error 2)"
  | .notAFolder => "Not a directory (os error 20)"
  | .isAFolder => "Is a directory (os error 21)"
  | .nameTooLong => "File name too long (os error 36)"
  | .badName => "file name contained an unexpected NUL byte"
  | .notText => "stream did not contain valid UTF-8"
  | .other reason => reason

/-- The parts of a name between slashes. -/
def nameParts (name : String) : List String :=
  let (part, parts) := name.toList.foldr (fun c (part, parts) =>
    if c = '/' then ([], String.ofList part :: parts) else (c :: part, parts))
    (([] : List Char), ([] : List String))
  String.ofList part :: parts

/-- Files by the parts of their names, with their texts. -/
structure Folder where
  files : List (List String × String)

namespace Folder

/-- The folder that holds the given files. -/
def ofList (files : List (String × String)) : Folder :=
  ⟨files.map fun (name, text) => ((nameParts name).filter fun part => part != "" && part != ".", text)⟩

/-- Whether some file lies in the folder `place`. -/
def hasFolder (f : Folder) (place : List String) : Bool :=
  f.files.any fun (name, _) => place.isPrefixOf name && decide (place.length < name.length)

/-- The longest part that a name may have, in bytes. -/
def maxPart : Nat := 255

/-- The longest name, in bytes. -/
def maxName : Nat := 4095

/-- Why no file is read by the parts of a name that lead on from outside of the folder. Nothing is
    known to be there but the folders that lead up to the root, so the first part that names
    something ends the search. -/
def outsideError : List String → FileError
  | [] => .isAFolder
  | part :: rest =>
    if part = "" ∨ part = "." ∨ part = ".." then outsideError rest
    else if maxPart < part.utf8ByteSize then .nameTooLong
    else .notFound

/-- Reads the file that the parts of a name lead to from the folder `place`. -/
def readFrom (f : Folder) (place : List String) : List String → Except FileError String
  | [] => .error .isAFolder
  | part :: rest =>
    if part = "" ∨ part = "." then f.readFrom place rest
    else if part = ".." then
      if place.isEmpty then .error (outsideError rest) else f.readFrom place.dropLast rest
    else if maxPart < part.utf8ByteSize then .error .nameTooLong
    else
      match f.files.lookup (place ++ [part]) with
      | some text => if rest.isEmpty then .ok text else .error .notAFolder
      | none =>
        if f.hasFolder (place ++ [part]) then f.readFrom (place ++ [part]) rest
        else .error .notFound

/-- Reads the file called `name`. A name with a slash in front starts at the root of the file system,
    outside of the folder. -/
def read (f : Folder) (name : String) : Except FileError String :=
  if name.toList.contains '\x00' then .error .badName
  else if name.isEmpty then .error .notFound
  else if maxName < name.utf8ByteSize then .error .nameTooLong
  else
    match nameParts name with
    | "" :: rest => .error (outsideError rest)
    | parts => f.readFrom [] parts

end Folder

end LosslessTree
