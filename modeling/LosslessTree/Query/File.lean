import LosslessTree.Files
import LosslessTree.Node.Json
import LosslessTree.Query.Schema

/-!
# `Query.File` — trees and batches in files

Both kinds of files are read as a whole. An error names the file.
-/

namespace LosslessTree

/-- Why a file holds no tree. -/
inductive TreeFileError where
  | file (name : String) (error : FileError)
  | content (fault : TreeFault)
  deriving DecidableEq, Repr

/-- The text under which the error is reported. -/
def TreeFileError.message : TreeFileError → String
  | .file name error => "I/O error reading " ++ name ++ ": " ++ error.message
  | .content fault => fault.message

/-- What lies behind the error. -/
def TreeFileError.cause : TreeFileError → String
  | .file _ error => error.message
  | .content fault => fault.reason

/-- The tree in a file, by the result of reading the file. -/
def Node.ofFile (name : String) (text : Except FileError String) : Except TreeFileError Node :=
  match text with
  | .error e => .error (.file name e)
  | .ok text =>
    match Node.ofJsonText text with
    | .ok node => .ok node
    | .error fault => .error (.content fault)

/-- Why a file holds no batch that can be run. -/
inductive BatchFileError where
  | file (name : String) (error : FileError)
  | content (name : String) (fault : BatchFault)
  deriving DecidableEq, Repr

/-- The text under which the error is reported. -/
def BatchFileError.message : BatchFileError → String
  | .file name error => "cannot read query file " ++ name ++ ": " ++ error.message
  | .content name fault => fault.message (some name)

/-- What lies behind the error. -/
def BatchFileError.cause : BatchFileError → String
  | .file _ error => error.message
  | .content _ fault => fault.reason

/-- The batch in a file, by the result of reading the file. -/
def Batch.ofFile (name : String) (text : Except FileError String) : Except BatchFileError Batch :=
  match text with
  | .error e => .error (.file name e)
  | .ok text =>
    match Batch.ofToml text with
    | .ok batch => .ok batch
    | .error fault => .error (.content name fault)

end LosslessTree
