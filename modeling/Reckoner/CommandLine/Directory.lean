/-! Files by path. Commands run in a directory that holds files and nothing else, somewhere below other
directories that hold nothing but the way to it. -/

namespace Reckoner.CommandLine

inductive FileError where
  | notFound
  | isDirectory
  | notDirectory
  | nameTooLong
  | other (message : String)
deriving DecidableEq, Repr

def FileError.message : FileError → String
  | notFound => "No such file or directory (os error 2)"
  | isDirectory => "Is a directory (os error 21)"
  | notDirectory => "Not a directory (os error 20)"
  | nameTooLong => "File name too long (os error 36)"
  | other message => message

structure Directory where
  files : List (String × ByteArray)

namespace Directory

def nameLimit : Nat := 255

def pathLimit : Nat := 4095

inductive Place where
  | inside
  | above
  | file (bytes : ByteArray)

/-- One part of a path. An empty part and a dot stay in a directory, and only in a directory. -/
def follow (directory : Directory) (place : Place) (part : String) : Except FileError Place :=
  match place with
  | .file _ => .error .notDirectory
  | place =>
      if part = "" ∨ part = "." then .ok place
      else if part = ".." then .ok .above
      else if nameLimit < part.utf8ByteSize then .error .nameTooLong
      else
        match place with
        | .inside =>
            match directory.files.lookup part with
            | some bytes => .ok (.file bytes)
            | none => .error .notFound
        | _ => .error .notFound

def read (directory : Directory) (path : String) : Except FileError ByteArray := do
  if pathLimit < path.utf8ByteSize then throw .nameTooLong
  let start : Place := if path.startsWith "/" then .above else .inside
  match ← (path.splitOn "/").foldlM directory.follow start with
  | .file bytes => pure bytes
  | _ => throw .isDirectory

end Directory

end Reckoner.CommandLine
