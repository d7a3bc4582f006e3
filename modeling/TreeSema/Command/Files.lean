/-!
# Files

What reading a file gives, and a directory of files as a value, in which paths lead from name to
name as they do on a disk. Nothing is known of what lies outside the directory.
-/
namespace TreeSema.Command

/-- The text of a file and its size in bytes. -/
structure Contents where
  text : String
  size : Nat

def Contents.ofText (text : String) : Contents := ⟨text, text.utf8ByteSize⟩

/-- Why a file cannot be read. -/
inductive FileFault where
  | notFound
  | notDirectory
  | isDirectory
  | nameTooLong
  | denied
  | other (reason : String)
  deriving DecidableEq, Repr

def FileFault.message (path : String) : FileFault → String
  | notFound => s!"open {path}: no such file or directory"
  | notDirectory => s!"open {path}: not a directory"
  | isDirectory => s!"read {path}: is a directory"
  | nameTooLong => s!"open {path}: file name too long"
  | denied => s!"open {path}: permission denied"
  | other reason => s!"open {path}: {reason}"

/-- The files of a directory, by the names that lead to them. -/
structure Directory where
  files : List (List String × String)

namespace Directory

/-- A directory of files with their paths. -/
def ofPaths (files : List (String × String)) : Directory :=
  ⟨files.map fun f => ((f.1.splitOn "/").filter fun c => c != "" && c != ".", f.2)⟩

/-- Where a path has led to. -/
inductive Spot where
  | outside
  | directory (path : List String)
  | file (text : String)

def hasDirectory (d : Directory) (path : List String) : Bool :=
  d.files.any fun f => path.isPrefixOf f.1

/-- Follows names from a spot. -/
def follow (d : Directory) : Spot → List String → Except FileFault Spot
  | spot, [] => .ok spot
  | .file _, _ :: _ => .error .notDirectory
  | .outside, name :: rest =>
    if ["", ".", ".."].contains name then follow d .outside rest
    else .error (if 255 < name.utf8ByteSize then .nameTooLong else .notFound)
  | .directory path, name :: rest =>
    if name = "" ∨ name = "." then follow d (.directory path) rest
    else if name = ".." then
      if path.isEmpty then follow d .outside rest else follow d (.directory path.dropLast) rest
    else if 255 < name.utf8ByteSize then .error .nameTooLong
    else
      let path := path ++ [name]
      match d.files.lookup path with
      | some text => follow d (.file text) rest
      | none =>
        if d.hasDirectory path then follow d (.directory path) rest else .error .notFound

/-- Reads a file. -/
def read (d : Directory) (path : String) : Except FileFault Contents :=
  if path = "" then .error .notFound
  else if 4095 < path.utf8ByteSize then .error .nameTooLong
  else
    let start : Spot := if path.startsWith "/" then .outside else .directory []
    match d.follow start (path.splitOn "/") with
    | .error fault => .error fault
    | .ok (.file text) => .ok (.ofText text)
    | .ok _ => .error .isDirectory

end Directory

end TreeSema.Command
