/-!
# Where programs are read from

A program comes from a file or from standard input. Reading either can fail, and
the complaint repeats what the system said. A workspace is a directory held in
memory, for running the command without touching a disk: it knows the text of
some files by their paths, and the directories are those on the way to a file.
-/
namespace CoreLisp.Command

inductive ReadError where
  | system (description : String) (code : Nat)
  | invalidText
deriving DecidableEq, Repr

namespace ReadError

def notFound : ReadError := system "No such file or directory" 2

def notADirectory : ReadError := system "Not a directory" 20

def isADirectory : ReadError := system "Is a directory" 21

def nameTooLong : ReadError := system "File name too long" 36

def message : ReadError → String
  | system description code => description ++ " (os error " ++ code.repr ++ ")"
  | invalidText => "stream did not contain valid UTF-8"

end ReadError

/-- Bytes that a program may be read from must be the encoding of a text. -/
def decode (bytes : ByteArray) : Except ReadError String :=
  match String.fromUTF8? bytes with
  | some text => .ok text
  | none => .error .invalidText

/-- The files of a directory and its subdirectories, by the parts of their paths. -/
structure Workspace where
  files : List (List String × String)

namespace Workspace

/-- The most bytes that a path may have. -/
def longestPath : Nat := 4095

/-- The most bytes that one part of a path may have. -/
def longestPart : Nat := 255

/-- Why a part of a path that names nothing cannot be found. -/
def missing (part : String) : ReadError :=
  if part.utf8ByteSize > longestPart then .nameTooLong else .notFound

/-- A part of a path that stays in the directory where it is met. -/
def staysPut (part : String) : Bool := part = "" || part = "."

/-- Follows the parts of a path from a directory that encloses the workspace. It
is known to be there, as is the one that encloses it in turn, but nothing is
known of what they hold. -/
def followOutside : List String → Except ReadError String
  | [] => .error .isADirectory
  | part :: rest =>
    if staysPut part || part = ".." then followOutside rest else .error (missing part)

/-- Follows the parts of a path from a directory of the workspace. A way that
leads out of the workspace does not come back. -/
def follow (w : Workspace) (directory : List String) : List String → Except ReadError String
  | [] => .error .isADirectory
  | part :: rest =>
    if staysPut part then w.follow directory rest
    else if part = ".." then
      if directory.isEmpty then followOutside rest else w.follow directory.dropLast rest
    else
      let place := directory ++ [part]
      match w.files.lookup place with
      | some text => if rest.isEmpty then .ok text else .error .notADirectory
      | none =>
        if w.files.any fun (path, _) => place.isPrefixOf path then w.follow place rest
        else .error (missing part)

/-- Reads a file. The length of the path is looked at before its parts are. -/
def read (w : Workspace) (path : String) : Except ReadError String :=
  if path.utf8ByteSize > longestPath then .error .nameTooLong
  else
    match path.splitOn "/" with
    | [""] => .error .notFound
    | "" :: parts => followOutside parts
    | parts => w.follow [] parts

end Workspace

end CoreLisp.Command
