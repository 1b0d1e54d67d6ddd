/-!
# The working directory

The command reads one file and may write another, both named by paths relative to the directory
it works in. `Directory.read` and `Directory.write` look a path up the way a file system does: name
by name from the left, where the first name that cannot be followed decides the fault.
-/

namespace LetScript

/-- Why a file could not be read or written. -/
inductive FileFault where
  | missing
  | denied
  | notDirectory
  | isDirectory
  | nameTooLong
  | notText
  | other (message : String)

/-- The wording of a file fault. -/
def FileFault.message : FileFault → String
  | missing => "No such file or directory (os error 2)"
  | denied => "Permission denied (os error 13)"
  | notDirectory => "Not a directory (os error 20)"
  | isDirectory => "Is a directory (os error 21)"
  | nameTooLong => "File name too long (os error 36)"
  | notText => "stream did not contain valid UTF-8"
  | other message => message

/-- A file or directory below the working directory: the names on the way to it. -/
abbrev Place := List String

/-- A directory, as the files at each place below it. A place is a directory if it is the working
directory or if some file lies below it. -/
structure Directory where
  files : List (Place × ByteArray) := []

namespace Directory

/-- The greatest size of a name, in bytes. -/
def maxName : Nat := 255

/-- The greatest size of a path, in bytes. -/
def maxPath : Nat := 4095

/-- The names of a path. A path that ends with a slash has an empty last name. -/
def pathNames (path : String) : List String := path.splitOn "/"

/-- A name that stands for the directory it is looked up in. -/
def isHere (name : String) : Bool := name == "" || name == "."

/-- The place of a path that leads downwards only. -/
def placeOf (path : String) : Place := (pathNames path).filter (!isHere ·)

/-- The directory that holds a single file. -/
def single (path : String) (contents : ByteArray) : Directory where
  files := [(placeOf path, contents)]

/-- The contents of the file at a place. -/
def file? (directory : Directory) (place : Place) : Option ByteArray :=
  (directory.files.find? (·.1 == place)).map (·.2)

/-- Whether a place is a directory. -/
def isDirectory (directory : Directory) (place : Place) : Bool :=
  place.isEmpty || directory.files.any fun file => place.isPrefixOf file.1 && place != file.1

/-- The place of a name in the directory at a place. Nothing lies above the working directory. -/
def step (place : Place) (name : String) : Except FileFault Place :=
  if isHere name then .ok place
  else if name == ".." then .ok place.dropLast
  else if maxName < name.utf8ByteSize then .error .nameTooLong
  else .ok (place ++ [name])

/-- Follow a name to a directory. -/
def enter (directory : Directory) (place : Place) (name : String) : Except FileFault Place := do
  let place ← step place name
  if directory.isDirectory place then return place
  else if (directory.file? place).isSome then throw .notDirectory
  else throw .missing

/-- Follow all names of a path but the last, each of which has to be that of a directory. -/
def parentOf (directory : Directory) (names : List String) : Except FileFault Place :=
  names.dropLast.foldlM directory.enter []

/-- A path that can be looked up at all is neither empty nor too long. -/
def checkPath (path : String) : Except FileFault Unit :=
  if path.isEmpty then .error .missing
  else if maxPath < path.utf8ByteSize then .error .nameTooLong
  else .ok ()

/-- The contents of the file that a path leads to. -/
def read (directory : Directory) (path : String) : Except FileFault ByteArray := do
  checkPath path
  let names := pathNames path
  let place ← step (← directory.parentOf names) (names.getLastD "")
  if directory.isDirectory place then throw .isDirectory
  match directory.file? place with
  | some contents => return contents
  | none => throw .missing

/-- Write the file that a path leads to. It need not exist, but the directory it lies in has to.
A path that ends with a slash names a directory, whatever lies there. -/
def write (directory : Directory) (path : String) (contents : ByteArray) :
    Except FileFault Directory := do
  checkPath path
  let names := pathNames path
  let proper := (names.reverse.dropWhile (· == "")).reverse
  let parent ← directory.parentOf proper
  if proper.length < names.length then throw .isDirectory
  let place ← step parent (proper.getLastD "")
  if directory.isDirectory place then throw .isDirectory
  return { files := (place, contents) :: directory.files.filter (·.1 != place) }

end Directory

end LetScript
