import ViewBridge.Text.Dictionary
import ViewBridge.Text.Lines

namespace ViewBridge.Command

/-- Why a file cannot be read or written. -/
inductive FileFault where
  | notFound
  | notDirectory
  | isDirectory
  | nameTooLong
  | invalidText
  | other (message : String)
  deriving DecidableEq

def FileFault.message : FileFault → String
  | .notFound => "No such file or directory (os error 2)"
  | .notDirectory => "Not a directory (os error 20)"
  | .isDirectory => "Is a directory (os error 21)"
  | .nameTooLong => "File name too long (os error 36)"
  | .invalidText => "stream did not contain valid UTF-8"
  | .other message => message

/-- The access to text that a command needs. -/
structure Files (m : Type → Type) where
  /-- The standard input. -/
  input : m (Except FileFault String)
  read : String → m (Except FileFault String)
  write : String → String → m (Except FileFault Unit)

/-- A directory held in memory: the texts of its files by their paths. It stands inside other
directories, and nothing is known of what else they hold. -/
structure Folder where
  files : Text.Dictionary String

/-- What a path leads to, as seen from a folder. -/
inductive Place where
  /-- A place in the folder, by the parts of its path. -/
  | inside (parts : List String)
  /-- A directory that the folder is in. -/
  | around
  /-- A file in a directory that the folder is in. -/
  | beyond
  deriving DecidableEq

namespace Place

def parent : Place → Place
  | .inside [] => .around
  | .inside parts => .inside parts.dropLast
  | place => place

def child (name : String) : Place → Place
  | .inside parts => .inside (parts ++ [name])
  | _ => .beyond

end Place

namespace Folder

def parts (path : String) : List String := (Text.runs (· ≠ '/') path.toList).map String.ofList

def pathText (parts : List String) : String := "/".intercalate parts

def text? (f : Folder) (parts : List String) : Option String := f.files.get? (pathText parts)

/-- Whether a list of parts names the folder itself or one that some file is in. -/
def isDirectory (f : Folder) (place : List String) : Bool :=
  place.isEmpty || f.files.entries.any fun entry =>
    place.isPrefixOf (parts entry.1) && (parts entry.1).length != place.length

def expectDirectory (f : Folder) : Place → Except FileFault Unit
  | .inside parts =>
    if f.isDirectory parts then .ok ()
    else .error (if (f.text? parts).isSome then .notDirectory else .notFound)
  | .around => .ok ()
  | .beyond => .error .notFound

/-- The most bytes that one part of a path may have. -/
def maxNameSize : Nat := 255

/-- The most bytes that a path may have. -/
def maxPathSize : Nat := 4095

/-- Follows the parts of a path. Only a directory leads on, so that a place may be missing at the
end of a path alone. -/
def resolve (f : Folder) (place : Place) : List String → Except FileFault Place
  | [] => .ok place
  | part :: rest => do
    f.expectDirectory place
    if part = "" ∨ part = "." then resolve f place rest
    else if part = ".." then resolve f place.parent rest
    else if maxNameSize < part.utf8ByteSize then throw .nameTooLong
    else resolve f (place.child part) rest

/-- The place where a path starts: the outermost directory if a slash stands first. -/
def origin (path : String) : Except FileFault Place :=
  if maxPathSize < path.utf8ByteSize then .error .nameTooLong
  else .ok (if path.toList.head? = some '/' then .around else .inside [])

def read (f : Folder) (path : String) : Except FileFault String := do
  match ← f.resolve (← origin path) (parts path) with
  | .inside parts =>
    if f.isDirectory parts then throw .isDirectory
    match f.text? parts with
    | some text => return text
    | none => throw .notFound
  | .around => throw .isDirectory
  | .beyond => throw .notFound

def withoutFinalSlashes (path : String) : String :=
  String.ofList (path.toList.reverse.dropWhile (· = '/')).reverse

/-- Writes a file, in place of the one that may have stood there. A path that ends in a slash
names a directory, whether there is one or not. A file beyond the folder leaves the folder as it
is. -/
def write (f : Folder) (path text : String) : Except FileFault Folder := do
  let origin ← origin path
  let name := withoutFinalSlashes path
  if name ≠ path then
    f.expectDirectory (← f.resolve origin (parts name).dropLast)
    throw .isDirectory
  match ← f.resolve origin (parts path) with
  | .inside parts =>
    if f.isDirectory parts then throw .isDirectory
    return ⟨f.files.insert (pathText parts) text⟩
  | .around => throw .isDirectory
  | .beyond => return f

/-- The files that are not in another folder with the same text. -/
def changesSince (f before : Folder) : List (String × String) :=
  f.files.entries.filter fun entry => before.files.get? entry.1 ≠ some entry.2

/-- Access to a folder as the state of a computation. -/
def access (input : String) : Files (StateM Folder) where
  input := return .ok input
  read path := return (← get).read path
  write path text := do
    match (← get).write path text with
    | .ok folder =>
      set folder
      return .ok ()
    | .error fault => return .error fault

end Folder

end ViewBridge.Command
