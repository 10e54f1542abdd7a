import CommaStyle.Text

namespace CommaStyle

/-!
# Disks

Files and folders, and how a path leads to them. A path is read from left to right: from the working
folder, or from the top if it starts with a slash; two dots lead one folder up, and one dot or
nothing stays. Every name before the last has to be that of a folder.
-/

/-- What a file holds: text, or bytes that are no text. -/
inductive Content where
  | text (t : Text)
  | bytes (b : List UInt8)
  | folder
deriving DecidableEq, Repr

/-- The names that lead from the top to a file or folder. -/
abbrev Location := List Text

/-- The working folder, and what stands at locations. The folders on the way to a location exist
    without being listed. -/
structure Disk where
  here : Location
  entries : List (Location × Content)
deriving DecidableEq, Repr

/-- A cause for not reading a file. -/
inductive AccessFault where
  | notFound
  | notFolder
  | isFolder
  | notText
deriving DecidableEq, Repr

/-- The words for a cause. -/
def AccessFault.message : AccessFault → String
  | notFound => "No such file or directory (os error 2)"
  | notFolder => "Not a directory (os error 20)"
  | isFolder => "Is a directory (os error 21)"
  | notText => "stream did not contain valid UTF-8"

/-- The parts of a path between its slashes. -/
def pathParts : Text → List Text
  | [] => [[]]
  | c :: t =>
    if c = '/' then [] :: pathParts t
    else
      match pathParts t with
      | [] => [[c]]
      | part :: parts => (c :: part) :: parts

/-- The contents of a file with these bytes. -/
def Content.ofBytes (b : List UInt8) : Content :=
  match String.fromUTF8? ⟨b.toArray⟩ with
  | some s => .text s.toList
  | none => .bytes b

namespace Disk

/-- A disk with nothing but its working folder. -/
def empty (here : Location) : Disk := ⟨here, []⟩

/-- Puts something at a location. -/
def put (d : Disk) (location : Location) (content : Content) : Disk :=
  { d with entries := d.entries.filter (fun e => e.1 != location) ++ [(location, content)] }

/-- Whether a location is a folder because something lies below it, or the work is done there. -/
def isPassed (d : Disk) (location : Location) : Bool :=
  location.isPrefixOf d.here || d.entries.any fun e => location.isPrefixOf e.1

/-- What stands at a location. -/
def content? (d : Disk) (location : Location) : Option Content :=
  match d.entries.lookup location with
  | some content => some content
  | none => if d.isPassed location then some .folder else none

/-- Follows the parts of a path from a location on. -/
def follow (d : Disk) (location : Location) : List Text → Except AccessFault Location
  | [] => .ok location
  | part :: parts =>
    if d.content? location != some .folder then .error .notFolder
    else if part = [] || part = ['.'] then d.follow location parts
    else if part = ['.', '.'] then d.follow location.dropLast parts
    else if (d.content? (location ++ [part])).isNone then .error .notFound
    else d.follow (location ++ [part]) parts

/-- The location that a path leads to. -/
def locate (d : Disk) (path : String) : Except AccessFault Location :=
  match path.toList with
  | [] => .error .notFound
  | '/' :: t => d.follow [] (pathParts t)
  | t => d.follow d.here (pathParts t)

/-- The text of the file that a path leads to. -/
def read (d : Disk) (path : String) : Except AccessFault Text := do
  let location ← d.locate path
  match d.content? location with
  | some (.text t) => return t
  | some (.bytes _) => .error .notText
  | some .folder => .error .isFolder
  | none => .error .notFound

/-- Gives the file that a path leads to another text. -/
def write (d : Disk) (path : String) (t : Text) : Disk :=
  match d.locate path with
  | .error _ => d
  | .ok location =>
    { d with entries := d.entries.map fun e => if e.1 = location then (location, .text t) else e }

end Disk

end CommaStyle
