import KeyTransparency.Files.Access
import KeyTransparency.Files.Path

/-!
# A directory

A model of the files in one directory, in the directories inside it, and in those around it.  Paths
begin at this directory or at the root, and lead on through directories that are there.  Of the
directories around, nothing is known but the files and directories that are kept for them; by which
name the directory itself stands among these is not known either, so no path comes back to it by
this name.
-/

namespace KeyTransparency

/-- The way to a directory. -/
inductive Way where
  /-- The root. -/
  | root
  /-- The directory at which paths begin, or the one around it some levels above. -/
  | above (levels : Nat)
  /-- The directory of a name inside another. -/
  | inside (outer : Way) (name : String)

namespace Way

/-- The directory at which a path begins. -/
def start (path : String) : Way := if path.startsWith "/" then root else above 0

/-- The way to the directory around the one that a way leads to.  There is none around the root. -/
def around : Way → Way
  | root => root
  | above levels => above (levels + 1)
  | inside outer _ => outer

/-- What the names in a directory are preceded by. -/
def text : Way → String
  | root => "/"
  | above levels => String.join (List.replicate levels "../")
  | inside outer name => outer.text ++ name ++ "/"

end Way

/-- The files of a directory: their names after the way to them, and what they hold if it is text.
A directory that is there is kept as well, under the way to it, which ends in a slash. -/
structure Directory where
  files : List (String × Option String)

/-- Where a path leads. -/
inductive Place where
  /-- To the file of a name, which need not be there. -/
  | file (name : String)
  /-- To a directory, through a file, or to a name that no file can have. -/
  | noFile
  /-- Nowhere, because a directory on the way is not there. -/
  | nowhere
deriving DecidableEq

/-- The name at which a path stops, because it is not that of a directory, and the parts of the path
that follow it. -/
structure Stop where
  way : Way
  name : List Char
  rest : List (List Char)

/-- The file that has the name at which a path stops, if there is one. -/
def Stop.file (stop : Stop) : String := stop.way.text ++ String.ofList stop.name

namespace Directory

/-- The directory without files. -/
def empty : Directory := ⟨[]⟩

/-- The file of a name. -/
def find? (dir : Directory) (name : String) : Option (Option String) := dir.files.lookup name

/-- The directory without the file of a name. -/
def erase (dir : Directory) (name : String) : Directory :=
  ⟨dir.files.filter fun file => file.1 != name⟩

/-- The directory with a file in it, instead of the file that had its name. -/
def insert (dir : Directory) (name : String) (content : Option String) : Directory :=
  ⟨(name, content) :: (dir.erase name).files⟩

/-- Whether there is a directory of a name at the end of a way. -/
def hasInside (dir : Directory) (way : Way) (name : String) : Bool :=
  (dir.find? (way.inside name).text).isSome

/-- The way that is reached with one more part of a path, if it leads to a directory. -/
def enter? (dir : Directory) (way : Way) (part : List Char) : Option Way :=
  let name := String.ofList part
  if Path.staysPut part then some way
  else if Path.leadsUp part then some way.around
  else if Path.fits name && dir.hasInside way name then some (way.inside name)
  else none

/-- The name at which the parts of a path stop, if they do not all lead to directories. -/
def stopFrom? (dir : Directory) : Way → List (List Char) → Option Stop
  | _, [] => none
  | way, part :: rest =>
    match dir.enter? way part with
    | some inner => dir.stopFrom? inner rest
    | none => some ⟨way, part, rest⟩

/-- The name at which a path stops, if it is short enough and does not lead to a directory. -/
def stop? (dir : Directory) (path : String) : Option Stop :=
  if Path.pathLimit < path.utf8ByteSize then none
  else dir.stopFrom? (.start path) (Path.parts path.toList)

/-- Where a path leads. -/
def place (dir : Directory) (path : String) : Place :=
  match dir.stop? path with
  | none => .noFile
  | some stop =>
    if !Path.fits (String.ofList stop.name) then .noFile
    else if stop.rest = [] then .file stop.file
    else if (dir.find? stop.file).isSome then .noFile
    else .nowhere

/-- What comes of reading at a path. -/
def read (dir : Directory) (path : String) : Reading :=
  match dir.place path with
  | .file name =>
    match dir.find? name with
    | some (some content) => .text content
    | some none => .unreadable
    | none => .absent
  | .noFile => .unreadable
  | .nowhere => .absent

/-- The directory after a change, if the change succeeds. -/
def change? (dir : Directory) : Change → Option Directory
  | .create path =>
    match dir.place path with
    | .file name => some (dir.insert name (some ""))
    | _ => none
  | .append path text =>
    match dir.place path with
    | .file name => (dir.find? name).map fun content => dir.insert name (content.map (· ++ text))
    | _ => none
  | .rename source target =>
    match dir.place source, dir.place target with
    | .file old, .file new => (dir.find? old).map fun content => (dir.erase old).insert new content
    | _, _ => none

/-- The files of a directory, to a program that changes it. -/
def access : FileAccess (StateM Directory) where
  read path := return (← get).read path
  change change := do
    match (← get).change? change with
    | some dir => set dir; return true
    | none => return false

end Directory

end KeyTransparency
