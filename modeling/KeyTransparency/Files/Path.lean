/-!
# Paths

A path is a text of names between slashes.  Empty names and single points lead nowhere: they stand
for the place that the path has reached.  Two points lead to the directory around it.
-/

namespace KeyTransparency.Path

/-- The parts of a text between slashes. -/
def parts : List Char → List (List Char)
  | [] => [[]]
  | c :: rest =>
    if c = '/' then [] :: parts rest
    else
      match parts rest with
      | part :: later => (c :: part) :: later
      | [] => [[c]]

/-- Whether a part stands for the place that a path has reached. -/
def staysPut (part : List Char) : Bool := part == [] || part == ['.']

/-- Whether a part leads to the directory around the place that a path has reached. -/
def leadsUp (part : List Char) : Bool := part == ['.', '.']

/-- The greatest number of bytes in a name. -/
def nameLimit : Nat := 255

/-- Whether a name is not too long. -/
def fits (name : String) : Bool := decide (name.utf8ByteSize ≤ nameLimit)

/-- The greatest number of bytes in a path. -/
def pathLimit : Nat := 4095

/-- A file's name without its extension.  A point that begins a name begins no extension. -/
def stem (name : List Char) : List Char :=
  let before := ((name.reverse.dropWhile (· != '.')).drop 1).reverse
  if before = [] then name else before

/-- The parts with another extension on the last name, from the end, and without what follows this
name. -/
def replaceExtension (extension : List Char) : List (List Char) → Option (List (List Char))
  | [] => none
  | part :: before =>
    if staysPut part then replaceExtension extension before
    else if leadsUp part then none
    else some ((stem part ++ '.' :: extension) :: before)

/-- The parts joined by slashes, given from the end. -/
def joinReversed (reversed : List (List Char)) : String :=
  String.ofList (['/'].intercalate reversed.reverse)

/-- The path with another extension on the name of its file.  A path that names no file stays.  The
old extension is taken off first where the name ends the path; if this leaves `..`, which names no
file, the path gets no other extension. -/
def withExtension (path extension : String) : String :=
  match (parts path.toList).reverse with
  | [] => path
  | last :: before =>
    if !staysPut last && stem last == ['.'] then joinReversed (['.', '.'] :: before)
    else (replaceExtension extension.toList (last :: before)).elim path joinReversed

end KeyTransparency.Path
