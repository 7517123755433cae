/-!
# Files

What the program needs of the files around it: reading them as text, and three ways of changing
them.  The program is written over any such files, so that it runs on a disk and on the model of one
alike.
-/

namespace KeyTransparency

/-- What comes of reading a file. -/
inductive Reading where
  | text (content : String)
  /-- There is no such file. -/
  | absent
  /-- There is something, but it is no text. -/
  | unreadable
deriving DecidableEq

/-- A change of a file that happens at once or not at all; only an addition may be cut short. -/
inductive Change where
  /-- Makes an empty file, or empties the file that is there. -/
  | create (path : String)
  /-- Adds text to the end of a file. -/
  | append (path : String) (text : String)
  /-- Gives a file another name, instead of the file that had this name. -/
  | rename (source target : String)
deriving DecidableEq

/-- Files that can be read and changed. -/
structure FileAccess (m : Type → Type) where
  read : (path : String) → m Reading
  /-- Makes a change and tells whether this succeeded. -/
  change : Change → m Bool

end KeyTransparency
