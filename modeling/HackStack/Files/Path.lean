import HackStack.Text.Basic

/-!
# Paths

A path is a root and the names under it. Reading a path drops empty names and single
dots, so that `./d//One.vm` and `d/One.vm` are one path; a double dot is kept, since
only the files themselves tell where it leads. A path that is left without names and
root is written as a dot.

The suffix of a name starts at its last dot, unless that is its first or its last
character.
-/

namespace HackStack.Files

/-- The slash between the names of a path. -/
def slash : Char := '/'

/-- The name for a directory itself. -/
def dot : Text := ['.']

/-- The name for the directory above. -/
def dotDot : Text := ['.', '.']

/-- A path. -/
structure Path where
  /-- Nothing for a relative path, else a slash, or two if there are just two. -/
  root : Text
  names : List Text
  deriving DecidableEq, Repr

/-- The root of a path that starts with so many slashes. -/
def rootOf : Nat → Text
  | 0 => []
  | 2 => [slash, slash]
  | _ => [slash]

/-- The pieces of a path between its slashes. -/
def pieces (t : Text) : List Text := t.splitOn slash

/-- Read a path. -/
def Path.parse (t : Text) : Path :=
  ⟨rootOf (t.takeWhile (· == slash)).length,
    (pieces t).filter fun name => !name.isEmpty && name != dot⟩

/-- How a path is written. -/
def Path.render (p : Path) : Text :=
  if p.root.isEmpty && p.names.isEmpty then dot
  else p.root ++ [slash].intercalate p.names

/-- The last name of a path. -/
def Path.name (p : Path) : Text := p.names.getLastD []

/-- The path of an entry of a directory. -/
def Path.child (p : Path) (name : Text) : Path := { p with names := p.names ++ [name] }

/-- The suffix of a name, with its dot. -/
def suffix (name : Text) : Text :=
  if (Text.beforeLast '.' name).isEmpty || (Text.afterLast '.' name).isEmpty then []
  else '.' :: Text.afterLast '.' name

/-- A name without its suffix. -/
def stem (name : Text) : Text :=
  if (suffix name).isEmpty then name else Text.beforeLast '.' name

/-- The path with another suffix to its last name. -/
def Path.withSuffix (p : Path) (new : Text) : Path :=
  { p with names := p.names.dropLast ++ [stem p.name ++ new] }

end HackStack.Files
