import HackStack.Files.Path
import HackStack.Text.Quoted
import HackStack.Text.Utf8

/-!
# File trees

The files that a tool sees are a tree, given by the entries at its locations. A
location is the list of names that lead there from the top, which is a directory.
One location is the working directory, where relative paths start.

Following a path takes one piece after the other, and each needs a directory to stand
on. An empty piece or a dot stays there, a double dot goes up, and at the top it
stays. The piece that ends a path may lead to a location where nothing is. Names and
whole paths are limited in length, counted in bytes.
-/

namespace HackStack.Files

open Text.Utf8 (Bytes)

/-- What is at a location. -/
inductive Entry where
  | directory
  | file (content : Bytes)
  deriving DecidableEq, Repr

/-- The names that lead to a place from the top. -/
abbrev Location := List Text

/-- A tree of files. Of two entries at a location the first counts. -/
structure Tree where
  entries : List (Location × Entry)
  /-- The working directory. -/
  here : Location
  deriving DecidableEq, Repr

/-- Why a path leads to nothing of the kind wanted. -/
inductive AccessFault where
  | notFound
  | notDirectory
  | isDirectory
  | nameTooLong
  deriving DecidableEq, Repr

/-- What is said about a fault. -/
def AccessFault.reason : AccessFault → String
  | .notFound => "[Errno 2] No such file or directory"
  | .notDirectory => "[Errno 20] Not a directory"
  | .isDirectory => "[Errno 21] Is a directory"
  | .nameTooLong => "[Errno 36] File name too long"

/-- A failed access. -/
structure AccessError where
  fault : AccessFault
  path : Text
  deriving DecidableEq, Repr

/-- The message of a failed access. -/
def AccessError.message (e : AccessError) : String := e.fault.reason ++ ": " ++ Text.shown e.path

/-- The number of bytes that a text takes. -/
def byteLength (t : Text) : Nat := t.foldl (fun n c => n + c.utf8Size) 0

/-- The most bytes that a name may take. -/
def nameLimit : Nat := 255

/-- The most bytes that a path may take. -/
def pathLimit : Nat := 4095

/-- One piece of a path further. -/
def Location.step (l : Location) (piece : Text) : Location :=
  if piece.isEmpty || piece == dot then l
  else if piece == dotDot then l.dropLast
  else l ++ [piece]

namespace Tree

/-- The entry at a location. -/
def get? (t : Tree) (l : Location) : Option Entry :=
  if l.isEmpty then some .directory else t.entries.lookup l

/-- Where a path starts. -/
def startOf (t : Tree) (path : Text) : Location :=
  if path.head? == some slash then [] else t.here

/-- Follow pieces of a path from a location. -/
def follow (t : Tree) (l : Location) : List Text → Except AccessFault Location
  | [] => .ok l
  | piece :: more =>
    match t.get? l with
    | none => .error .notFound
    | some (.file _) => .error .notDirectory
    | some .directory =>
      if nameLimit < byteLength piece then .error .nameTooLong
      else t.follow (l.step piece) more

/-- Follow pieces of a path from where it starts. -/
def followFrom (t : Tree) (path : Text) (ps : List Text) : Except AccessFault Location :=
  if path.isEmpty then .error .notFound
  else if pathLimit < byteLength path then .error .nameTooLong
  else t.follow (t.startOf path) ps

/-- The location that a path leads to. -/
def locate (t : Tree) (path : Text) : Except AccessFault Location :=
  t.followFrom path (pieces path)

/-- The entry that a path leads to. -/
def stat (t : Tree) (path : Text) : Except AccessFault Entry :=
  match t.locate path with
  | .error fault => .error fault
  | .ok l =>
    match t.get? l with
    | none => .error .notFound
    | some entry => .ok entry

/-- The content of the file that a path leads to. -/
def read (t : Tree) (path : Text) : Except AccessError Bytes :=
  match t.stat path with
  | .error fault => .error ⟨fault, path⟩
  | .ok .directory => .error ⟨.isDirectory, path⟩
  | .ok (.file content) => .ok content

/-- The pieces of a path before its last name, which a slash follows. The dot at the end
asks for a directory there. -/
def piecesAbove (path : Text) : List Text :=
  (pieces (path.reverse.dropWhile (· == slash)).reverse).dropLast ++ [dot]

/-- The location of the file that a path leads to for writing. A path with a slash at its
end can only be that of a directory, whatever its last name is. -/
def target (t : Tree) (path : Text) : Except AccessFault Location :=
  if path.getLast? == some slash then
    match t.followFrom path (piecesAbove path) with
    | .error fault => .error fault
    | .ok _ => .error .isDirectory
  else
    match t.locate path with
    | .error fault => .error fault
    | .ok l => if t.get? l == some .directory then .error .isDirectory else .ok l

/-- The location that a path leads to for writing, or the failed access. -/
def writable (t : Tree) (path : Text) : Except AccessError Location :=
  (t.target path).mapError (⟨·, path⟩)

/-- The tree with a file put at a location. -/
def put (t : Tree) (l : Location) (content : Bytes) : Tree :=
  { t with entries := (l, .file content) :: t.entries.filter (·.1 != l) }

/-- A file is found where it was put. -/
theorem get?_put_self (t : Tree) {l : Location} (h : l ≠ []) (content : Bytes) :
    (t.put l content).get? l = some (.file content) := by
  cases l with
  | nil => exact absurd rfl h
  | cons name more => simp [get?, put]

/-- Nothing else is changed by it. -/
theorem get?_put_of_ne (t : Tree) {l other : Location} (h : other ≠ l) (content : Bytes) :
    (t.put l content).get? other = t.get? other := by
  have hother : (other == l) = false := by simpa using h
  have hlookup : ∀ es : List (Location × Entry),
      (es.filter (·.1 != l)).lookup other = es.lookup other := by
    intro es
    induction es with
    | nil => rfl
    | cons e more ih =>
      obtain ⟨place, entry⟩ := e
      by_cases he : place = l
      · simp [he, List.lookup_cons, ih, hother]
      · simp [he, List.lookup_cons, ih]
  simp only [get?, put]
  split
  · rfl
  · simp [List.lookup_cons, hother, hlookup]

/-- The names of the entries of a directory, in the order of their code points. -/
def names (t : Tree) (l : Location) : List Text :=
  (t.entries.filterMap fun e => if e.1.dropLast == l then e.1.getLast? else none).mergeSort
    Text.notAfter

/-- The location of a path by its names alone, whatever is there. -/
def resolve (t : Tree) (p : Path) : Location :=
  p.names.foldl Location.step (if p.root.isEmpty then t.here else [])

end Tree

end HackStack.Files
