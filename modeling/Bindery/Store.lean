import Bindery.Path

/-!
A store of files.

Files are known by the components of their paths from the top of the store. A
directory is there as long as a file is in it; the top is always there. Paths are
followed component by component, so that `..` leads out of a directory only where
there is one.

The store lies in a larger one, of which nothing is known but that files can be put
there. A place above the top starts with `..`, once for each level, and a place that
is reached from the root starts with `/`.
-/

namespace Bindery

/-- Where something is, seen from the top of a store. -/
abbrev Place := List String

structure Store where
  files : List (Place × List UInt8)
deriving DecidableEq, Repr, Inhabited

namespace Store

def empty : Store := ⟨[]⟩

def get? (s : Store) (place : Place) : Option (List UInt8) := s.files.lookup place

def isWithin (place : Place) : Bool :=
  place.head? ≠ some ".." && place.head? ≠ some "/"

/-- Whether a place is a directory. The top, all that is above it and the root are. -/
def isDirectoryAt (s : Store) (place : Place) : Bool :=
  place.all (· = "..") || place = ["/"] || s.files.any fun file => place.isPrefixOf file.1 && place ≠ file.1

/-- Puts a file at a place. -/
def put (s : Store) (place : Place) (contents : List UInt8) : Store :=
  ⟨(place, contents) :: s.files.filter (·.1 ≠ place)⟩

theorem get?_put (s : Store) (place other : Place) (contents : List UInt8) :
    (s.put place contents).get? other = if other = place then some contents else s.get? other := by
  rw [get?, put, List.lookup_cons]
  by_cases same : other = place
  · simp [same]
  · have differs : (other == place) = false := beq_false_of_ne same
    rw [differs, if_neg same]
    change List.lookup other (s.files.filter (·.1 ≠ place)) = List.lookup other s.files
    induction s.files with
    | nil => rfl
    | cons file rest ih =>
      by_cases here : file.1 = place
      · have skipped : (other == file.1) = false := beq_false_of_ne (here ▸ same)
        rw [List.filter_cons_of_neg (by simp [here]), ih, List.lookup_cons, skipped]
      · rw [List.filter_cons_of_pos (by simp [here]), List.lookup_cons, List.lookup_cons, ih]

/-- The directory that a place is in. The root is in itself. -/
def up (place : Place) : Place :=
  match place.getLast? with
  | none | some ".." => place ++ [".."]
  | some "/" => place
  | some _ => place.dropLast

/-- Follows components from a directory. The place that is reached need not be there. -/
def walk (isDirectory : Place → Bool) (place : Place) : List String → Option Place
  | [] => some place
  | component :: rest =>
    if !isDirectory place then none
    else if component = "" ∨ component = "." then walk isDirectory place rest
    else if component = ".." then walk isDirectory (up place) rest
    else walk isDirectory (place ++ [component]) rest

def pathLimit : Nat := 4095

def nameLimit : Nat := 255

/-- Where a path starts. -/
def start (path : String) : Place := if path.startsWith "/" then ["/"] else []

/-- The components of a path. There are none of a path that is empty, holds the character
with code 0 or is too long. -/
def components? (path : String) : Option (List String) :=
  let components := (path.toList.splitOn '/').map String.ofList
  if path.isEmpty || path.toList.any (·.toNat == 0) || pathLimit < path.utf8ByteSize ||
    components.any (nameLimit < ·.utf8ByteSize) then none
  else some components

/-- The place a path leads to. -/
def locate? (s : Store) (path : String) : Option Place := do
  walk s.isDirectoryAt (start path) (← components? path)

def isDirectory (s : Store) (path : String) : Bool :=
  match s.locate? path with
  | some place => s.isDirectoryAt place
  | none => false

def holds (s : Store) (path : String) : Bool :=
  match s.locate? path with
  | some place => s.isDirectoryAt place || (s.get? place).isSome
  | none => false

def read? (s : Store) (path : String) : Option (List UInt8) := do
  s.get? (← s.locate? path)

/-- Writes a file. Directories on the way are made where nothing is; a file is in the way,
and so is a directory where the file should be. -/
def write? (s : Store) (path : String) (contents : List UInt8) : Option Store := do
  let components ← components? path
  let name ← components.getLast?
  if name = "" ∨ name = "." ∨ name = ".." then none
  let parent ← walk (fun place => (s.get? place).isNone) (start path) components.dropLast
  if (s.get? parent).isSome ∨ s.isDirectoryAt (parent ++ [name]) then none
  else return s.put (parent ++ [name]) contents

end Store

end Bindery
