/-!
Paths of files, as text.

Components are separated by slashes. A slash at the end of a path, and a component
`.` behind the first, name nothing. A path keeps its spelling as far as it is kept.
-/

namespace Bindery.Path

/-- The path of `file` seen from `base`. -/
def join (base file : String) : String :=
  if file.startsWith "/" then file
  else if base.isEmpty || base.endsWith "/" then base ++ file
  else base ++ "/" ++ file

/-- Drops what names nothing from the end of a path that is given in reverse. -/
def trimReversed : List Char → List Char
  | '/' :: rest => trimReversed rest
  | '.' :: '/' :: rest => trimReversed rest
  | rest => rest

/-- A path as its last component and what stands before it, up to and with the slash. -/
def split (path : String) : List Char × List Char :=
  let reversed := trimReversed path.toList.reverse
  ((reversed.dropWhile (· ≠ '/')).reverse, (reversed.takeWhile (· ≠ '/')).reverse)

def parent? (path : String) : Option String :=
  match split path with
  | (_, []) => none
  | ([], _) => some ""
  | (before, _) =>
    match trimReversed before.reverse with
    | [] => some "/"
    | reversed => some (String.ofList reversed.reverse)

/-- Whether a component is a name. -/
def isName (component : List Char) : Bool :=
  component ≠ [] && component ≠ ['.'] && component ≠ ['.', '.']

/-- A name without its extension. A dot at the start does not begin one. -/
def stem (name : List Char) : List Char :=
  match (name.reverse.dropWhile (· ≠ '.')).drop 1 with
  | [] => name
  | reversed => reversed.reverse

/-- A path with another extension. The extension that a path ends in is taken away first.
Where this leaves `..`, which is no name, nothing takes its place. A path that ends in no
name stays as it is. -/
def withExtension (path extension : String) : String :=
  let (before, name) := split path
  if !isName name then path
  else if stem name = ['.'] ∧ path.toList = before ++ name then
    String.ofList (before ++ ['.', '.'])
  else String.ofList (before ++ stem name) ++ "." ++ extension

end Bindery.Path
