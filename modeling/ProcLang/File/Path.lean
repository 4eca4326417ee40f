/-!
# Paths

A path is a text with slashes between its parts. Empty parts and single points stand for the place
they are found at. The name of the file is the last part that is neither, unless that is a double
point.
-/

namespace ProcLang.Path

/-- The parts of a text between slashes. -/
def splitSlashes : List Char → List (List Char)
  | [] => [[]]
  | c :: cs =>
    if c = '/' then
      [] :: splitSlashes cs
    else
      match splitSlashes cs with
      | [] => [[c]]
      | part :: parts => (c :: part) :: parts

/-- The parts of a path. -/
def parts (path : String) : List String :=
  (splitSlashes path.toList).map String.ofList

/-- Whether a part stands for the place it is found at. -/
def isHere (part : String) : Bool :=
  part == "" || part == "."

/-- The parts of a path up to the name of its file. -/
def partsToName (path : String) : List String :=
  ((parts path).reverse.dropWhile isHere).reverse

/-- The name of the file of a path. -/
def fileName? (path : String) : Option String :=
  (partsToName path).getLast?.filter (· != "..")

/-- The name of a file up to the last point in it, and the extension after that point. A point at
the start does not begin an extension. -/
def splitName (name : String) : String × Option String :=
  match name.toList.reverse.span (· != '.') with
  | (_, []) | (_, ['.']) => (name, none)
  | (extension, _ :: before) =>
    (String.ofList before.reverse, some (String.ofList extension.reverse))

/-- The path with another name for its file. -/
def withName (path name : String) : String :=
  "/".intercalate ((partsToName path).dropLast ++ [name])

/-- The path without the extension of its file. The point before the extension stays. -/
def withoutExtension (path : String) : String :=
  match (fileName? path).map splitName with
  | some (stem, some _) => withName path (stem ++ ".")
  | _ => path

/-- The path with another extension for its file. The old extension goes first; if no file is
named by what is left, as by a double point, then no extension is added. -/
def withExtension (path extension : String) : String :=
  let bare := withoutExtension path
  match (fileName? bare).map splitName with
  | some (stem, _) => withName bare (stem ++ "." ++ extension)
  | none => bare

end ProcLang.Path
