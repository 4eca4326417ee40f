import ProcLang.File.Path

/-!
# Files

A `FileTree` holds what a directory and the directories below it hold. Names in it are found by
walking along a path part by part, from the directory or, after a slash, from the root of all files.
Outside the directory nothing is known but the directories above it and the few places that every
system has.

`FileAccess` is what reading and writing need, whether the files are those of a `FileTree` or of a
computer.
-/

namespace ProcLang

/-- Why a file could not be read or written. -/
inductive FileError where
  /-- The system refused, with a text and a code. -/
  | system (text : String) (code : Nat)
  /-- What was read is not text in UTF-8. -/
  | notText
  /-- No file can have the name. -/
  | nulInName
deriving DecidableEq, Inhabited

namespace FileError

/-- There is nothing with the name. -/
def notFound : FileError := .system "No such file or directory" 2

/-- A file was found where a directory is needed. -/
def notDirectory : FileError := .system "Not a directory" 20

/-- A directory was found where a file is needed. -/
def isDirectory : FileError := .system "Is a directory" 21

/-- A name or a path has too many bytes. -/
def nameTooLong : FileError := .system "File name too long" 36

/-- The message for a failure. -/
def message : FileError → String
  | system text code => text ++ " (os error " ++ toString code ++ ")"
  | notText => "stream did not contain valid UTF-8"
  | nulInName => "file name contained an unexpected NUL byte"

end FileError

/-- Reading and writing of files by their paths. -/
structure FileAccess (m : Type → Type) where
  read : String → m (Except FileError ByteArray)
  write : String → String → m (Except FileError Unit)

/-- What stands at a place in a tree of files. -/
inductive FileEntry where
  | file (bytes : ByteArray)
  | directory
  /-- A file that stays empty, whatever is written to it. -/
  | sink

/-- The files and directories below a directory, each with the names that lead to it. -/
structure FileTree where
  entries : List (List String × FileEntry) := []

namespace FileTree

/-- The most bytes that the name of a file can have. -/
def maxNameBytes : Nat := 255

/-- The most bytes that a path can have. -/
def maxPathBytes : Nat := 4095

/-- The place of the root of all files, which no name can stand for, as none has a slash. -/
def root : List String := ["/"]

/-- What every system has outside the directory. -/
def outside : List (List String × FileEntry) :=
  [(root, .directory),
   (root ++ ["tmp"], .directory),
   (root ++ ["dev"], .directory),
   (root ++ ["dev", "null"], .sink)]

/-- Whether a place is not below the directory. -/
def isOutside (place : List String) : Bool :=
  place.head? == some ".." || place.head? == some "/"

/-- The entry at a place. -/
def get? (t : FileTree) (place : List String) : Option FileEntry :=
  if place.all (· == "..") then
    some .directory
  else
    (t.entries.lookup place).or (outside.lookup place)

/-- The place above a place. The root is above itself. -/
def above (place : List String) : List String :=
  if place.all (· == "..") then place ++ [".."]
  else if place = root then root
  else place.dropLast

/-- Goes from a place to a part of a path, for which the place has to be a directory. -/
def enter (t : FileTree) (place : List String) (part : String) :
    Except FileError (List String) :=
  match t.get? place with
  | none => .error .notFound
  | some .directory =>
    if Path.isHere part then .ok place
    else if part = ".." then .ok (above place)
    else if maxNameBytes < part.utf8ByteSize then .error .nameTooLong
    else .ok (place ++ [part])
  | some _ => .error .notDirectory

/-- The place that parts of a path lead to from a place. -/
def walk (t : FileTree) (start : List String) (parts : List String) :
    Except FileError (List String) :=
  parts.foldlM t.enter start

/-- The place where a path starts. -/
def start (path : String) : List String :=
  if path.toList.head? = some '/' then root else []

/-- The parts of a path that can name a file. -/
def checkedParts (path : String) : Except FileError (List String) :=
  if path.toList.contains '\x00' then .error .nulInName
  else if path = "" then .error .notFound
  else if maxPathBytes < path.utf8ByteSize then .error .nameTooLong
  else .ok (Path.parts path)

/-- The bytes of a file. -/
def read (t : FileTree) (path : String) : Except FileError ByteArray := do
  let place ← t.walk (start path) (← checkedParts path)
  match t.get? place with
  | none => .error .notFound
  | some .directory => .error .isDirectory
  | some .sink => .ok .empty
  | some (.file bytes) => .ok bytes

/-- Puts an entry at a place, in place of the one that was there. -/
def put (t : FileTree) (place : List String) (entry : FileEntry) : FileTree :=
  if (t.entries.lookup place).isSome then
    ⟨t.entries.map fun (p, e) => if p = place then (p, entry) else (p, e)⟩
  else
    ⟨t.entries ++ [(place, entry)]⟩

/-- Writes a file, which is made if it is not there. A slash at the end asks for a directory,
whatever name is before it. -/
def write (t : FileTree) (path : String) (bytes : ByteArray) : Except FileError FileTree := do
  let parts ← checkedParts path
  let named := (parts.reverse.dropWhile (· == "")).reverse
  let name := if parts.getLastD "" = "" then "." else named.getLastD "."
  let place ← t.enter (← t.walk (start path) named.dropLast) name
  match t.get? place with
  | some .directory => .error .isDirectory
  | some .sink => .ok t
  | _ => .ok (t.put place (.file bytes))

/-- Adds the directories that lead to a place. -/
def putAbove (t : FileTree) (place : List String) : FileTree :=
  (List.range place.length).foldl (fun t n =>
    if (t.get? (place.take n)).isSome then t else t.put (place.take n) .directory) t

/-- The tree with the given entries and the directories that lead to them. -/
def ofEntries (entries : List (String × FileEntry)) : FileTree :=
  entries.foldl (fun t (path, entry) =>
    let place := (Path.parts path).filter (!Path.isHere ·)
    (t.putAbove place).put place entry) {}

/-- The files below the directory that one tree has and another lacks, or has with other bytes. -/
def changes (before after : FileTree) : List (String × ByteArray) :=
  after.entries.filterMap fun (place, entry) =>
    match entry, before.entries.lookup place with
    | .file new, some (.file old) =>
      if new.data = old.data then none else some ("/".intercalate place, new)
    | .file new, _ => if isOutside place then none else some ("/".intercalate place, new)
    | _, _ => none

/-- Reading and writing of the files of a tree. -/
def access : FileAccess (StateM FileTree) where
  read path := return (← get).read path
  write path text := do
    match (← get).write path text.toUTF8 with
    | .ok t =>
      set t
      return .ok ()
    | .error e => return .error e

end FileTree

end ProcLang
