import ProcLang.Compile
import ProcLang.File.Tree

/-!
# Compiling files

The module is written even if errors were found, so that what could be lowered is there to see.
-/

namespace ProcLang

/-- The outcome of compiling a file. -/
inductive FileOutcome where
  /-- The module was written and no error was found. -/
  | compiled (compilation : Compilation)
  /-- The module was written and errors were found. -/
  | failed (compilation : Compilation)
  | unreadable (path : String) (error : FileError)
  | unwritable (path : String) (error : FileError)
  /-- The compilation has no answer, and nothing was written. -/
  | faulted (fault : Fault)

/-- What is said when a file could not be read. -/
def unreadableMessage (path : String) (error : FileError) : String :=
  "failed to read " ++ path ++ ": " ++ error.message

namespace FileOutcome

/-- What is said about a compilation that did not succeed. -/
def message? : FileOutcome → Option String
  | compiled _ | faulted _ => none
  | failed compilation =>
    some ("compilation failed with " ++ toString compilation.errorCount ++ " error(s)")
  | unreadable path error => some (unreadableMessage path error)
  | unwritable path error => some ("failed to write " ++ path ++ ": " ++ error.message)

/-- The diagnostics, if the program was compiled. -/
def diagnostics? : FileOutcome → Option (List Diagnostic)
  | compiled compilation | failed compilation => some compilation.diagnostics
  | unreadable _ _ | unwritable _ _ | faulted _ => none

end FileOutcome

/-- Reads a text from a file. -/
def FileAccess.readText {m : Type → Type} [Monad m] (files : FileAccess m) (path : String) :
    m (Except FileError String) := do
  match ← files.read path with
  | .error error => return .error error
  | .ok bytes =>
    match String.fromUTF8? bytes with
    | some text => return .ok text
    | none => return .error .notText

/-- Compiles a file and writes the module to another. Unless the options say otherwise, the module
is named after the file. -/
def compileFile {m : Type → Type} [Monad m] (files : FileAccess m) (input output : String)
    (options : Options) : m FileOutcome := do
  match ← files.readText input with
  | .error error => return .unreadable input error
  | .ok source =>
    let moduleName := options.moduleName.or (Path.fileName? input)
    match compile source { options with moduleName } with
    | .error fault => return .faulted fault
    | .ok compilation =>
      match ← files.write output compilation.module.render with
      | .error error => return .unwritable output error
      | .ok () =>
        if compilation.hasErrors then
          return .failed compilation
        else
          return .compiled compilation

end ProcLang
