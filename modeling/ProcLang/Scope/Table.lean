import ProcLang.Scope.Symbol

/-!
# Symbol tables

A `SymbolTable` has a global scope and a stack of open local scopes. A name is looked up from the
innermost scope outwards, and in the global scope last. It is declared in the innermost scope, or
in the global one when that is asked for or no local scope is open. A scope holds a name once.
-/

namespace ProcLang

/-- Why a symbol could not be added or changed. -/
inductive SymbolError where
  /-- The scope has the name already. -/
  | duplicate (name : String)
  /-- The name stands for something of another type or kind. -/
  | mismatch (name expected actual : String)
  /-- The name stands for nothing. -/
  | notFound (name : String)
deriving DecidableEq, Inhabited

/-- The message for a failed change. -/
def SymbolError.message : SymbolError → String
  | duplicate name => name ++ " is already declared in this scope"
  | mismatch name expected actual =>
    name ++ " expected a value of type " ++ expected ++ ", but got " ++ actual
  | notFound name => name ++ " is not declared"

/-- The symbols of a scope, in the order of their declaration. -/
abbrev Symbols := List Symbol

namespace Symbols

/-- The symbol with a name. -/
def get? (symbols : Symbols) (name : String) : Option Symbol :=
  symbols.find? (·.name == name)

/-- Whether there is a symbol with a name. -/
def contains (symbols : Symbols) (name : String) : Bool :=
  (symbols.get? name).isSome

/-- Gives the symbol with a name another binding. -/
def rebind (symbols : Symbols) (name : String) (binding : Ir.Value) : Symbols :=
  symbols.map fun s => if s.name = name then { s with binding } else s

/-- Adds a symbol, unless there is one with its name. -/
def add (symbols : Symbols) (symbol : Symbol) (frame : Option Nat) : Except SymbolError Symbols :=
  if symbols.contains symbol.name then
    .error (.duplicate symbol.name)
  else
    .ok (symbols ++ [{ symbol with frame }])

/-- Takes over the binding of a symbol for the one with its name, if there is one. The type and the
kind have to be the same. -/
def update? (symbols : Symbols) (symbol : Symbol) : Option (Except SymbolError Symbols) :=
  (symbols.get? symbol.name).map fun existing =>
    if existing.ty = symbol.ty ∧ existing.kind = symbol.kind then
      .ok (symbols.rebind symbol.name symbol.binding)
    else
      .error (.mismatch symbol.name existing.shape symbol.shape)

end Symbols

/-- A local scope: its name, and the symbols declared in it. -/
structure Scope where
  label : String
  symbols : Symbols := []
deriving DecidableEq, Inhabited

/-- The scopes of a program. -/
structure SymbolTable where
  globals : Symbols := []
  /-- The open local scopes, the innermost first. -/
  locals : List Scope := []
  /-- The number that the next unique name will have. A text of less than 2 GiB asks for too few
  names to leave 32 bits. -/
  nextUnique : Nat := 0
deriving DecidableEq, Inhabited

namespace SymbolTable

/-- The number of open local scopes. -/
def depth (t : SymbolTable) : Nat :=
  t.locals.length

/-- Opens a local scope. -/
def push (t : SymbolTable) (label : String) : SymbolTable :=
  { t with locals := ⟨label, []⟩ :: t.locals }

/-- Closes the innermost local scope, if one is open. -/
def pop? (t : SymbolTable) : Option SymbolTable :=
  match t.locals with
  | [] => none
  | _ :: outer => some { t with locals := outer }

/-- Finds what a name stands for in the given local scopes. -/
def lookupLocal? (name : String) (scopes : List Scope) : Option Symbol :=
  scopes.findSome? fun scope => scope.symbols.get? name

/-- Finds what a name stands for. -/
def lookup? (t : SymbolTable) (name : String) : Option Symbol :=
  (lookupLocal? name t.locals).or (t.globals.get? name)

/-- Whether the innermost scope has a name. -/
def containsInCurrent (t : SymbolTable) (name : String) : Bool :=
  match t.locals with
  | [] => t.globals.contains name
  | scope :: _ => scope.symbols.contains name

/-- Whether the global scope has a name. -/
def containsGlobal (t : SymbolTable) (name : String) : Bool :=
  t.globals.contains name

/-- Whether a name cannot be declared, in the global scope or in the innermost one. -/
def isDeclared (t : SymbolTable) (name : String) (isGlobal : Bool) : Bool :=
  if isGlobal then t.containsGlobal name else t.containsInCurrent name

/-- Declares a symbol in the global scope or in the innermost one. -/
def add (t : SymbolTable) (symbol : Symbol) (isGlobal : Bool) : Except SymbolError SymbolTable :=
  match t.locals, isGlobal with
  | scope :: outer, false =>
    (scope.symbols.add symbol (some t.depth)).map fun symbols =>
      { t with locals := { scope with symbols } :: outer }
  | _, _ => (t.globals.add symbol none).map fun globals => { t with globals }

/-- Takes over the binding of a symbol in the innermost of the given scopes that has its name. -/
def updateLocal? (symbol : Symbol) : List Scope → Option (Except SymbolError (List Scope))
  | [] => none
  | scope :: outer =>
    match scope.symbols.update? symbol with
    | some outcome => some (outcome.map fun symbols => { scope with symbols } :: outer)
    | none => (updateLocal? symbol outer).map (·.map (scope :: ·))

/-- Takes over the binding of a symbol for the name it has. The type and the kind have to be those
that the name stands for already. -/
def update (t : SymbolTable) (symbol : Symbol) : Except SymbolError SymbolTable :=
  match updateLocal? symbol t.locals, t.globals.update? symbol with
  | some outcome, _ => outcome.map fun locals => { t with locals }
  | none, some outcome => outcome.map fun globals => { t with globals }
  | none, none => .error (.notFound symbol.name)

/-- The labels of the given scopes, from the outermost to the innermost, with a point behind
each. -/
def path (scopes : List Scope) : String :=
  String.join (scopes.reverse.map fun scope => scope.label ++ ".")

/-- The name in the module of a procedure declared here. It starts with the labels of the open
scopes, the outermost excepted. -/
def qualifiedName (t : SymbolTable) (name : String) : String :=
  path t.locals.dropLast ++ name

/-- The unique name that is handed out next for a hint. -/
def uniqueName (t : SymbolTable) (hint : String) : String :=
  path t.locals ++ hint ++ "." ++ toString t.nextUnique

/-- The table after handing out a unique name. -/
def tick (t : SymbolTable) : SymbolTable :=
  { t with nextUnique := t.nextUnique + 1 }

end SymbolTable

end ProcLang
