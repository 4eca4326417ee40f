import ProcLang.Parser.Program

/-!
# Arguments of the command

The command takes the path of a source file and some options, in any order. An option is given once.
A value follows its option, or is attached to it: with an equals sign, which a short option does not
need. A double dash ends the options. The arguments are read from left to right, and the first one
that is wrong, or asks for the version or for help, decides.
-/

namespace ProcLang

/-- What the command is asked to do with a source file. -/
structure Invocation where
  input : String
  output : Option String
  tabWidth : Nat
  listTokens : Bool
deriving DecidableEq, Inhabited

/-- What the arguments ask for. -/
inductive Request where
  | run (invocation : Invocation)
  | version
  | help
  | misuse
deriving DecidableEq, Inhabited

namespace Request

/-- The arguments read so far. -/
structure Given where
  input : Option String := none
  output : Option String := none
  tabWidth : Option Nat := none
  listTokens : Bool := false

/-- The number that a text writes, with or without a sign, if it fits in 32 bits. -/
def word? (text : String) : Option Nat :=
  let (negative, digits) :=
    match text.toList with
    | '-' :: digits => (true, digits)
    | '+' :: digits => (false, digits)
    | digits => (false, digits)
  let value := digits.foldl (fun value c => 10 * value + (c.toNat - '0'.toNat)) 0
  if digits ≠ [] ∧ digits.all Char.isDigit ∧ value ≤ wordMax ∧ (negative = false ∨ value = 0) then
    some value
  else
    none

namespace Given

/-- Takes the source file. -/
def setInput? (g : Given) (path : String) : Option Given :=
  if g.input.isNone ∧ path ≠ "" then some { g with input := path } else none

/-- Takes the file to write. -/
def setOutput? (g : Given) (path : String) : Option Given :=
  if g.output.isNone ∧ path ≠ "" then some { g with output := path } else none

/-- Takes the tab width. -/
def setTabWidth? (g : Given) (text : String) : Option Given :=
  match g.tabWidth, word? text with
  | none, some value => some { g with tabWidth := value }
  | _, _ => none

/-- Takes the wish for a list of the tokens. -/
def setListTokens? (g : Given) : Option Given :=
  if g.listTokens then none else some { g with listTokens := true }

end Given

/-- What an argument is. -/
inductive Argument where
  /-- The end of the options. -/
  | endOfOptions
  /-- An option by its long name, with an attached value. -/
  | long (name : String) (value : Option String)
  /-- An option by its short name, with what follows it in the same argument. -/
  | short (name : Char) (rest : List Char)
  | positional (text : String)

/-- Tells options from other arguments. A single dash is not an option. -/
def Argument.ofString (text : String) : Argument :=
  match text.toList with
  | ['-', '-'] => .endOfOptions
  | '-' :: '-' :: option =>
    match option.dropWhile (· != '=') with
    | [] => .long (String.ofList option) none
    | _ :: value =>
      .long (String.ofList (option.takeWhile (· != '='))) (some (String.ofList value))
  | '-' :: name :: rest => .short name rest
  | _ => .positional text

/-- The value attached to a short option. -/
def attached? : List Char → Option String
  | [] => none
  | '=' :: value => some (String.ofList value)
  | value => some (String.ofList value)

/-- Goes on with what was given so far, if the argument could be taken. -/
def orMisuse (given : Option Given) : Except Request Given :=
  match given with
  | some given => .ok given
  | none => .error .misuse

/-- Reads the arguments behind a double dash. -/
def readPositional (given : Given) : List String → Except Request Given
  | [] => .ok given
  | arg :: args => do readPositional (← orMisuse (given.setInput? arg)) args

/-- An option that takes a value. -/
inductive Valued where
  | output
  | tabWidth

/-- Takes the value of an option. -/
def Valued.take? (v : Valued) (given : Given) (value : String) : Option Given :=
  match v with
  | output => given.setOutput? value
  | tabWidth => given.setTabWidth? value

/-- What to do about an argument. -/
inductive Action where
  /-- Go on with what is given now. -/
  | proceed (given : Given)
  /-- Take the next argument as the value of an option. -/
  | await (option : Valued)
  /-- Take no more options. -/
  | onlyPositional
  | stop (request : Request)

/-- Takes a value that is attached to its option, or waits for it. -/
def takeValue (given : Given) (option : Valued) (value : Option String) : Action :=
  match value with
  | none => .await option
  | some value =>
    match option.take? given value with
    | some given => .proceed given
    | none => .stop .misuse

/-- What to do about an argument, given those before it. -/
def act (given : Given) (arg : Argument) : Action :=
  match arg with
  | .endOfOptions => .onlyPositional
  | .long "output" value => takeValue given .output value
  | .long "tab-width" value => takeValue given .tabWidth value
  | .long "tokens" none =>
    match given.setListTokens? with
    | some given => .proceed given
    | none => .stop .misuse
  | .long "version" none => .stop .version
  | .long "help" none => .stop .help
  | .long _ _ => .stop .misuse
  | .short 'o' rest => takeValue given .output (attached? rest)
  | .short 'V' _ => .stop .version
  | .short 'h' _ => .stop .help
  | .short _ _ => .stop .misuse
  | .positional text =>
    match given.setInput? text with
    | some given => .proceed given
    | none => .stop .misuse

/-- Reads arguments. An argument that looks like an option is never the value of another. -/
def readArgs (given : Given) : List String → Except Request Given
  | [] => .ok given
  | arg :: args =>
    match act given (.ofString arg) with
    | .proceed given => readArgs given args
    | .onlyPositional => readPositional given args
    | .stop request => .error request
    | .await option =>
      match args with
      | [] => .error .misuse
      | value :: args =>
        match Argument.ofString value with
        | .positional value => do readArgs (← orMisuse (option.take? given value)) args
        | _ => .error .misuse

/-- What arguments ask for. -/
def ofArgs (args : List String) : Request :=
  match readArgs {} args with
  | .error request => request
  | .ok given =>
    match given.input with
    | none => .misuse
    | some input =>
      .run { input
             output := given.output
             tabWidth := given.tabWidth.getD defaultTabWidth
             listTokens := given.listTokens }

end Request

end ProcLang
