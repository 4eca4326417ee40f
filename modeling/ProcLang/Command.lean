import ProcLang.Command.Arguments
import ProcLang.File.Compile
import ProcLang.Text.Quoted

/-!
# The command

What the command prints and writes, and the code with which it ends.
-/

namespace ProcLang

/-- What the command prints, and the code with which it ends. -/
structure CommandOutcome where
  code : Nat
  stdout : String := ""
  stderr : String := ""
deriving DecidableEq, Inhabited

namespace Command

/-- The code of success. -/
def success : Nat := 0

/-- The code of failure. -/
def failure : Nat := 1

/-- The code for arguments that are wrong. -/
def misuse : Nat := 2

/-- The code for an operation without an answer. -/
def fault : Nat := 101

/-- The text that tells the version. -/
def versionText : String := "procc 0.0.1\n"

/-- How the command is used. -/
def usageText : String := "Usage: procc [OPTIONS] <INPUT>\n"

/-- The text that explains the arguments. -/
def helpText : String :=
  "Compiles a program into LLVM IR\n\n" ++ usageText ++
  "\nArguments:\n" ++
  "  <INPUT>  Path to the source file to compile\n" ++
  "\nOptions:\n" ++
  "  -o, --output <OUTPUT>        Where to write the IR (defaults to the input path with an " ++
  "`.ll` extension)\n" ++
  "      --tab-width <TAB_WIDTH>  Number of columns a tab advances in reported positions " ++
  "[default: 4]\n" ++
  "      --tokens                 Print the token stream and exit\n" ++
  "  -h, --help                   Print help\n" ++
  "  -V, --version                Print version\n"

/-- Texts, one to a line. -/
def lines (texts : List String) : String :=
  String.join (texts.map (· ++ "\n"))

/-- The line for a token: where it starts, its kind, and its text. -/
def tokenLine (t : Token) : String :=
  t.position.render ++ " " ++ t.kind.name ++ " " ++ Text.quoted (String.ofList t.text)

/-- Lists the tokens of a source text. Those before a column that does not fit are listed too. -/
def listTokens (tabWidth : Nat) (source : String) : CommandOutcome :=
  let (tokens, complete) := (Scan.ofString tabWidth source).through Token.isEof
  { code := if complete then success else fault, stdout := lines (tokens.map tokenLine) }

/-- What the command says about the outcome of compiling a file. -/
def report (outcome : FileOutcome) : CommandOutcome :=
  let diagnostics := (outcome.diagnostics?.getD []).map Diagnostic.render
  { code :=
      match outcome with
      | .compiled _ => success
      | .faulted _ => fault
      | _ => failure
    stderr := lines (diagnostics ++ outcome.message?.toList) }

/-- The file that the module is written to. -/
def outputOf (invocation : Invocation) : String :=
  invocation.output.getD (Path.withExtension invocation.input "ll")

/-- Does what the arguments ask for. -/
def perform {m : Type → Type} [Monad m] (files : FileAccess m) (invocation : Invocation) :
    m CommandOutcome := do
  if invocation.listTokens then
    match ← files.readText invocation.input with
    | .ok source => return listTokens invocation.tabWidth source
    | .error error =>
      return { code := failure, stderr := lines [unreadableMessage invocation.input error] }
  else
    let options : Options := { tabWidth := invocation.tabWidth }
    return report (← compileFile files invocation.input (outputOf invocation) options)

/-- Runs the command. -/
def run {m : Type → Type} [Monad m] (files : FileAccess m) (args : List String) :
    m CommandOutcome :=
  match Request.ofArgs args with
  | .version => return { code := success, stdout := versionText }
  | .help => return { code := success, stdout := helpText }
  | .misuse => return { code := misuse, stderr := usageText }
  | .run invocation => perform files invocation

end Command

end ProcLang
